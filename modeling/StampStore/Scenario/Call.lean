-- The calls a scenario is made of. Transactions go by names; a scenario may also
-- act on the records and the locks behind the store's back.
import StampStore.Closure
import StampStore.Engine.Scripted

namespace StampStore.Scenario

/-- The name of a transaction. -/
abbrev Name := String

/-- The name under which some work knows its own transaction. -/
def ownName : Name := "self"

/-- One call. -/
inductive Call where
  | begin (t : Name) (level : Option Isolation)
  | beginUncounted (t : Name) (level : Option Isolation)
  | beginAs (t : Name) (id : TxnId) (level : Option Isolation)
  | lookup (t : Name) (key : Key)
  | write (t : Name) (key : Key) (message : Message)
  | commit (t : Name) (releases : Option LockTable.Releases)
  | commitUncounted (t : Name) (releases : Option LockTable.Releases)
  | abort (t : Name)
  | abortUncounted (t : Name)
  | ensureActive (t : Name)
  | chooseReadTime (t : Name)
  | chooseWriteTime (t : Name)
  | validateReads (t : Name) (ts : Timestamp)
  | describe (t : Name)
  | setIsolation (level : Isolation)
  | getCommitted (key : Key)
  | stampOf (key : Key)
  | storedStamp (key : Key)
  | stats
  | takeId
  | dump
  | describeStore
  | put (key : Key) (record : Bytes)
  | merge (key : Key) (delta : Bytes)
  | remove (key : Key)
  | lock (key : Key) (owner : TxnId)
  | unlock (key : Key) (owner : TxnId)
  | lockAll (keys : List Key) (owner : TxnId)
  | addRule (rule : Rule)
  | fail (e : Error)

/-- The transaction a call is about. -/
def Call.target? : Call → Option Name
  | begin t _ => some t
  | beginUncounted t _ => some t
  | beginAs t _ _ => some t
  | lookup t _ => some t
  | write t _ _ => some t
  | commit t _ => some t
  | commitUncounted t _ => some t
  | abort t => some t
  | abortUncounted t => some t
  | ensureActive t => some t
  | chooseReadTime t => some t
  | chooseWriteTime t => some t
  | validateReads t _ => some t
  | describe t => some t
  | _ => none

/-- Whether the records are worth showing after the call. -/
def Call.showsRecords : Call → Bool
  | commit _ _ => true
  | commitUncounted _ _ => true
  | validateReads _ _ => true
  | dump => true
  | put _ _ => true
  | merge _ _ => true
  | remove _ => true
  | _ => false

/-- The result of a call that does not fail. -/
inductive Result where
  | nothing
  | value (found : Option Bytes)
  /-- How a commit ended and, where others gave locks up for it, whether it had to wait. -/
  | outcome (ended : Outcome) (waited : Option Bool)
  | validation (report : Validation)
  | level (isolation : Isolation)
  | stamp (found : Option Stamp)
  | metrics (snapshot : Metrics)
  | id (n : TxnId)
  | text (s : String)
  | texts (first second : String)
  | lock (outcome : LockOutcome)
  | flag (b : Bool)
  | noSuchTransaction

/-- What is fixed for a scenario: the store, and the operator its records are merged with. -/
structure Bench where
  db : Database (Recorded Scripted)
  recordMerge : MergeOperator

/-- What a scenario goes through: the store, the named transactions, and the transaction of the
work that is running. -/
structure Scene where
  state : State (Recorded Scripted)
  named : List (Name × Transaction)
  own : Option Transaction

namespace Scene

/-- The transaction of a name. -/
def find? (scene : Scene) (t : Name) : Option Transaction :=
  if t = ownName then scene.own.or (scene.named.lookup t) else scene.named.lookup t

/-- Gives a name to a transaction. -/
def assign (scene : Scene) (t : Name) (txn : Transaction) : Scene :=
  { scene with named := (t, txn) :: scene.named.filter fun entry => entry.1 != t }

/-- Puts a transaction back after a call. -/
def update (scene : Scene) (t : Name) (txn : Transaction) : Scene :=
  if t = ownName ∧ scene.own.isSome then { scene with own := some txn } else scene.assign t txn

/-- The records of the store. -/
def records (scene : Scene) : Records := scene.state.shared.stored.stored.records

/-- The lock table of the store. -/
def locks (scene : Scene) : LockTable := scene.state.shared.locks

/-- Changes what the transactions share. -/
def mapShared (scene : Scene)
    (f : Shared (Recorded Scripted) → Shared (Recorded Scripted)) : Scene :=
  { scene with state := { scene.state with shared := f scene.state.shared } }

/-- Changes the records behind the store's back. -/
def setRecords (scene : Scene) (records : Records) : Scene :=
  scene.mapShared fun shared =>
    let scripted := { shared.stored.stored with records }
    { shared with stored := { shared.stored with stored := scripted } }

/-- Changes the lock table behind the store's back. -/
def setLocks (scene : Scene) (locks : LockTable) : Scene :=
  scene.mapShared fun shared => { shared with locks }

/-- Adds a rule behind the others. -/
def addRule (scene : Scene) (rule : Rule) : Scene :=
  scene.mapShared fun shared =>
    let scripted := { shared.stored.stored with rules := shared.stored.stored.rules ++ [rule] }
    { shared with stored := { shared.stored with stored := scripted } }

/-- The engine calls since the log was cleared. -/
def log (scene : Scene) : List Event := scene.state.shared.stored.log

/-- Forgets the engine calls so far. -/
def clearLog (scene : Scene) : Scene :=
  scene.mapShared fun shared => { shared with stored := { shared.stored with log := [] } }

end Scene

/-- What a call leaves. -/
abbrev Effect := Except Failure Result × Scene

/-- A call on a transaction; the name of none is answered as such. -/
def onTransaction (scene : Scene) (t : Name) (call : Transaction → Effect) : Effect :=
  match scene.find? t with
  | none => (.ok .noSuchTransaction, scene)
  | some txn => call txn

/-- Puts the transaction and the state of the store back into the scene. -/
def Scene.resume {α : Type} (scene : Scene) (t : Name) (turn : Turn (State (Recorded Scripted)) α) :
    Scene :=
  { scene with state := turn.after }.update t turn.txn

/-- The rounds of releases a commit can wait for. -/
def rounds : Option LockTable.Releases → List LockTable.Releases
  | none => []
  | some releases => [releases]

/-- What a commit leaves, with whether it had to wait when others were to give locks up. -/
def afterCommit (scene : Scene) (t : Name) (releases : Option LockTable.Releases)
    (turn : Turn (State (Recorded Scripted)) (Except Failure Outcome)) : Effect :=
  let waited := decide (turn.after.lockRetries ≠ scene.state.lockRetries)
  (turn.answer.map fun ended => .outcome ended (releases.map fun _ => waited),
    scene.resume t turn)

namespace Call

/-- Makes the call. -/
def perform (bench : Bench) (call : Call) (scene : Scene) : Effect :=
  match call with
  | begin t level =>
    match scene.state.beginAt (level.getD scene.state.isolation) with
    | (txn, state) => (.ok .nothing, { scene with state }.assign t txn)
  | beginUncounted t level =>
    match scene.state.beginUncounted (level.getD Isolation.standard) with
    | (txn, state) => (.ok .nothing, { scene with state }.assign t txn)
  | beginAs t id level =>
    (.ok .nothing, scene.assign t (Transaction.start id (level.getD Isolation.standard)))
  | lookup t key =>
    onTransaction scene t fun txn =>
      let turn := bench.db.lookup txn key scene.state
      ((turn.answer.mapError .error).map .value, scene.resume t turn)
  | write t key message =>
    onTransaction scene t fun txn =>
      match bench.db.write txn key message with
      | .error failure => (.error failure, scene)
      | .ok txn => (.ok .nothing, scene.update t txn)
  | commit t releases =>
    onTransaction scene t fun txn =>
      afterCommit scene t releases (bench.db.commit (rounds releases) txn scene.state)
  | commitUncounted t releases =>
    onTransaction scene t fun txn =>
      afterCommit scene t releases (bench.db.commitUncounted (rounds releases) txn scene.state)
  | abort t =>
    onTransaction scene t fun txn =>
      match scene.state.abort txn with
      | (txn, state) => (.ok .nothing, { scene with state }.update t txn)
  | abortUncounted t =>
    onTransaction scene t fun txn => (.ok .nothing, scene.update t txn.abort)
  | ensureActive t =>
    onTransaction scene t fun txn =>
      ((txn.ensureActive.mapError .error).map fun _ => .nothing, scene)
  | chooseReadTime t =>
    onTransaction scene t fun txn => (.ok .nothing, scene.update t txn.chooseReadTime)
  | chooseWriteTime t =>
    onTransaction scene t fun txn =>
      match txn.chooseWriteTime bench.db.engine scene.state.shared with
      | ⟨answer, txn, shared⟩ =>
        ((answer.mapError .error).map fun found => .validation (.stoppedAt found),
          { scene with state := { scene.state with shared } }.update t txn)
  | validateReads t ts =>
    onTransaction scene t fun txn =>
      match txn.validateReads bench.db.engine ts scene.state.shared with
      | (answer, shared) =>
        ((answer.mapError .error).map fun found => .validation (.stoppedAt found),
          { scene with state := { scene.state with shared } })
  | describe t => onTransaction scene t fun txn => (.ok (.text txn.debug), scene)
  | setIsolation level =>
    let state := scene.state.setIsolation level
    (.ok (.level state.isolation), { scene with state })
  | getCommitted key =>
    match bench.db.getCommitted key scene.state with
    | (answer, state) => ((answer.mapError .error).map .value, { scene with state })
  | stampOf key =>
    match bench.db.stampOf key scene.state with
    | (answer, state) => ((answer.mapError .error).map .stamp, { scene with state })
  | storedStamp key =>
    match (Engine.memory bench.recordMerge).fetchStamp key ⟨scene.records, scene.locks⟩ with
    | (answer, _) => ((answer.mapError .error).map .stamp, scene)
  | stats => (.ok (.metrics scene.state.stats), scene)
  | takeId =>
    match scene.state.takeId with
    | (id, state) => (.ok (.id id), { scene with state })
  | dump => (.ok .nothing, scene)
  | describeStore =>
    (.ok (.texts (bench.db.debug scene.state) (scene.records.debug bench.recordMerge)), scene)
  | put key record => (.ok .nothing, scene.setRecords (scene.records.insert key record))
  | merge key delta =>
    match Records.update bench.recordMerge key delta scene.records with
    | .error e => (.error (.error e), scene)
    | .ok records => (.ok .nothing, scene.setRecords records)
  | remove key => (.ok .nothing, scene.setRecords (scene.records.erase key))
  | lock key owner =>
    match scene.locks.tryAcquire key owner with
    | (outcome, locks) => (.ok (.lock outcome), scene.setLocks locks)
  | unlock key owner =>
    match scene.locks.release key owner with
    | (released, locks) => (.ok (.flag released), scene.setLocks locks)
  | lockAll keys owner =>
    match scene.locks.lockAll keys owner with
    | (done, locks) => (.ok (.flag done), scene.setLocks locks)
  | addRule rule => (.ok .nothing, scene.addRule rule)
  | fail e => (.error (.error e), scene)

end Call

end StampStore.Scenario
