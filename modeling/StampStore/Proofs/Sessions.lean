-- Sessions: clients of one store in memory, whose calls follow each other in any
-- order. Every call goes through the store. Between two calls no key is locked,
-- and only a commit changes the records.
import StampStore.Database
import StampStore.Proofs.Commits

namespace StampStore

/-! ## Clients and their calls -/

/-- What a client asks of its transaction. -/
inductive Request where
  | lookup (key : Key)
  | write (key : Key) (message : Message)
  deriving DecidableEq

/-- What a client is told. -/
inductive Answer where
  | found (result : Except Error (Option Bytes))
  | done (result : Except Failure Unit)

/-- A request with its answer. -/
structure Exchange where
  request : Request
  answer : Answer

/-- A client with its transaction, and with what was said while the transaction was active. -/
structure Client where
  txn : Transaction
  log : List Exchange
  /-- Whether a lookup went to storage and did not find its key. -/
  missed : Bool

/-- A call on the store. Clients are numbered in the order they begin. -/
inductive Call where
  | begin (level : Isolation)
  | ask (n : Nat) (request : Request)
  | abort (n : Nat)
  | commit (n : Nat)
  deriving DecidableEq

/-- The client that a call is for; a client begins without a number. -/
def Call.client? : Call → Option Nat
  | .begin _ => none
  | .ask n _ => some n
  | .abort n => some n
  | .commit n => some n

namespace Client

/-- The client once it has an answer; a transaction that is not active adds nothing to the log. -/
def hear (client : Client) (txn : Transaction) (exchange : Exchange) (missed : Bool) : Client :=
  if client.txn.isActive then ⟨txn, client.log ++ [exchange], client.missed || missed⟩
  else { client with txn }

/-- Sends a request to the store. -/
def ask (db : Database Records) (client : Client) (request : Request) (state : State Records) :
    Client × State Records :=
  match request with
  | .lookup key =>
    match db.lookup client.txn key state with
    | ⟨answer, txn, after⟩ =>
      (client.hear txn ⟨request, .found answer⟩
        (client.txn.asksStorage key && !state.shared.stored.contains key), after)
  | .write key message =>
    match db.write client.txn key message with
    | .error failure => (client.hear client.txn ⟨request, .done (.error failure)⟩ false, state)
    | .ok txn => (client.hear txn ⟨request, .done (.ok ())⟩ false, state)

end Client

/-- The time of a commit that has gone through. -/
def commitTime? {ε : Type} : Except ε Outcome → Option Timestamp
  | .ok outcome => outcome.time?
  | .error _ => none

/-- A store in memory with its clients, and the commits that have gone through: the number of
the client and the time, in the order of the calls. -/
structure Session where
  state : State Records
  clients : List Client
  commits : List (Nat × Timestamp)

namespace Session

/-- A session that has not begun. -/
def start (state : State Records) : Session := ⟨state, [], []⟩

/-- One call. A call for a client that has not begun does nothing. -/
def step (db : Database Records) (s : Session) : Call → Session
  | .begin level =>
    match s.state.beginAt level with
    | (txn, state) => { s with state, clients := s.clients ++ [⟨txn, [], false⟩] }
  | .ask n request =>
    match s.clients[n]? with
    | none => s
    | some client =>
      match client.ask db request s.state with
      | (client, state) => { s with state, clients := s.clients.set n client }
  | .abort n =>
    match s.clients[n]? with
    | none => s
    | some client =>
      match s.state.abort client.txn with
      | (txn, state) => { s with state, clients := s.clients.set n { client with txn } }
  | .commit n =>
    match s.clients[n]? with
    | none => s
    | some client =>
      match db.commit [] client.txn s.state with
      | ⟨answer, txn, state⟩ =>
        { state
          clients := s.clients.set n { client with txn }
          commits := s.commits ++ ((commitTime? answer).map (n, ·)).toList }

/-- Calls one after another. -/
def run (db : Database Records) (s : Session) (calls : List Call) : Session :=
  calls.foldl (step db) s

/-- The stored records. -/
def records (s : Session) : Records := s.state.shared.stored

/-- Whether client `n` has a transaction that is still active. -/
def active (s : Session) (n : Nat) : Bool :=
  match s.clients[n]? with
  | none => false
  | some client => client.txn.isActive

theorem run_cons (db : Database Records) (s : Session) (call : Call) (calls : List Call) :
    s.run db (call :: calls) = (s.step db call).run db calls := rfl

theorem run_append (db : Database Records) (s : Session) (xs ys : List Call) :
    s.run db (xs ++ ys) = (s.run db xs).run db ys := List.foldl_append

end Session

/-! ## Between calls -/

/-- The store keeps its records in memory, under the operator that its transactions use. -/
def Database.InMemory (db : Database Records) : Prop := db.engine = Engine.memory db.merge.tuple

theorem openMemoryWith_spec {merge : MergeOperator} {config : Config} {db : Database Records}
    {state : State Records} (h : Database.openMemoryWith merge config = .ok (db, state)) :
    db.InMemory ∧ db.merge = merge ∧ state.shared = ⟨KeyMap.empty, LockTable.empty⟩ := by
  unfold Database.openMemoryWith Database.openOver at h
  split at h
  · cases h
  · cases h
    exact ⟨rfl, rfl, rfl⟩

/-- A store opened in memory is empty, and merges with the operator that its settings name. -/
theorem openMemory_named {config : Config} {db : Database Records} {state : State Records}
    (h : Database.openMemory config = .ok (db, state)) :
    MergeOperator.ofName? config.merge = some db.merge ∧ db.InMemory ∧
      state = State.initial KeyMap.empty state.isolation := by
  unfold Database.openMemory Config.mergeOperator at h
  cases hname : MergeOperator.ofName? config.merge with
  | none =>
    simp only [hname] at h
    cases h
  | some merge =>
    simp only [hname, Database.openMemoryWith, Database.openOver] at h
    split at h
    · cases h
    · cases h
      exact ⟨rfl, rfl, rfl⟩

/-- The store in memory that the standard settings open. -/
def Database.standard : Database Records :=
  ⟨Engine.memory MergeOperator.replace.tuple, .replace, Config.standard.retry,
    Config.standard.lockBackoff⟩

/-- The state of that store before all calls. -/
def State.standard : State Records := State.initial KeyMap.empty Isolation.standard

theorem openMemory_standard :
    Database.openMemory Config.standard = .ok (Database.standard, State.standard) := rfl

theorem openMemoryWith_standard :
    Database.openMemoryWith .replace Config.standard = .ok (Database.standard, State.standard) :=
  rfl

/-- The store that the standard settings open under another operator. -/
def Database.under (merge : MergeOperator) : Database Records :=
  { Database.standard with engine := Engine.memory merge.tuple, merge }

theorem openMemoryWith_under (merge : MergeOperator) :
    Database.openMemoryWith merge Config.standard = .ok (Database.under merge, State.standard) :=
  rfl

/-- No key is locked, and every record is sound. -/
structure Session.Quiet (s : Session) : Prop where
  unlocked : s.state.shared.locks = LockTable.empty
  sound : s.records.Sound

variable {db : Database Records} {s : Session} {n : Nat} {client : Client}

theorem Session.Quiet.shared (h : s.Quiet) : s.state.shared = ⟨s.records, LockTable.empty⟩ := by
  rw [← h.unlocked]
  rfl

theorem Session.quiet_start {state : State Records}
    (h : state.shared = ⟨KeyMap.empty, LockTable.empty⟩) : (Session.start state).Quiet := by
  refine ⟨?_, ?_⟩
  · exact congrArg Shared.locks h
  · have hstored : (Session.start state).records = KeyMap.empty := congrArg Shared.stored h
    rw [hstored]
    exact Records.sound_empty

theorem commitTime?_mapError (answer : Except Error Outcome) :
    commitTime? (answer.mapError Failure.error) = commitTime? answer := by
  cases answer <;> rfl

theorem answer_of_commitTime? {ε : Type} {answer : Except ε Outcome} {ts : Timestamp}
    (h : commitTime? answer = some ts) : answer = .ok (.committed ts) := by
  cases answer with
  | error e => cases h
  | ok outcome =>
    cases outcome with
    | aborted reason => cases h
    | committed c =>
      cases h
      rfl

/-- The counters once a commit has answered. -/
def Counters.ended (counters : Counters) (readOnly : Bool) (finished : Transaction)
    (answer : Except Failure Outcome) : Counters :=
  (finished.ending readOnly answer).elim counters counters.finish

/-- The commit of an active transaction, over any engine and any locks: it is counted as it has
ended. -/
theorem Database.commit_active {σ : Type} {db : Database σ} {txn finished : Transaction}
    (hactive : txn.isActive = true) {rounds : List LockTable.Releases} {state : State σ}
    {answer : Except Failure Outcome} {shared : Shared σ} {retries : Nat}
    (hcommit : txn.commit db.engine rounds state.shared = ⟨answer, finished, shared, retries⟩) :
    db.commit rounds txn state = ⟨answer, finished, { state with
      shared, lockRetries := state.lockRetries + UInt64.ofNat retries
      counters := state.counters.ended txn.writes.isEmpty finished answer }⟩ := by
  unfold Database.commit Database.commitUncounted Counters.ended
  rw [if_pos hactive, hcommit]
  simp only
  split
  · rename_i hending
    rw [hending]
    rfl
  · rename_i ending hending
    rw [hending]
    rfl

/-- The commit of an active transaction between calls: its answer, what it leaves of the transaction,
and the state. -/
theorem Database.commit_eq (hdb : db.InMemory) {state : State Records} {records : Records}
    (hshared : state.shared = ⟨records, LockTable.empty⟩) (hsound : records.Sound)
    {txn : Transaction} (hactive : txn.isActive = true) :
    ∃ answer decided after held, CommitRun db.merge txn records held answer decided after ∧
      (∀ key, held.holder? key = if key ∈ txn.writes.keys then some txn.id else none) ∧
      db.commit [] txn state =
        ⟨answer.mapError .error, decided.finish (Transaction.finalStatus answer),
          { state with
            shared := ⟨after, LockTable.empty⟩
            counters := state.counters.ended txn.writes.isEmpty
              (decided.finish (Transaction.finalStatus answer)) (answer.mapError .error) }⟩ := by
  obtain ⟨held, hlock, hrelease, hholder⟩ := LockTable.lockWaiting_free txn.id []
    txn.ready.writes.distinct (fun key _ => (rfl : LockTable.empty.holder? key = none))
  obtain ⟨answer, decided, after, hrun, hcommit⟩ :=
    StampStore.commit_memory db.merge hsound hactive hlock
  refine ⟨answer, decided, after, held, hrun, ?_, ?_⟩
  · intro key
    have hmem : key ∈ txn.ready.writes.entries.map (·.key) ↔ key ∈ txn.writes.keys := by
      rw [Transaction.ready_writes]
      exact WriteBuffer.mem_keys_sorted
    rw [hholder, LockTable.holder?]
    simp only [hmem]
    rfl
  · rw [← hdb, ← hshared] at hcommit
    rw [Database.commit_active hactive hcommit, show UInt64.ofNat 0 = 0 from rfl, UInt64.add_zero,
      show held.releaseAll txn.ready.writes.keys txn.id = LockTable.empty from hrelease]

/-! ## What a call does -/

/-- What a lookup of a client leaves: the transaction may have noted what it saw. -/
def Transaction.Looked (txn : Transaction) (merge : MergeOperator) (records : Records) (key : Key)
    (after : Transaction) : Prop :=
  (after = txn ∨ ∃ t, after = txn.noteRead key t ∧ t.stamp = records.stampAt key) ∧
    (txn.asksStorage key = true → ∀ t value, records.tuple? key = some t →
      txn.writes.view merge key (records.value? key) = .ok value → after = txn.noteRead key t)

/-- A lookup of an active client between calls. -/
theorem Database.lookup_memory (hdb : db.InMemory) (hq : s.Quiet) {txn : Transaction}
    (hactive : txn.isActive = true) (key : Key) :
    ∃ after, db.lookup txn key s.state =
        ⟨txn.writes.view db.merge key (s.records.value? key), after, s.state⟩ ∧
      txn.Looked db.merge s.records key after := by
  obtain ⟨after, hread, hlooked⟩ := read_memory hq.sound db.merge db.merge.tuple LockTable.empty
    hactive key
  refine ⟨after, ?_, hlooked⟩
  unfold Database.lookup
  rw [hdb, hq.shared, hread, ← hq.shared]

/-- The ways a call can go. Only a commit changes the records. -/
inductive Session.Step (db : Database Records) (s : Session) : Call → Session → Prop where
  | begun {level : Isolation} {id : TxnId} {state : State Records}
      (hshared : state.shared = s.state.shared) :
      Step db s (.begin level)
        { s with state, clients := s.clients ++ [⟨Transaction.start id level, [], false⟩] }
  | idle {call : Call} {n : Nat} (hcall : call.client? = some n) (hidle : s.active n = false) :
      Step db s call s
  | looked {n : Nat} {client : Client} {key : Key} {after : Transaction}
      (hclient : s.clients[n]? = some client) (hactive : client.txn.isActive = true)
      (hlooked : client.txn.Looked db.merge s.records key after) :
      Step db s (.ask n (.lookup key))
        { s with
          clients := s.clients.set n
            ⟨after,
              client.log ++ [⟨.lookup key,
                .found (client.txn.writes.view db.merge key (s.records.value? key))⟩],
              client.missed || (client.txn.asksStorage key && !s.records.contains key)⟩ }
  | refused {n : Nat} {client : Client} {key : Key} {message : Message} {failure : Failure}
      (hclient : s.clients[n]? = some client) (hactive : client.txn.isActive = true)
      (hwrite : client.txn.write db.merge key message = .error failure) :
      Step db s (.ask n (.write key message))
        { s with
          clients := s.clients.set n
            { client with log := client.log ++ [⟨.write key message, .done (.error failure)⟩] } }
  | wrote {n : Nat} {client : Client} {key : Key} {message : Message} {txn : Transaction}
      (hclient : s.clients[n]? = some client) (hactive : client.txn.isActive = true)
      (hwrite : client.txn.write db.merge key message = .ok txn) :
      Step db s (.ask n (.write key message))
        { s with
          clients := s.clients.set n
            { client with txn, log := client.log ++ [⟨.write key message, .done (.ok ())⟩] } }
  | aborted {n : Nat} {client : Client} {state : State Records}
      (hclient : s.clients[n]? = some client) (hactive : client.txn.isActive = true)
      (hshared : state.shared = s.state.shared) :
      Step db s (.abort n)
        { s with state, clients := s.clients.set n { client with txn := client.txn.abort } }
  | committed {n : Nat} {client : Client} {state : State Records} {held : LockTable}
      {answer : Except Error Outcome} {decided : Transaction} {after : Records}
      (hclient : s.clients[n]? = some client) (hactive : client.txn.isActive = true)
      (hholder : ∀ key, held.holder? key =
        if key ∈ client.txn.writes.keys then some client.txn.id else none)
      (hrun : CommitRun db.merge client.txn s.records held answer decided after)
      (hshared : state.shared = ⟨after, LockTable.empty⟩) :
      Step db s (.commit n)
        { state
          clients := s.clients.set n
            { client with txn := decided.finish (Transaction.finalStatus answer) }
          commits := s.commits ++ ((commitTime? answer).map (n, ·)).toList }

theorem Client.ask_finished (h : client.txn.isActive = false) (request : Request)
    (state : State Records) : client.ask db request state = (client, state) := by
  unfold Client.ask Client.hear
  cases request with
  | lookup key => simp [Database.lookup, Transaction.read, h]
  | write key message => simp [Database.write, Transaction.write, h]

theorem set_same {α : Type} {l : List α} {n : Nat} {a : α} (h : l[n]? = some a) :
    l.set n a = l := by
  obtain ⟨hn, rfl⟩ := List.getElem?_eq_some_iff.mp h
  exact List.set_getElem_self hn

theorem Session.client_of_active (h : s.active n = true) :
    ∃ client, s.clients[n]? = some client ∧ client.txn.isActive = true := by
  unfold active at h
  split at h
  · cases h
  · exact ⟨_, ‹_›, h⟩

theorem Session.active_of_none (h : s.clients[n]? = none) : s.active n = false := by
  simp [active, h]

theorem Session.active_of_client (h : s.clients[n]? = some client) :
    s.active n = client.txn.isActive := by
  simp [active, h]

/-- What a call can do. -/
theorem Session.step_cases (hdb : db.InMemory) (hq : s.Quiet) (call : Call) :
    Session.Step db s call (s.step db call) := by
  cases call with
  | begin level => exact .begun rfl
  | ask n request =>
    cases hclient : s.clients[n]? with
    | none =>
      simp only [Session.step, hclient]
      exact .idle rfl (active_of_none hclient)
    | some client =>
      cases hactive : client.txn.isActive with
      | false =>
        simp only [Session.step, hclient, Client.ask_finished hactive, set_same hclient]
        exact .idle rfl ((active_of_client hclient).trans hactive)
      | true =>
        cases request with
        | lookup key =>
          obtain ⟨after, hlookup, hlooked⟩ := Database.lookup_memory hdb hq hactive key
          simp only [Session.step, hclient, Client.ask, hlookup, Client.hear, hactive, if_true]
          exact .looked hclient hactive hlooked
        | write key message =>
          simp only [Session.step, hclient, Client.ask, Database.write, Client.hear, hactive,
            if_true, Bool.or_false]
          cases hwrite : client.txn.write db.merge key message with
          | error failure => exact .refused hclient hactive hwrite
          | ok txn => exact .wrote hclient hactive hwrite
  | abort n =>
    cases hclient : s.clients[n]? with
    | none =>
      simp only [Session.step, hclient]
      exact .idle rfl (active_of_none hclient)
    | some client =>
      cases hactive : client.txn.isActive with
      | false =>
        simp only [Session.step, hclient, State.abort, hactive, Bool.false_eq_true, if_false,
          set_same hclient]
        exact .idle rfl ((active_of_client hclient).trans hactive)
      | true =>
        simp only [Session.step, hclient, State.abort, hactive, if_true]
        exact .aborted hclient hactive rfl
  | commit n =>
    cases hclient : s.clients[n]? with
    | none =>
      simp only [Session.step, hclient]
      exact .idle rfl (active_of_none hclient)
    | some client =>
      cases hactive : client.txn.isActive with
      | false =>
        simp only [Session.step, hclient, Database.commit, hactive, Bool.false_eq_true, if_false,
          set_same hclient]
        simp only [commitTime?, Option.map_none, Option.toList_none, List.append_nil]
        exact .idle rfl ((active_of_client hclient).trans hactive)
      | true =>
        obtain ⟨answer, decided, after, held, hrun, hholder, hcommit⟩ :=
          Database.commit_eq hdb hq.shared hq.sound hactive
        simp only [Session.step, hclient, hcommit, commitTime?_mapError]
        exact .committed hclient hactive hholder hrun rfl

end StampStore
