-- A store with transactions: an engine, a merge operator and a retry policy that
-- are fixed when it is opened, and a state that its calls pass on. Transactions
-- are begun, committed and aborted through the store, which counts them.
import StampStore.Commit
import StampStore.Config
import StampStore.Metrics

namespace StampStore

/-- What is fixed when a store is opened. -/
structure Database (σ : Type) where
  engine : Engine σ
  merge : MergeOperator
  retry : RetryPolicy
  lockBackoff : Duration

/-- What the calls on a store change. -/
structure State (σ : Type) where
  shared : Shared σ
  /-- The level of transactions that name none. -/
  isolation : Isolation
  nextId : TxnId
  /-- The failed attempts to lock written keys, of all commits. -/
  lockRetries : UInt64
  counters : Counters

variable {σ : Type}

namespace State

/-- The state of a store that has just been opened. -/
def initial (stored : σ) (isolation : Isolation) : State σ :=
  ⟨⟨stored, LockTable.empty⟩, isolation, 1, 0, Counters.zero⟩

/-- Uses up a transaction id. -/
def takeId (state : State σ) : TxnId × State σ :=
  (state.nextId, { state with nextId := state.nextId + 1 })

/-- Begins a transaction that is not counted. -/
def beginUncounted (state : State σ) (isolation : Isolation) : Transaction × State σ :=
  match state.takeId with
  | (id, state) => (Transaction.start id isolation, state)

/-- Begins a transaction at a level. -/
def beginAt (state : State σ) (isolation : Isolation) : Transaction × State σ :=
  match state.beginUncounted isolation with
  | (txn, state) => (txn, { state with counters := state.counters.start })

/-- Begins a transaction at the level of the store. -/
def begin (state : State σ) : Transaction × State σ := state.beginAt state.isolation

/-- Aborts an active transaction; a finished one is neither changed nor counted. -/
def abort (state : State σ) (txn : Transaction) : Transaction × State σ :=
  if txn.isActive then
    (txn.abort, { state with counters := state.counters.finish .requested })
  else (txn, state)

/-- Changes the level of transactions begun from now on. -/
def setIsolation (state : State σ) (isolation : Isolation) : State σ := { state with isolation }

/-- A snapshot of the counters. -/
def stats (state : State σ) : Metrics := state.counters.metrics state.lockRetries

end State

/-- How a commit that has answered counts. -/
def Transaction.ending (readOnly : Bool) (finished : Transaction) :
    Except Failure Outcome → Option Ending
  | .ok (.committed _) => some (.committed readOnly)
  | .ok (.aborted reason) => some reason.ending
  | .error (.error _) =>
    some (if finished.status.isPartiallyApplied then .partiallyApplied else .storageFault)
  | .error (.misuse _) => none
  | .error .blocked => none

namespace Database

/-! ## Transactions -/

/-- Reads a key within a transaction. -/
def lookup (db : Database σ) (txn : Transaction) (key : Key) (state : State σ) :
    Turn (State σ) (Except Error (Option Bytes)) :=
  match txn.read db.engine db.merge key state.shared with
  | ⟨answer, txn, shared⟩ => ⟨answer, txn, { state with shared }⟩

/-- Buffers a write in a transaction. -/
def write (db : Database σ) (txn : Transaction) (key : Key) (message : Message) :
    Except Failure Transaction :=
  txn.write db.merge key message

/-- Commits a transaction without counting it. -/
def commitUncounted (db : Database σ) (rounds : List LockTable.Releases) (txn : Transaction)
    (state : State σ) : Turn (State σ) (Except Failure Outcome) :=
  match txn.commit db.engine rounds state.shared with
  | ⟨answer, txn, shared, retries⟩ =>
    ⟨answer, txn,
      { state with shared, lockRetries := state.lockRetries + UInt64.ofNat retries }⟩

/-- Commits a transaction. A transaction that is not active is not counted again. -/
def commit (db : Database σ) (rounds : List LockTable.Releases) (txn : Transaction)
    (state : State σ) : Turn (State σ) (Except Failure Outcome) :=
  if txn.isActive then
    match db.commitUncounted rounds txn state with
    | ⟨answer, finished, state⟩ =>
      match finished.ending txn.writes.isEmpty answer with
      | none => ⟨answer, finished, state⟩
      | some ending =>
        ⟨answer, finished, { state with counters := state.counters.finish ending }⟩
  else ⟨.error (.error txn.notActive), txn, state⟩

/-! ## Outside of transactions -/

/-- The committed value of a key. -/
def getCommitted (db : Database σ) (key : Key) (state : State σ) :
    Except Error (Option Bytes) × State σ :=
  match db.engine.fetchValue key state.shared with
  | (answer, shared) => (answer, { state with shared })

/-- The stored stamp of a key. -/
def stampOf (db : Database σ) (key : Key) (state : State σ) :
    Except Error (Option Stamp) × State σ :=
  match db.engine.fetchStamp key state.shared with
  | (answer, shared) => (answer, { state with shared })

/-- The store in short. -/
def debug (db : Database σ) (state : State σ) : String :=
  Text.fields "TransactionalStore"
    [("isolation", state.isolation.debug), ("merge", Text.quoted db.merge.name.toList),
      ("active", s!"{state.counters.inFlight.toNat}")]

/-! ## Opening -/

/-- Opens a store over an engine. The operator named in the settings is not looked at. -/
def openOver (engine : Engine σ) (stored : σ) (merge : MergeOperator) (config : Config) :
    Except Error (Database σ × State σ) :=
  match config.isolationLevel with
  | .error e => .error e
  | .ok level =>
    .ok (⟨engine, merge, config.retry, config.lockBackoff⟩, State.initial stored level)

/-- Opens an empty store in memory that merges with `merge`. -/
def openMemoryWith (merge : MergeOperator) (config : Config) :
    Except Error (Database Records × State Records) :=
  openOver (Engine.memory merge.tuple) KeyMap.empty merge config

/-- Opens an empty store in memory. An unknown operator is reported before an unknown level. -/
def openMemory (config : Config) : Except Error (Database Records × State Records) :=
  match config.mergeOperator with
  | .error e => .error e
  | .ok merge => openMemoryWith merge config

end Database

end StampStore
