-- Storage engines: one record per key and five calls, each on a single key. An
-- engine is a state machine; its calls see the lock table as well, since an
-- engine may be shared with somebody who locks and unlocks keys. An engine can be
-- made to keep a log of its calls.
import StampStore.Merge
import StampStore.Locks

namespace StampStore

/-- What the transactions of a store share: the engine's state and the lock table. -/
structure Shared (σ : Type) where
  stored : σ
  locks : LockTable

/-- What a call leaves: its answer, and what is shared afterwards. -/
abbrev Reply (σ α : Type) := Except Error α × Shared σ

/-- A storage engine with states `σ`. -/
structure Engine (σ : Type) where
  /-- The record under a key. -/
  lookup : Key → Shared σ → Reply σ (Option Bytes)
  /-- The record under a key, asked for because of its stamp. -/
  lookupRaw : Key → Shared σ → Reply σ (Option Bytes)
  /-- Stores a record. -/
  insert : Key → Bytes → Shared σ → Reply σ Unit
  /-- Merges a delta into the record under a key. -/
  update : Key → Bytes → Shared σ → Reply σ Unit
  /-- Removes a key; an absent key is no error. -/
  delete : Key → Shared σ → Reply σ Unit

namespace Engine

variable {σ : Type}

/-- The stamp under `key`, or nothing when the key is absent. -/
def fetchStamp (engine : Engine σ) (key : Key) (shared : Shared σ) : Reply σ (Option Stamp) :=
  match engine.lookupRaw key shared with
  | (.error e, shared) => (.error e, shared)
  | (.ok none, shared) => (.ok none, shared)
  | (.ok (some record), shared) =>
    ((Tuple.ofRecord key record).map fun t => some t.stamp, shared)

/-- The value under `key`, outside of any transaction. -/
def fetchValue (engine : Engine σ) (key : Key) (shared : Shared σ) : Reply σ (Option Bytes) :=
  match engine.lookup key shared with
  | (.error e, shared) => (.error e, shared)
  | (.ok none, shared) => (.ok none, shared)
  | (.ok (some record), shared) =>
    ((Tuple.ofRecord key record).map fun t => some t.value, shared)

end Engine

/-! ## Records in memory -/

/-- The records of a store, by key. -/
abbrev Records := KeyMap Bytes

namespace Records

/-- Merges a delta into the record under `key`; a refused merge changes nothing. -/
def update (merge : MergeOperator) (key : Key) (delta : Bytes) (records : Records) :
    Except Error Records :=
  match merge.apply key (records.get? key) delta with
  | .error e => .error e
  | .ok record => .ok (records.insert key record)

/-- A store in memory with the number of its keys and the name of its operator. -/
def debug (merge : MergeOperator) (records : Records) : String :=
  Text.fields "MemoryStore"
    [("keys", s!"{records.size}"), ("merge", Text.quoted merge.name.toList)]

end Records

/-- The engine that keeps its records in memory and merges with `merge`. -/
def Engine.memory (merge : MergeOperator) : Engine Records where
  lookup key shared := (.ok (shared.stored.get? key), shared)
  lookupRaw key shared := (.ok (shared.stored.get? key), shared)
  insert key record shared :=
    (.ok (), { shared with stored := shared.stored.insert key record })
  update key delta shared :=
    match Records.update merge key delta shared.stored with
    | .error e => (.error e, shared)
    | .ok records => (.ok (), { shared with stored := records })
  delete key shared := (.ok (), { shared with stored := shared.stored.erase key })

/-! ## Logged calls -/

/-- The five calls of an engine. -/
inductive Method where
  | lookup
  | lookupRaw
  | insert
  | update
  | delete
  deriving DecidableEq, Repr

/-- One call of an engine. -/
structure Event where
  method : Method
  key : Key
  /-- The record or delta the call carries. -/
  payload : Option Bytes
  /-- The owner of the key's lock at the moment of the call. -/
  holder : Option TxnId
  /-- The record that was found, or the error. -/
  answer : Except Error (Option Bytes)

/-- The state of an engine together with the log of its calls, oldest first. -/
structure Recorded (σ : Type) where
  stored : σ
  log : List Event

namespace Engine

variable {σ α : Type}

/-- Makes one call of the recorded engine and adds it to the log. -/
def record (method : Method) (key : Key) (payload : Option Bytes) (found : α → Option Bytes)
    (call : Shared σ → Reply σ α) (shared : Shared (Recorded σ)) : Reply (Recorded σ) α :=
  match call ⟨shared.stored.stored, shared.locks⟩ with
  | (answer, after) =>
    let event := ⟨method, key, payload, shared.locks.holder? key, answer.map found⟩
    (answer, ⟨⟨after.stored, shared.stored.log ++ [event]⟩, after.locks⟩)

/-- The engine with its calls logged. -/
def recorded (engine : Engine σ) : Engine (Recorded σ) where
  lookup key := record .lookup key none id (engine.lookup key)
  lookupRaw key := record .lookupRaw key none id (engine.lookupRaw key)
  insert key bytes := record .insert key (some bytes) (fun _ => none) (engine.insert key bytes)
  update key delta := record .update key (some delta) (fun _ => none) (engine.update key delta)
  delete key := record .delete key none (fun _ => none) (engine.delete key)

end Engine

end StampStore
