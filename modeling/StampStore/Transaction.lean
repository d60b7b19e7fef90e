-- Transactions before their commit. A read sees the transaction's own writes and
-- notes the stored tuple it saw; a write is checked and buffered, later writes
-- to a key folding into the first. A call that fails changes nothing.
import StampStore.Access
import StampStore.Engine
import StampStore.Isolation

namespace StampStore

/-- A transaction: what it has read and buffered, and where it stands. -/
structure Transaction where
  id : TxnId
  isolation : Isolation
  reads : ReadLog
  writes : WriteBuffer
  /-- The time its writes are stamped with, zero before the commit. -/
  commitWts : Timestamp
  /-- The latest write time it has read, zero before the commit. -/
  commitRts : Timestamp
  status : Status
  deriving DecidableEq

/-- What a call on one transaction leaves: its answer, the transaction, and the rest of what
the call may change. -/
structure Turn (ω α : Type) where
  answer : α
  txn : Transaction
  after : ω

/-- The name of the level in diagnosis. -/
def Isolation.debug : Isolation → String
  | .serializable => "Serializable"
  | .snapshot => "SnapshotIsolation"
  | .repeatableRead => "RepeatableRead"

namespace Transaction

variable {σ : Type}

/-- A transaction that has done nothing yet. -/
def start (id : TxnId) (isolation : Isolation) : Transaction :=
  ⟨id, isolation, ReadLog.empty, WriteBuffer.empty, 0, 0, .active⟩

/-- Whether the transaction can still read and write. -/
def isActive (txn : Transaction) : Bool := txn.status.isActive

/-- The error of a call on a transaction that is not active. -/
def notActive (txn : Transaction) : Error := .notActive txn.id txn.status.name

/-- Nothing for an active transaction, and an error for any other. -/
def ensureActive (txn : Transaction) : Except Error Unit :=
  if txn.isActive then .ok () else .error txn.notActive

/-- The transaction in short. -/
def debug (txn : Transaction) : String :=
  Text.fields "Transaction"
    [("txn_id", s!"{txn.id.toNat}"), ("isolation", txn.isolation.debug),
      ("status", txn.status.debug), ("reads", s!"{txn.reads.length}"),
      ("writes", s!"{txn.writes.length}")]

/-! ## Reading -/

/-- Notes that `tuple` was read under `key`. -/
def noteRead (txn : Transaction) (key : Key) (tuple : Tuple) : Transaction :=
  { txn with reads := txn.reads.push key tuple }

/-- The value with the delta applied that the transaction has buffered for it. -/
def withPending (merge : MergeOperator) (key : Key) (value : Bytes) :
    Option Bytes → Except Error Bytes
  | none => .ok value
  | some delta => merge.apply key (some value) delta

/-- Reads a key that the transaction has given a full value. The note carries that value under
the stamp now in storage, so that validation checks the stored record. -/
def readOwn (engine : Engine σ) (txn : Transaction) (key : Key) (own : Tuple)
    (shared : Shared σ) : Turn (Shared σ) (Except Error (Option Bytes)) :=
  match engine.fetchStamp key shared with
  | (.error e, shared) => ⟨.error e, txn, shared⟩
  | (.ok stamp, shared) =>
    ⟨.ok (some own.value), txn.noteRead key (own.setStamp (stamp.getD Stamp.zero)), shared⟩

/-- Reads a key from storage and applies the delta that is pending for it. The note carries
the stored tuple; a key that is not found leaves no note. -/
def readStored (engine : Engine σ) (merge : MergeOperator) (txn : Transaction) (key : Key)
    (pending : Option Bytes) (shared : Shared σ) :
    Turn (Shared σ) (Except Error (Option Bytes)) :=
  match engine.lookup key shared with
  | (.error e, shared) => ⟨.error e, txn, shared⟩
  | (.ok none, shared) =>
    match pending with
    | none => ⟨.ok none, txn, shared⟩
    | some delta => ⟨(merge.apply key none delta).map some, txn, shared⟩
  | (.ok (some record), shared) =>
    match Tuple.ofRecord key record with
    | .error e => ⟨.error e, txn, shared⟩
    | .ok tuple =>
      match withPending merge key tuple.value pending with
      | .error e => ⟨.error e, txn, shared⟩
      | .ok value => ⟨.ok (some value), txn.noteRead key tuple, shared⟩

/-- The value of `key` as the transaction sees it. -/
def read (engine : Engine σ) (merge : MergeOperator) (txn : Transaction) (key : Key)
    (shared : Shared σ) : Turn (Shared σ) (Except Error (Option Bytes)) :=
  if txn.isActive then
    match txn.writes.find? key with
    | none => txn.readStored engine merge key none shared
    | some entry =>
      match entry.op with
      | .insert => txn.readOwn engine key entry.tuple shared
      | .update => txn.readStored engine merge key (some entry.tuple.value) shared
      | .delete => ⟨.ok none, txn, shared⟩
  else ⟨.error txn.notActive, txn, shared⟩

/-! ## Writing -/

/-- Whether the operator can merge what the message carries; a removal carries nothing. -/
def checkPayload (merge : MergeOperator) (key : Key) : Message → Except Error Unit
  | .insert value => merge.validate key value
  | .update delta => merge.validate key delta
  | .delete => .ok ()

/-- What the entry of a key does once a delta is folded into it. -/
def foldDelta (merge : MergeOperator) (txn : Transaction) (entry : WriteEntry) (delta : Bytes) :
    Except Failure (WriteOp × Tuple) :=
  match entry.op with
  | .insert =>
    match merge.apply entry.key (some entry.tuple.value) delta with
    | .error e => .error (.error e)
    | .ok value => .ok (.insert, entry.tuple.setValue value)
  | .update =>
    match merge.combine entry.key entry.tuple.value delta with
    | .error e => .error (.error e)
    | .ok value => .ok (.update, entry.tuple.setValue value)
  | .delete => .error (.misuse (.updateAfterDelete entry.key txn.id))

/-- What the entry of a key does once a message is folded into it. -/
def foldMessage (merge : MergeOperator) (txn : Transaction) (entry : WriteEntry) :
    Message → Except Failure (WriteOp × Tuple)
  | .insert value => .ok (.insert, Tuple.unstamped value)
  | .update delta => txn.foldDelta merge entry delta
  | .delete => .ok (.delete, Tuple.unstamped [])

/-- Folds a message into the entry of its key, or adds one. -/
def bufferMessage (merge : MergeOperator) (txn : Transaction) (key : Key) (message : Message) :
    Except Failure WriteBuffer :=
  match txn.writes.find? key with
  | none =>
    match txn.writes.insert ⟨key, message.op, Tuple.unstamped message.payload⟩ with
    | .error m => .error (.misuse m)
    | .ok writes => .ok writes
  | some entry =>
    match txn.foldMessage merge entry message with
    | .error failure => .error failure
    | .ok (op, tuple) => .ok (txn.writes.set key op tuple)

/-- Buffers a write. -/
def write (merge : MergeOperator) (txn : Transaction) (key : Key) (message : Message) :
    Except Failure Transaction :=
  if txn.isActive then
    match checkPayload merge key message with
    | .error e => .error (.error e)
    | .ok () =>
      match txn.bufferMessage merge key message with
      | .error failure => .error failure
      | .ok writes => .ok { txn with writes }
  else .error (.error txn.notActive)

/-! ## The end of a transaction -/

/-- A finished transaction has dropped its reads and writes. -/
def finish (txn : Transaction) (status : Status) : Transaction :=
  { txn with status, reads := ReadLog.empty, writes := WriteBuffer.empty }

/-- Aborts an active transaction as asked for; a finished one stays as it is. -/
def abort (txn : Transaction) : Transaction :=
  if txn.isActive then txn.finish (.aborted .requested) else txn

end Transaction

end StampStore
