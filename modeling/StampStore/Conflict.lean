-- What can go wrong with a commit that storage itself serves without fault: the
-- conflicts validation finds, and the reasons a transaction is aborted for.
import StampStore.Stamp
import StampStore.Key

namespace StampStore

/-- A conflict that stops a commit. -/
inductive Conflict where
  /-- The key was read at one write time and is stored at another. -/
  | mismatch (key : Key) (read current : Timestamp)
  /-- The key was read and another transaction holds its lock. -/
  | busy (key : Key)
  /-- The key is to be written and there is no time after its read time. -/
  | exhausted (key : Key)
  deriving DecidableEq, Repr

namespace Conflict

/-- The key in conflict. -/
def key : Conflict → Key
  | mismatch key _ _ => key
  | busy key => key
  | exhausted key => key

/-- The conflict in words. -/
def message : Conflict → String
  | mismatch key read current =>
    s!"write timestamp of {key.display} changed from {read.toNat} to {current.toNat}"
  | busy key => s!"{key.display} is locked by another transaction"
  | exhausted key => s!"timestamps of {key.display} are exhausted"

/-- The conflict with all its fields. -/
def debug : Conflict → String
  | mismatch key read current =>
    Text.fields "WriteTimestampMismatch"
      [("key", key.debug), ("read_wts", s!"{read.toNat}"), ("current_wts", s!"{current.toNat}")]
  | busy key => Text.fields "LockBusy" [("key", key.debug)]
  | exhausted key => Text.fields "TimestampExhausted" [("key", key.debug)]

end Conflict

/-- What a check found. Checks stop at the first conflict, so they report one at most. -/
structure Validation where
  conflicts : List Conflict
  deriving DecidableEq, Repr

namespace Validation

/-- The report of a check that stopped at `found`. -/
def stoppedAt (found : Option Conflict) : Validation := ⟨found.toList⟩

/-- Whether nothing was found. -/
def isValid (v : Validation) : Bool := v.conflicts.isEmpty

/-- The number of conflicts found. -/
def count (v : Validation) : Nat := v.conflicts.length

/-- The conflict found first. -/
def first? (v : Validation) : Option Conflict := v.conflicts.head?

theorem isValid_stoppedAt (found : Option Conflict) :
    (stoppedAt found).isValid = found.isNone := by
  cases found <;> rfl

end Validation

/-- Why a transaction was aborted. -/
inductive AbortReason where
  /-- The application asked for it. -/
  | requested
  /-- Validation found a conflict. -/
  | conflict (found : Conflict)
  /-- Storage failed before anything was written. -/
  | storageFault
  deriving DecidableEq, Repr

namespace AbortReason

/-- The reason in words. -/
def message : AbortReason → String
  | requested => "abort requested"
  | conflict found => s!"conflict: {found.message}"
  | storageFault => "storage fault during commit"

/-- The reason with all its fields. -/
def debug : AbortReason → String
  | requested => "Requested"
  | conflict found => Text.wrapped "Conflict" found.debug
  | storageFault => "StorageFault"

/-- Whether the same work may succeed when it is run again: a key that has run out of
timestamps stays so, and an abort that was asked for is final. -/
def isRetryable : AbortReason → Bool
  | requested => false
  | conflict (.mismatch _ _ _) => true
  | conflict (.busy _) => true
  | conflict (.exhausted _) => false
  | storageFault => false

end AbortReason

end StampStore
