-- Where a transaction stands in its life, and how a commit ends.
import StampStore.Conflict

namespace StampStore

/-- A transaction is active, or in the middle of a commit, or finished in one of three ways. -/
inductive Status where
  | active
  | validating
  | committed
  | aborted (reason : AbortReason)
  /-- Storage failed after `applied` of `total` writes, which cannot be taken back. -/
  | partiallyApplied (applied total : Nat)
  deriving DecidableEq, Repr

namespace Status

/-- The short name of the status. -/
def name : Status → String
  | active => "active"
  | validating => "validating"
  | committed => "committed"
  | aborted _ => "aborted"
  | partiallyApplied _ _ => "partially applied"

/-- The status with all its fields. -/
def debug : Status → String
  | active => "Active"
  | validating => "Validating"
  | committed => "Committed"
  | aborted reason => Text.fields "Aborted" [("reason", reason.debug)]
  | partiallyApplied applied total =>
    Text.fields "PartiallyApplied" [("applied", s!"{applied}"), ("total", s!"{total}")]

/-- Whether the transaction can still read and write. -/
def isActive (s : Status) : Bool := s == active

/-- Whether all writes are installed. -/
def isCommitted (s : Status) : Bool := s == committed

/-- Whether the transaction was aborted. -/
def isAborted : Status → Bool
  | aborted _ => true
  | _ => false

/-- Whether the writing stopped on the way. -/
def isPartiallyApplied : Status → Bool
  | partiallyApplied _ _ => true
  | _ => false

end Status

/-- How a commit ends when storage serves it: all writes installed, or none. -/
inductive Outcome where
  | committed (ts : Timestamp)
  | aborted (reason : AbortReason)
  deriving DecidableEq, Repr

namespace Outcome

/-- Whether all writes are installed. -/
def isCommitted : Outcome → Bool
  | committed _ => true
  | aborted _ => false

/-- The time of the commit. -/
def time? : Outcome → Option Timestamp
  | committed ts => some ts
  | aborted _ => none

/-- Why nothing was written. -/
def reason? : Outcome → Option AbortReason
  | committed _ => none
  | aborted reason => some reason

/-- The outcome with all its fields. -/
def debug : Outcome → String
  | committed ts => Text.fields "Committed" [("commit_ts", s!"{ts.toNat}")]
  | aborted reason => Text.wrapped "Aborted" reason.debug

end Outcome

end StampStore
