-- Lifecycle counters: every transaction is counted once when it starts and once
-- when it finishes, by how it ended. The metrics are a snapshot of the counters
-- with sums and a conflict rate.
import StampStore.Status

namespace StampStore

/-- How a transaction ended. -/
inductive Ending where
  | committed (readOnly : Bool)
  | requested
  | conflict
  | storageFault
  | partiallyApplied
  deriving DecidableEq, Repr

/-- The ending an abort counts as. -/
def AbortReason.ending : AbortReason → Ending
  | requested => .requested
  | conflict _ => .conflict
  | storageFault => .storageFault

/-- What is counted. -/
structure Counters where
  started : UInt64
  inFlight : UInt64
  committed : UInt64
  readOnly : UInt64
  requested : UInt64
  conflicts : UInt64
  faults : UInt64
  partially : UInt64
  deriving DecidableEq, Repr

namespace Counters

/-- Nothing has been counted. -/
def zero : Counters := ⟨0, 0, 0, 0, 0, 0, 0, 0⟩

/-- A transaction starts. -/
def start (c : Counters) : Counters :=
  { c with started := c.started + 1, inFlight := c.inFlight + 1 }

/-- One transaction less is in flight; an end without a start does not wrap around. -/
def land (c : Counters) : Counters :=
  if c.inFlight = 0 then c else { c with inFlight := c.inFlight - 1 }

/-- A transaction ends. -/
def finish (c : Counters) (ending : Ending) : Counters :=
  let c := c.land
  match ending with
  | .committed true => { c with committed := c.committed + 1, readOnly := c.readOnly + 1 }
  | .committed false => { c with committed := c.committed + 1 }
  | .requested => { c with requested := c.requested + 1 }
  | .conflict => { c with conflicts := c.conflicts + 1 }
  | .storageFault => { c with faults := c.faults + 1 }
  | .partiallyApplied => { c with partially := c.partially + 1 }

/-- Landing changes no other counter. -/
theorem land_eq (c : Counters) :
    c.land = { c with inFlight := if c.inFlight = 0 then 0 else c.inFlight - 1 } := by
  unfold land
  split
  · rename_i hzero
    rw [← hzero]
  · rfl

/-- An end counts in flight, and under its own cause. -/
theorem finish_eq (c : Counters) (ending : Ending) :
    c.finish ending =
      { c with
        inFlight := if c.inFlight = 0 then 0 else c.inFlight - 1
        committed := if ending = .committed true ∨ ending = .committed false then c.committed + 1
          else c.committed
        readOnly := if ending = .committed true then c.readOnly + 1 else c.readOnly
        requested := if ending = .requested then c.requested + 1 else c.requested
        conflicts := if ending = .conflict then c.conflicts + 1 else c.conflicts
        faults := if ending = .storageFault then c.faults + 1 else c.faults
        partially := if ending = .partiallyApplied then c.partially + 1 else c.partially } := by
  unfold finish
  rw [land_eq]
  rcases ending with (_ | _) | _ | _ | _ | _ <;> rfl

end Counters

/-- A snapshot of the counters. -/
structure Metrics where
  active : UInt64
  started : UInt64
  committed : UInt64
  readOnly : UInt64
  aborted : UInt64
  requested : UInt64
  conflicts : UInt64
  faults : UInt64
  partially : UInt64
  lockRetries : UInt64
  deriving DecidableEq, Repr

/-- The snapshot, with the failed attempts to lock written keys. -/
def Counters.metrics (c : Counters) (lockRetries : UInt64) : Metrics where
  active := c.inFlight
  started := c.started
  committed := c.committed
  readOnly := c.readOnly
  aborted := c.requested + c.conflicts + c.faults
  requested := c.requested
  conflicts := c.conflicts
  faults := c.faults
  partially := c.partially
  lockRetries := lockRetries

namespace Metrics

/-- The transactions that have ended. -/
def completed (m : Metrics) : UInt64 := m.committed + m.aborted + m.partially

/-- The share of ended transactions that a conflict aborted, zero when none has ended. -/
def conflictRate (m : Metrics) : Float :=
  if m.completed = 0 then 0 else m.conflicts.toFloat / m.completed.toFloat

end Metrics

end StampStore
