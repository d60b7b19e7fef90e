-- Work that runs in a transaction of its own: the work is run, the transaction
-- committed, and all of it run again from scratch while the retry policy asks
-- for that. Work that fails has its transaction aborted.
import StampStore.Database

namespace StampStore

/-- What one run of some work leaves: its answer, its transaction, the store, and whatever the
work keeps for itself from run to run. -/
structure Run (σ ρ α : Type) where
  answer : Except Failure α
  txn : Transaction
  state : State σ
  kept : ρ

/-- Work for a transaction: anything that may be done with it and with the store. -/
abbrev Work (σ ρ α : Type) := Transaction → State σ → ρ → Run σ ρ α

/-- What running some work to its end leaves. -/
structure Finished (σ ρ α : Type) where
  answer : Except Failure α
  state : State σ
  kept : ρ

namespace Database

variable {σ ρ α : Type}

/-- Runs the work in a new transaction and commits it. A conflict comes back as the reason of
the abort; every other end is final. -/
def runOnce (db : Database σ) (work : Work σ ρ α) (state : State σ) (kept : ρ) :
    Finished σ ρ (Except AbortReason α) :=
  match state.begin with
  | (txn, state) =>
    match work txn state kept with
    | ⟨.error (.error e), txn, state, kept⟩ =>
      ⟨.error (.error e), (state.abort txn).2, kept⟩
    | ⟨.error failure, _, state, kept⟩ => ⟨.error failure, state, kept⟩
    | ⟨.ok value, txn, state, kept⟩ =>
      match db.commit [] txn state with
      | ⟨.error failure, _, state⟩ => ⟨.error failure, state, kept⟩
      | ⟨.ok (.committed _), _, state⟩ => ⟨.ok (.ok value), state, kept⟩
      | ⟨.ok (.aborted reason), _, state⟩ => ⟨.ok (.error reason), state, kept⟩

/-- Runs the work until it commits or fails, or cannot be run again; `left` more runs are
allowed after the next, and `runs` are behind. -/
def runRetrying (db : Database σ) (work : Work σ ρ α) (left runs : Nat) (state : State σ)
    (kept : ρ) : Finished σ ρ α :=
  match db.runOnce work state kept with
  | ⟨.error failure, state, kept⟩ => ⟨.error failure, state, kept⟩
  | ⟨.ok (.ok value), state, kept⟩ => ⟨.ok value, state, kept⟩
  | ⟨.ok (.error reason), state, kept⟩ =>
    match left with
    | 0 => ⟨.error (.error (.givenUp (.afterRuns reason (runs + 1)))), state, kept⟩
    | left + 1 =>
      if reason.isRetryable then db.runRetrying work left (runs + 1) state kept
      else ⟨.error (.error (.givenUp (.afterRuns reason (runs + 1)))), state, kept⟩
termination_by structural left

/-- Runs the work in a transaction under a retry policy. -/
def transactionWith (db : Database σ) (policy : RetryPolicy) (work : Work σ ρ α)
    (state : State σ) (kept : ρ) : Finished σ ρ α :=
  db.runRetrying work policy.maxRetries.toNat 0 state kept

/-- Runs the work in a transaction under the store's own retry policy. -/
def transaction (db : Database σ) (work : Work σ ρ α) (state : State σ) (kept : ρ) :
    Finished σ ρ α :=
  db.transactionWith db.retry work state kept

end Database

end StampStore
