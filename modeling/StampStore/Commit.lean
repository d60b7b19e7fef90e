-- The commit of one transaction: lock the written keys in key order, choose the
-- commit times, check the reads, write in key order, and give the locks up on
-- every way out. An abort has written nothing; a storage fault among the writes
-- leaves the first ones installed and says how many.
import StampStore.Validation

namespace StampStore

variable {σ : Type}

namespace Engine

/-- Makes one buffered write. -/
def install (engine : Engine σ) (ts : Timestamp) (entry : WriteEntry) (shared : Shared σ) :
    Reply σ Unit :=
  let tuple := entry.tuple.setStamp (Stamp.committedAt ts)
  match entry.op with
  | .insert => engine.insert entry.key tuple.bytes shared
  | .update => engine.update entry.key tuple.bytes shared
  | .delete => engine.delete entry.key shared

/-- Makes buffered writes in order, up to the first error; `done` of them are made already. The
answer is the number made before the error, and the error. -/
def installAll (engine : Engine σ) (ts : Timestamp) :
    List WriteEntry → Nat → Shared σ → Option (Nat × Error) × Shared σ
  | [], _, shared => (none, shared)
  | entry :: entries, done, shared =>
    match engine.install ts entry shared with
    | (.error e, shared) => (some (done, e), shared)
    | (.ok (), shared) => engine.installAll ts entries (done + 1) shared

end Engine

namespace Transaction

/-- Writes everything, once the reads are good. A transaction that writes nothing commits at
the time its reads were checked at. -/
def writeAll (engine : Engine σ) (txn : Transaction) (shared : Shared σ) : Reply σ Outcome :=
  match engine.installAll txn.commitWts txn.writes.entries 0 shared with
  | (some (applied, source), shared) =>
    (.error (.incompleteCommit txn.id applied txn.writes.length source), shared)
  | (none, shared) =>
    let ts := if txn.writes.isEmpty then txn.validationTime else txn.commitWts
    (.ok (.committed ts), shared)

/-- The part of a commit that runs under the locks of the written keys. -/
def underLocks (engine : Engine σ) (txn : Transaction) (shared : Shared σ) :
    Turn (Shared σ) (Except Error Outcome) :=
  match txn.chooseWriteTime engine shared with
  | ⟨.error e, txn, shared⟩ => ⟨.error e, txn, shared⟩
  | ⟨.ok (some conflict), txn, shared⟩ => ⟨.ok (.aborted (.conflict conflict)), txn, shared⟩
  | ⟨.ok none, txn, shared⟩ =>
    match txn.validateReads engine txn.validationTime shared with
    | (.error e, shared) => ⟨.error e, txn, shared⟩
    | (.ok (some conflict), shared) => ⟨.ok (.aborted (.conflict conflict)), txn, shared⟩
    | (.ok none, shared) =>
      match txn.writeAll engine shared with
      | (answer, shared) => ⟨answer, txn, shared⟩

/-- Where a transaction stands after its commit has answered. Only an error that says how far
the writing went counts as partial. -/
def finalStatus : Except Error Outcome → Status
  | .ok (.committed _) => .committed
  | .ok (.aborted reason) => .aborted reason
  | .error (.incompleteCommit _ applied total _) => .partiallyApplied applied total
  | .error _ => .aborted .storageFault

/-- What a commit leaves. -/
structure Committed (σ : Type) where
  answer : Except Failure Outcome
  txn : Transaction
  shared : Shared σ
  /-- The failed attempts to lock the written keys. -/
  lockRetries : Nat

/-- Commits a transaction. While it waits for the locks of its written keys, other owners give
locks up as `rounds` says, one round for each failed attempt; when the rounds are over and a
key is still taken the commit never ends. -/
def commit (engine : Engine σ) (rounds : List LockTable.Releases) (txn : Transaction)
    (shared : Shared σ) : Committed σ :=
  if txn.isActive then
    let ready :=
      { txn with status := .validating, writes := txn.writes.sorted }.chooseReadTime
    let keys := ready.writes.keys
    match LockTable.lockWaiting keys txn.id rounds shared.locks with
    | none => ⟨.error .blocked, txn, shared, 0⟩
    | some (locks, retries) =>
      match ready.underLocks engine { shared with locks } with
      | ⟨answer, decided, shared⟩ =>
        { answer := answer.mapError .error
          txn := decided.finish (finalStatus answer)
          shared := { shared with locks := shared.locks.releaseAll keys txn.id }
          lockRetries := retries }
  else ⟨.error (.error txn.notActive), txn, shared, 0⟩

end Transaction

end StampStore
