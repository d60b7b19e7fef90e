-- Choosing the times of a commit and checking its reads at them. A read that was
-- known to be good up to the commit time needs no check. Any other is good if
-- its key still has the write time that was read; where the level allows it, the
-- stored read time is raised so that it stays good.
import StampStore.Transaction

namespace StampStore

variable {σ : Type}

/-! ## Commit times -/

namespace Transaction

/-- The times a commit starts from: the latest write time it has read, taken over as its
write time too where the level ties the two. -/
def chooseReadTime (txn : Transaction) : Transaction :=
  let rts := txn.reads.maxWts
  if txn.isolation.collapses then
    { txn with commitRts := max rts txn.commitWts, commitWts := max rts txn.commitWts }
  else { txn with commitRts := rts }

/-- The time at which the reads have to be good. -/
def validationTime (txn : Transaction) : Timestamp :=
  if txn.isolation.validatesAtReadTime then txn.commitRts else txn.commitWts

end Transaction

/-- The least time that is not before `ts` and is after every read time under `keys`. -/
def Engine.timeAfter (engine : Engine σ) :
    List Key → Timestamp → Shared σ → Reply σ (Except Conflict Timestamp)
  | [], ts, shared => (.ok (.ok ts), shared)
  | key :: keys, ts, shared =>
    match engine.fetchStamp key shared with
    | (.error e, shared) => (.error e, shared)
    | (.ok stamp, shared) =>
      match (stamp.getD Stamp.zero).rts.next? with
      | none => (.ok (.error (.exhausted key)), shared)
      | some next => engine.timeAfter keys (max ts next) shared

/-- Moves the write time of a commit past every read time of the keys it writes. On a conflict
or an error the transaction stays as it is. -/
def Transaction.chooseWriteTime (engine : Engine σ) (txn : Transaction) (shared : Shared σ) :
    Turn (Shared σ) (Except Error (Option Conflict)) :=
  match engine.timeAfter txn.writes.keys txn.commitWts shared with
  | (.error e, shared) => ⟨.error e, txn, shared⟩
  | (.ok (.error conflict), shared) => ⟨.ok (some conflict), txn, shared⟩
  | (.ok (.ok ts), shared) => ⟨.ok none, { txn with commitWts := ts }, shared⟩

/-! ## Reads -/

namespace ReadEntry

/-- The conflict of a read with the stamp now under its key; an absent key has write time
zero. -/
def conflictWith? (entry : ReadEntry) (current : Option Stamp) : Option Conflict :=
  let now := (current.getD Stamp.zero).wts
  if entry.tuple.stamp.wts = now then none
  else some (.mismatch entry.key entry.tuple.stamp.wts now)

end ReadEntry

namespace Engine

/-- Raises the stored read time of `key` to `ts` if it is present and earlier. -/
def extendRts (engine : Engine σ) (key : Key) (ts : Timestamp) (current : Option Stamp)
    (shared : Shared σ) : Reply σ Unit :=
  match current with
  | none => (.ok (), shared)
  | some stamp =>
    if stamp.rts < ts then engine.update key ts.encode shared else (.ok (), shared)

/-- The last part of a check, under the key's lock. A key locked only now is looked at again,
since it may have changed in between. -/
def checkLocked (engine : Engine σ) (ts : Timestamp) (extend : Bool) (entry : ReadEntry)
    (lockedNow : Bool) (current : Option Stamp) (shared : Shared σ) :
    Reply σ (Option Conflict) :=
  if lockedNow then
    match engine.fetchStamp entry.key shared with
    | (.error e, shared) => (.error e, shared)
    | (.ok current, shared) =>
      match entry.conflictWith? current with
      | some conflict => (.ok (some conflict), shared)
      | none => close current shared
  else close current shared
where
  /-- Keeps the read good up to `ts` where the level allows it. -/
  close (current : Option Stamp) (shared : Shared σ) : Reply σ (Option Conflict) :=
    if extend then
      match engine.extendRts entry.key ts current shared with
      | (.error e, shared) => (.error e, shared)
      | (.ok (), shared) => (.ok none, shared)
    else (.ok none, shared)

/-- Checks one read at `ts` for the transaction `owner`. A lock taken for the check is given
up whatever the check finds. -/
def checkRead (engine : Engine σ) (owner : TxnId) (ts : Timestamp) (extend : Bool)
    (entry : ReadEntry) (shared : Shared σ) : Reply σ (Option Conflict) :=
  if ts ≤ entry.tuple.stamp.rts then (.ok none, shared)
  else
    match engine.fetchStamp entry.key shared with
    | (.error e, shared) => (.error e, shared)
    | (.ok current, shared) =>
      match entry.conflictWith? current with
      | some conflict => (.ok (some conflict), shared)
      | none =>
        match shared.locks.tryAcquire entry.key owner with
        | (.busy, _) => (.ok (some (.busy entry.key)), shared)
        | (.deadlock, _) => engine.checkLocked ts extend entry false current shared
        | (.acquired, locks) =>
          match engine.checkLocked ts extend entry true current { shared with locks } with
          | (answer, shared) =>
            (answer, { shared with locks := (shared.locks.release entry.key owner).2 })

/-- Checks reads in order, up to the first conflict or error. -/
def checkReads (engine : Engine σ) (owner : TxnId) (ts : Timestamp) (extend : Bool) :
    List ReadEntry → Shared σ → Reply σ (Option Conflict)
  | [], shared => (.ok none, shared)
  | entry :: entries, shared =>
    match engine.checkRead owner ts extend entry shared with
    | (.error e, shared) => (.error e, shared)
    | (.ok (some conflict), shared) => (.ok (some conflict), shared)
    | (.ok none, shared) => engine.checkReads owner ts extend entries shared

end Engine

/-- Checks all reads of a transaction at `ts`. -/
def Transaction.validateReads (engine : Engine σ) (txn : Transaction) (ts : Timestamp)
    (shared : Shared σ) : Reply σ (Option Conflict) :=
  engine.checkReads txn.id ts txn.isolation.extendsReads txn.reads.entries shared

end StampStore
