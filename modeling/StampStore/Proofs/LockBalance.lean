-- The locks of a commit. An engine that leaves the lock table alone may answer each
-- call as it likes: a commit takes free keys at its first attempt and has them locked
-- at every call, and on every way out it has given up what it took, the locks of the
-- written keys and that of each read it was checking.
import StampStore.Proofs.Moments
import StampStore.Proofs.Walks

namespace StampStore

variable {σ : Type}

namespace LockTable

/-- The lock table may change along `R`, also several times, and around such a change `owner` may
lock a free key and give it up again. -/
structure Bracketed (owner : TxnId) (R : LockTable → LockTable → Prop) : Prop where
  refl : ∀ table, R table table
  trans : ∀ {a b c}, R a b → R b c → R a c
  bracket : ∀ {key table after}, table.holder? key = none →
    R ⟨table.owners.insert key owner⟩ after → R table (after.release key owner).2

theorem bracketed_eq (owner : TxnId) : Bracketed owner fun before after => after = before where
  refl _ := rfl
  trans hab hbc := hbc.trans hab
  bracket := by
    rintro key table after hfree rfl
    rw [release_after_acquire hfree]

/-- The keys of `owner` are the same before and after. -/
def SameLocksOf (owner : TxnId) (before after : LockTable) : Prop :=
  ∀ key, after.holder? key = some owner ↔ before.holder? key = some owner

theorem bracketed_sameLocksOf (owner : TxnId) : Bracketed owner (SameLocksOf owner) where
  refl _ _ := Iff.rfl
  trans hab hbc key := (hbc key).trans (hab key)
  bracket := by
    intro key table after hfree h j
    have hj := h j
    rw [holder?_insert] at hj
    rw [holder?_release]
    by_cases hkey : key = j
    · subst hkey
      simp only [if_true, iff_true] at hj
      simp [hj, hfree]
    · simpa [hkey] using hj

end LockTable

/-- Every call that a commit makes moves the lock table along `R`. -/
structure Engine.MovesLocks (engine : Engine σ) (R : LockTable → LockTable → Prop) : Prop where
  lookupRaw : ∀ key shared, R shared.locks (engine.lookupRaw key shared).2.locks
  insert : ∀ key record shared, R shared.locks (engine.insert key record shared).2.locks
  update : ∀ key delta shared, R shared.locks (engine.update key delta shared).2.locks
  delete : ∀ key shared, R shared.locks (engine.delete key shared).2.locks

/-- No call that a commit makes changes the lock table. -/
def Engine.LeavesLocks (engine : Engine σ) : Prop :=
  engine.MovesLocks fun before after => after = before

/-- Whatever others do with the locks while a call is under way, the locks of `owner` stay. -/
def Engine.SparesLocksOf (engine : Engine σ) (owner : TxnId) : Prop :=
  engine.MovesLocks (LockTable.SameLocksOf owner)

theorem Engine.MovesLocks.mono {engine : Engine σ} {R S : LockTable → LockTable → Prop}
    (h : engine.MovesLocks R) (hRS : ∀ {a b}, R a b → S a b) : engine.MovesLocks S where
  lookupRaw key shared := hRS (h.lookupRaw key shared)
  insert key record shared := hRS (h.insert key record shared)
  update key delta shared := hRS (h.update key delta shared)
  delete key shared := hRS (h.delete key shared)

theorem Engine.LeavesLocks.sparesLocksOf {engine : Engine σ} (h : engine.LeavesLocks)
    (owner : TxnId) : engine.SparesLocksOf owner :=
  h.mono fun heq key => by rw [heq]

theorem Engine.MovesLocks.writeWalk {engine : Engine σ} {owner : TxnId}
    {R : LockTable → LockTable → Prop} (h : engine.MovesLocks R)
    (hR : LockTable.Bracketed owner R) :
    engine.WriteWalk owner fun before after => R before.locks after.locks where
  refl shared := hR.refl shared.locks
  trans hab hbc := hR.trans hab hbc
  lookupRaw := h.lookupRaw
  bracket := hR.bracket
  insert := h.insert
  update := h.update
  delete := h.delete

/-- The engine in memory leaves the locks alone. -/
theorem leavesLocks_memory (merge : MergeOperator) : (Engine.memory merge).LeavesLocks where
  lookupRaw _ _ := rfl
  insert _ _ _ := rfl
  update key delta shared := by
    unfold Engine.memory
    simp only
    split <;> rfl
  delete _ _ := rfl

/-! ## The locks while a commit runs -/

/-- `owner` has locked `keys`, and had locked them before each of the calls that have been seen. -/
structure Shared.LockedAlong (owner : TxnId) (keys : List Key) (shared : Shared (Watched σ)) :
    Prop where
  now : ∀ key ∈ keys, shared.locks.holder? key = some owner
  seen : ∀ moment ∈ shared.stored.seen, ∀ key ∈ keys, moment.locks.holder? key = some owner

/-- Watching the calls does not move locks. -/
theorem Engine.MovesLocks.watched {engine : Engine σ} {R : LockTable → LockTable → Prop}
    (h : engine.MovesLocks R) : engine.watched.MovesLocks R where
  lookupRaw key shared := h.lookupRaw key ⟨shared.stored.now, shared.locks⟩
  insert key record shared := h.insert key record ⟨shared.stored.now, shared.locks⟩
  update key delta shared := h.update key delta ⟨shared.stored.now, shared.locks⟩
  delete key shared := h.delete key ⟨shared.stored.now, shared.locks⟩

/-- A call that leaves the locks alone is made under them. -/
theorem Shared.LockedAlong.watch {α : Type} {owner : TxnId} {keys : List Key}
    {call : Shared σ → Reply σ α} {shared : Shared (Watched σ)}
    (h : shared.LockedAlong owner keys)
    (hlocks : (Engine.watch call shared).2.locks = shared.locks) :
    (Engine.watch call shared).2.LockedAlong owner keys where
  now := hlocks ▸ h.now
  seen := List.forall_mem_append.mpr ⟨h.seen, List.forall_mem_singleton.mpr h.now⟩

/-- Locks are only taken for checks of other keys, so those of `keys` stay all along. -/
theorem Engine.LeavesLocks.lockedAlong {engine : Engine σ} (h : engine.LeavesLocks)
    (owner : TxnId) (keys : List Key) :
    engine.watched.WriteWalk owner fun before after =>
      before.LockedAlong owner keys → after.LockedAlong owner keys where
  refl _ h := h
  trans hab hbc h := hbc (hab h)
  lookupRaw key shared hlocked := hlocked.watch (h.watched.lookupRaw key shared)
  bracket := by
    intro key shared after hfree hinner hlocked
    have hother : ∀ j ∈ keys, key ≠ j := by
      rintro j hj rfl
      cases hfree.symm.trans (hlocked.now key hj)
    have hafter := hinner
      { now := fun j hj => by
          rw [LockTable.holder?_insert, if_neg (hother j hj)]
          exact hlocked.now j hj
        seen := hlocked.seen }
    refine ⟨fun j hj => ?_, hafter.seen⟩
    rw [LockTable.holder?_release, if_neg fun hkey => hother j hj hkey.1]
    exact hafter.now j hj
  insert key record shared hlocked := hlocked.watch (h.watched.insert key record shared)
  update key delta shared hlocked := hlocked.watch (h.watched.update key delta shared)
  delete key shared hlocked := hlocked.watch (h.watched.delete key shared)

/-! ## Locked and given up -/

/-- Free keys are locked at the first attempt, the commit runs under the locks, and they are given up
again, whatever it answers. -/
theorem commit_of_free {engine : Engine σ} (hengine : engine.LeavesLocks) {txn : Transaction}
    (hactive : txn.isActive = true) {shared : Shared σ}
    (hfree : ∀ key ∈ txn.writes.sorted.keys, shared.locks.holder? key = none)
    (rounds : List LockTable.Releases) :
    ∃ held, shared.locks.lockAll txn.writes.sorted.keys txn.id = (true, held) ∧
      (∀ key, held.holder? key =
        if key ∈ txn.writes.sorted.keys then some txn.id else shared.locks.holder? key) ∧
      ∃ answer decided after,
        txn.ready.underLocks engine ⟨shared.stored, held⟩ = ⟨answer, decided, after⟩ ∧
        txn.commit engine rounds shared = ⟨answer.mapError .error,
          decided.finish (Transaction.finalStatus answer), ⟨after.stored, shared.locks⟩, 0⟩ := by
  obtain ⟨held, hlock, hrelease, hholder⟩ :=
    LockTable.lockAll_free txn.id txn.writes.sorted.distinct hfree
  have hwait : LockTable.lockWaiting txn.ready.writes.keys txn.id rounds shared.locks =
      some (held, 0) := by
    rw [txn.ready_writes]
    exact LockTable.lockWaiting_of_lockAll rounds hlock
  have hunder := (hengine.writeWalk (LockTable.bracketed_eq txn.ready.id)).underLocks
    txn.ready ⟨shared.stored, held⟩
  rcases hrun : txn.ready.underLocks engine ⟨shared.stored, held⟩ with ⟨answer, decided, after⟩
  rw [hrun] at hunder
  have hcommit := commit_of_locked engine hactive hwait hrun
  have hreleased : after.locks.releaseAll txn.ready.writes.keys txn.id = shared.locks := by
    rw [txn.ready_writes, show after.locks = held from hunder]
    exact hrelease
  rw [hreleased] at hcommit
  exact ⟨held, hlock, hholder, answer, decided, after, hrun, hcommit⟩

theorem commit_unlocked {engine : Engine σ} (hengine : engine.LeavesLocks) {txn : Transaction}
    (hactive : txn.isActive = true) {shared : Shared σ}
    (hfree : ∀ key ∈ txn.writes.sorted.keys, shared.locks.holder? key = none)
    (rounds : List LockTable.Releases) :
    let left := txn.commit engine rounds shared
    left.lockRetries = 0 ∧ (∃ answer : Except Error Outcome, left.answer = answer.mapError .error) ∧
      left.shared.locks = shared.locks := by
  intro left
  obtain ⟨held, -, -, answer, decided, after, -, hcommit⟩ :=
    commit_of_free hengine hactive hfree rounds
  rw [show left = _ from hcommit]
  exact ⟨rfl, ⟨answer, rfl⟩, rfl⟩

/-- The written keys are locked before each storage call of a commit that has found them free. -/
theorem commit_locked_along {engine : Engine σ} (hengine : engine.LeavesLocks) {txn : Transaction}
    (hactive : txn.isActive = true) {shared : Shared σ}
    (hfree : ∀ key ∈ txn.writes.sorted.keys, shared.locks.holder? key = none)
    (rounds : List LockTable.Releases) :
    ∀ moment ∈ (txn.commit engine.watched rounds (shared.since [])).shared.stored.seen,
      ∀ key ∈ txn.writes.sorted.keys, moment.locks.holder? key = some txn.id := by
  have hsince : ∀ key ∈ txn.writes.sorted.keys, (shared.since []).locks.holder? key = none := hfree
  obtain ⟨held, -, hholder, answer, decided, after, hrun, hcommit⟩ :=
    commit_of_free hengine.watched hactive hsince rounds
  have hstart : Shared.LockedAlong txn.ready.id txn.writes.sorted.keys
      ⟨(shared.since []).stored, held⟩ :=
    { now := fun key hkey => by rw [hholder, if_pos hkey, txn.ready_id]
      seen := fun _ hmoment => absurd hmoment List.not_mem_nil }
  have hend := (hengine.lockedAlong txn.ready.id txn.writes.sorted.keys).underLocks
    txn.ready _ hstart
  rw [hrun, txn.ready_id] at hend
  rw [hcommit]
  exact hend.seen

/-- Whatever the calls of an engine answer and store, if they leave the lock table alone: an active
transaction whose written keys are free locks them all at its first attempt, whatever others would
do while it waits. Its commit is what comes of running under these locks, and each of its storage
calls finds them taken. It answers, and leaves the lock table as it was. -/
theorem commit_leaves_lock_table {engine : Engine σ} (hengine : engine.LeavesLocks)
    {txn : Transaction} (hactive : txn.isActive = true) {shared : Shared σ}
    (hfree : ∀ key ∈ txn.writes.keys, shared.locks.holder? key = none)
    (rounds : List LockTable.Releases) :
    let left := txn.commit engine rounds shared
    (∃ held, shared.locks.lockAll txn.writes.sorted.keys txn.id = (true, held) ∧
        (∀ key, held.holder? key =
          if key ∈ txn.writes.keys then some txn.id else shared.locks.holder? key) ∧
        ∃ answer decided after,
          txn.ready.underLocks engine ⟨shared.stored, held⟩ = ⟨answer, decided, after⟩ ∧
          left = ⟨answer.mapError .error, decided.finish (Transaction.finalStatus answer),
            ⟨after.stored, shared.locks⟩, 0⟩) ∧
      (∀ moment ∈ (txn.commit engine.watched rounds (shared.since [])).shared.stored.seen,
        ∀ key ∈ txn.writes.keys, moment.locks.holder? key = some txn.id) ∧
      left.lockRetries = 0 ∧
      (∃ answer : Except Error Outcome, left.answer = answer.mapError .error) ∧
      left.shared.locks = shared.locks := by
  intro left
  have hsorted : ∀ key ∈ txn.writes.sorted.keys, shared.locks.holder? key = none :=
    fun key hkey => hfree key (WriteBuffer.mem_keys_sorted.mp hkey)
  obtain ⟨held, hlock, hholder, hrun⟩ := commit_of_free hengine hactive hsorted rounds
  refine ⟨⟨held, hlock, fun key => ?_, hrun⟩, fun moment hmoment key hkey => ?_,
    commit_unlocked hengine hactive hsorted rounds⟩
  · rw [hholder]
    exact if_congr WriteBuffer.mem_keys_sorted rfl rfl
  · exact commit_locked_along hengine hactive hsorted rounds moment hmoment key
      (WriteBuffer.mem_keys_sorted.mpr hkey)

/-- The first read is locked, checked and given up; the second is busy, and the commit aborts. All
the while the written key is locked, and so is the first read from its second look on. The lock of
the other owner is the only one afterwards, as it was before. -/
theorem busy_read_keeps_its_lock :
    let j : Key := ⟨[106]⟩
    let k : Key := ⟨[107]⟩
    let l : Key := ⟨[108]⟩
    let old := Tuple.make ⟨1, 1⟩ [49]
    let records : Records := ((KeyMap.empty.insert j old.bytes).insert l old.bytes).insert k
      (Tuple.make ⟨4, 4⟩ [50]).bytes
    let locks : LockTable := ⟨KeyMap.empty.insert l 9⟩
    let txn : Transaction := { Transaction.start 3 .serializable with
      reads := ⟨[⟨j, old⟩, ⟨l, old⟩]⟩
      writes := ⟨[⟨k, .insert, Tuple.unstamped [51]⟩], by decide⟩ }
    let engine := Engine.memory MergeOperator.replace.tuple
    let left := txn.commit engine [] ⟨records, locks⟩
    let seen := (txn.commit engine.watched [] (Shared.since ⟨records, locks⟩ [])).shared.stored.seen
    left.answer = .ok (.aborted (.conflict (.busy l))) ∧
      left.shared.stored.stamp? j = some ⟨1, 5⟩ ∧
      (∃ held, held.holder? k = some 3 ∧ held.holder? l = some 9 ∧
        ∃ answer decided after,
          txn.ready.underLocks engine ⟨records, held⟩ = ⟨answer, decided, after⟩ ∧
          left = ⟨answer.mapError .error, decided.finish (Transaction.finalStatus answer),
            ⟨after.stored, locks⟩, 0⟩) ∧
      (∀ moment ∈ seen, moment.locks.holder? k = some 3) ∧
      seen.map (fun moment => [j, k, l].map moment.locks.holder?) =
        [[none, some 3, some 9], [none, some 3, some 9], [some 3, some 3, some 9],
          [some 3, some 3, some 9], [none, some 3, some 9]] ∧
      left.lockRetries = 0 ∧ left.shared.locks = locks := by
  intro j k l old records locks txn engine left seen
  obtain ⟨⟨held, -, hholder, hrun⟩, hseen, hretries, -, hlocks⟩ :=
    @commit_leaves_lock_table Records engine (leavesLocks_memory MergeOperator.replace.tuple) txn
      rfl ⟨records, locks⟩ (by decide +kernel) []
  have hk : k ∈ txn.writes.keys := by decide
  have hl : l ∉ txn.writes.keys := by decide
  exact ⟨by decide +kernel, by decide +kernel,
    ⟨held, (hholder k).trans (if_pos hk), (hholder l).trans (if_neg hl), hrun⟩,
    fun moment hmoment => hseen moment hmoment k hk, by decide +kernel, hretries, hlocks⟩

end StampStore
