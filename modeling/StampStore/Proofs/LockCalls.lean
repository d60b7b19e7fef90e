-- Calls on a lock table, by any owners and in any order. A lock goes only when its
-- owner gives the key up by name. Several keys are locked together or not at all, and
-- a call that fails gives up what it took and nothing else.
import StampStore.Proofs.Locking

namespace StampStore

/-! ## Calls -/

/-- A call on a lock table. -/
inductive LockCall where
  | tryAcquire (key : Key) (owner : TxnId)
  | release (key : Key) (owner : TxnId)
  | lockAll (keys : List Key) (owner : TxnId)
  | releaseAll (keys : List Key) (owner : TxnId)
  deriving DecidableEq

/-- The call is one by `owner` to give keys up, and it names `key`. -/
inductive LockCall.GivesUp (key : Key) (owner : TxnId) : LockCall → Prop where
  | release : GivesUp key owner (.release key owner)
  | releaseAll {keys : List Key} (hkey : key ∈ keys) : GivesUp key owner (.releaseAll keys owner)

namespace LockTable

/-- The table after one call. -/
def step (table : LockTable) : LockCall → LockTable
  | .tryAcquire key owner => (table.tryAcquire key owner).2
  | .release key owner => (table.release key owner).2
  | .lockAll keys owner => (table.lockAll keys owner).2
  | .releaseAll keys owner => table.releaseAll keys owner

/-- The table after calls, one after another. -/
def run (table : LockTable) (calls : List LockCall) : LockTable := calls.foldl step table

/-! ## All keys or none -/

section LockAll

variable {table held : LockTable} {keys taken : List Key} {owner : TxnId}

/-- What is taken on the way is given up again when a key cannot be locked. -/
theorem lockRest_fails (h : (lockRest owner taken keys table).1 = false) :
    (lockRest owner taken keys table).2 = table.releaseAll taken owner := by
  induction keys generalizing taken table with
  | nil => cases h
  | cons key keys ih =>
    cases hholder : table.holder? key with
    | some holder => rw [lockRest_cons_held hholder]
    | none =>
      rw [lockRest_cons_free hholder] at h ⊢
      rw [ih h]
      -- the key was free before, so the table without it is the table from before
      apply ext_holder?
      intro j
      rw [holder?_releaseAll, holder?_releaseAll, holder?_insert]
      by_cases hj : key = j
      · subst hj
        simp [hholder]
      · simp [hj, Ne.symm hj]

theorem nodup_of_lockRest (h : (lockRest owner taken keys table).1 = true) :
    keys.Nodup ∧ ∀ key ∈ keys, table.holder? key = none := by
  induction keys generalizing taken table with
  | nil => exact ⟨List.nodup_nil, fun _ hkey => absurd hkey List.not_mem_nil⟩
  | cons key keys ih =>
    cases hholder : table.holder? key with
    | some holder =>
      rw [lockRest_cons_held hholder] at h
      cases h
    | none =>
      rw [lockRest_cons_free hholder] at h
      obtain ⟨hnodup, hfree⟩ := ih h
      have hother : ∀ j ∈ keys, key ≠ j ∧ table.holder? j = none := by
        intro j hj
        have := hfree j hj
        rw [holder?_insert] at this
        split at this
        · cases this
        · exact ⟨‹_›, this⟩
      refine ⟨List.nodup_cons.mpr ⟨fun hkey => (hother key hkey).1 rfl, hnodup⟩, ?_⟩
      intro j hj
      rcases List.mem_cons.mp hj with rfl | hj
      · exact hholder
      · exact (hother j hj).2

/-- Keys are locked exactly when each is named once and all are free. -/
theorem lockAll_eq_true_iff :
    (table.lockAll keys owner).1 = true ↔
      keys.Nodup ∧ ∀ key ∈ keys, table.holder? key = none := by
  refine ⟨nodup_of_lockRest, ?_⟩
  rintro ⟨hnodup, hfree⟩
  obtain ⟨held, hlock, -, -⟩ := lockAll_free owner hnodup hfree
  rw [hlock]

theorem lockAll_fails (h : table.lockAll keys owner = (false, held)) : held = table := by
  have hfail : (table.lockAll keys owner).1 = false := congrArg Prod.fst h
  have hleft : (table.lockAll keys owner).2 = table := lockRest_fails hfail
  rw [h] at hleft
  exact hleft

theorem lockAll_locks (h : table.lockAll keys owner = (true, held)) :
    (∀ key, held.holder? key = if key ∈ keys then some owner else table.holder? key) ∧
      held.releaseAll keys owner = table := by
  obtain ⟨hnodup, hfree⟩ := lockAll_eq_true_iff.mp (congrArg Prod.fst h)
  obtain ⟨held', hlock, hrelease, hholder⟩ := lockAll_free owner hnodup hfree
  cases h.symm.trans hlock
  exact ⟨hholder, hrelease⟩

end LockAll

/-! ## One call after another -/

section Calls

variable {table : LockTable} {key : Key} {owner : TxnId} {call : LockCall}

theorem holder?_tryAcquire (h : table.holder? key = some owner) (k : Key) (caller : TxnId) :
    (table.tryAcquire k caller).2.holder? key = some owner := by
  cases hk : table.holder? k with
  | none =>
    have hne : k ≠ key := by
      rintro rfl
      rw [hk] at h
      cases h
    rw [tryAcquire_free hk, holder?_insert, if_neg hne, h]
  | some holder =>
    by_cases hown : holder = caller
    · rw [tryAcquire_own (hown ▸ hk), h]
    · rw [tryAcquire_taken hk hown, h]

theorem holder?_lockAll (h : table.holder? key = some owner) (keys : List Key) (caller : TxnId) :
    (table.lockAll keys caller).2.holder? key = some owner := by
  rcases hlock : table.lockAll keys caller with ⟨_ | _, held⟩
  · rw [lockAll_fails hlock, h]
  · have hfree := (lockAll_eq_true_iff.mp (congrArg Prod.fst hlock)).2
    have hkey : key ∉ keys := by
      intro hkey
      rw [hfree key hkey] at h
      cases h
    rw [(lockAll_locks hlock).1, if_neg hkey, h]

/-- A call that gives up a lock is one of its owner that names the key, and then the key is free. -/
theorem holder?_step (h : table.holder? key = some owner) (call : LockCall) :
    ((table.step call).holder? key = none ∧ call.GivesUp key owner) ∨
      ((table.step call).holder? key = some owner ∧ ¬ call.GivesUp key owner) := by
  cases call with
  | tryAcquire k caller => exact Or.inr ⟨holder?_tryAcquire h k caller, nofun⟩
  | lockAll keys caller => exact Or.inr ⟨holder?_lockAll h keys caller, nofun⟩
  | release k caller =>
    simp only [step, holder?_release, h, Option.some.injEq]
    by_cases hcall : k = key ∧ owner = caller
    · obtain ⟨rfl, rfl⟩ := hcall
      exact Or.inl ⟨if_pos ⟨rfl, rfl⟩, .release⟩
    · refine Or.inr ⟨if_neg hcall, ?_⟩
      rintro ⟨⟩
      exact hcall ⟨rfl, rfl⟩
  | releaseAll keys caller =>
    simp only [step, holder?_releaseAll, h, Option.some.injEq]
    by_cases hcall : key ∈ keys ∧ owner = caller
    · obtain ⟨hkey, rfl⟩ := hcall
      exact Or.inl ⟨if_pos ⟨hkey, rfl⟩, .releaseAll hkey⟩
    · refine Or.inr ⟨if_neg hcall, ?_⟩
      rintro ⟨⟩
      exact hcall ⟨‹_›, rfl⟩

/-- Among calls that end a lock there is one that gives it up. -/
theorem exists_givesUp (h : table.holder? key = some owner) {calls : List LockCall}
    (hgone : (table.run calls).holder? key ≠ some owner) :
    ∃ call ∈ calls, call.GivesUp key owner := by
  induction calls generalizing table with
  | nil => exact absurd h hgone
  | cons call calls ih =>
    rcases holder?_step h call with ⟨-, hgives⟩ | ⟨hheld, -⟩
    · exact ⟨call, List.mem_cons_self, hgives⟩
    · obtain ⟨other, hother, hgives⟩ := ih hheld hgone
      exact ⟨other, List.mem_cons_of_mem call hother, hgives⟩

end Calls

end LockTable

/-- A lock table after any calls. A key that is held stays with its holder until a call of that holder
gives it up by name, and such a call frees it. Keys are locked together exactly when each is named
once and all are free. Then the caller holds these keys, all others are as they were, and to give them
up again restores the table. If one of them cannot be locked, the table stays as it is, with the locks
that the caller held before. -/
theorem locks_stay_until_given_up_and_keys_are_locked_together (start : LockTable)
    (before : List LockCall) :
    let table := start.run before
    (∀ key owner, table.holder? key = some owner →
      (∀ calls, (table.run calls).holder? key ≠ some owner →
        ∃ call ∈ calls, call.GivesUp key owner) ∧
      ∀ call, call.GivesUp key owner → (table.step call).holder? key = none) ∧
    ∀ keys owner,
      ((table.lockAll keys owner).1 = true ↔
        keys.Nodup ∧ ∀ key ∈ keys, table.holder? key = none) ∧
      (∀ held, table.lockAll keys owner = (true, held) →
        (∀ key, held.holder? key = if key ∈ keys then some owner else table.holder? key) ∧
        held.releaseAll keys owner = table) ∧
      ∀ held, table.lockAll keys owner = (false, held) → held = table := by
  intro table
  refine ⟨fun key owner h => ⟨fun _ hgone => LockTable.exists_givesUp h hgone, fun call hcall => ?_⟩,
    fun keys owner => ?_⟩
  · rcases LockTable.holder?_step h call with ⟨hfree, -⟩ | ⟨-, hkept⟩
    · exact hfree
    · exact absurd hcall hkept
  · exact ⟨LockTable.lockAll_eq_true_iff, fun _ => LockTable.lockAll_locks,
      fun _ => LockTable.lockAll_fails⟩

/-- Owner 1 holds `a`, and owner 2 holds `b` and `c`. Owner 1 asks for keys in vain, because one of
them is its own, because one is another's, and because one is named twice; then it gets `d`. -/
theorem failed_batches_take_nothing_from_either_owner :
    let a : Key := ⟨[97]⟩
    let b : Key := ⟨[98]⟩
    let c : Key := ⟨[99]⟩
    let d : Key := ⟨[100]⟩
    let table := LockTable.empty.run [.tryAcquire a 1, .lockAll [c, b] 2, .release b 1]
    (table.holder? a = some 1 ∧ table.holder? b = some 2) ∧
      ((table.lockAll [d, a] 1).2 = table ∧ (table.lockAll [d, b] 1).2 = table ∧
        (table.lockAll [d, d] 1).2 = table) ∧
      (table.lockAll [d] 1).1 = true ∧ (table.lockAll [d] 1).2.releaseAll [d] 1 = table ∧
      (table.step (.releaseAll [a, b] 2)).holder? b = none ∧
      (table.run [.releaseAll [a, b] 2, .tryAcquire a 2]).holder? a = some 1 := by
  intro a b c d table
  obtain ⟨hheld, hall⟩ := locks_stay_until_given_up_and_keys_are_locked_together LockTable.empty
    [.tryAcquire a 1, .lockAll [c, b] 2, .release b 1]
  have ha : table.holder? a = some 1 := by decide +kernel
  have hb : table.holder? b = some 2 := by decide +kernel
  have hfails : ∀ keys, (table.lockAll keys 1).1 = false → (table.lockAll keys 1).2 = table :=
    fun keys hfail => (hall keys 1).2.2 _ (Prod.ext hfail rfl)
  have hd : (table.lockAll [d] 1).1 = true := (hall [d] 1).1.mpr (by decide +kernel)
  refine ⟨⟨ha, hb⟩, ⟨hfails _ (by decide +kernel), hfails _ (by decide +kernel),
    hfails _ (by decide +kernel)⟩, hd, ((hall [d] 1).2.1 _ (Prod.ext hd rfl)).2,
    (hheld b 2 hb).2 _ (.releaseAll (by simp)), ?_⟩
  refine Decidable.byContradiction fun hgone => ?_
  obtain ⟨call, hcall, hgives⟩ := (hheld a 1 ha).1 _ hgone
  simp only [List.mem_cons, List.not_mem_nil, or_false] at hcall
  rcases hcall with rfl | rfl <;> cases hgives

end StampStore
