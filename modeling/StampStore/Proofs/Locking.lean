-- Locking the keys of a commit: free keys, each named once, are all taken at the
-- first attempt, and giving them up again leaves the table as it was. Keys that an
-- owner has waited for are its own afterwards.
import StampStore.Locks

namespace StampStore.LockTable

section Cons

variable {owner : TxnId} {taken keys : List Key} {table : LockTable} {key : Key}

/-- A free key is locked, and the next ones are tried. -/
theorem lockRest_cons_free (h : table.holder? key = none) :
    lockRest owner taken (key :: keys) table =
      lockRest owner (taken ++ [key]) keys ⟨table.owners.insert key owner⟩ := by
  rw [lockRest, tryAcquire_free h]

/-- A key that is held stops the call, whoever holds it. -/
theorem lockRest_cons_held {holder : TxnId} (h : table.holder? key = some holder) :
    lockRest owner taken (key :: keys) table = (false, table.releaseAll taken owner) := by
  by_cases hown : holder = owner
  · rw [lockRest, tryAcquire_own (hown ▸ h)]
  · rw [lockRest, tryAcquire_taken h hown]

end Cons

/-- Free keys, each named once, are all locked. -/
theorem lockRest_free {keys : List Key} {owner : TxnId} (taken : List Key) {table : LockTable}
    (hnodup : keys.Nodup) (hfree : ∀ key ∈ keys, table.holder? key = none) :
    ∃ held, lockRest owner taken keys table = (true, held) ∧
      ∀ key, held.holder? key = if key ∈ keys then some owner else table.holder? key := by
  induction keys generalizing taken table with
  | nil => exact ⟨table, rfl, by simp⟩
  | cons key keys ih =>
    obtain ⟨hkey, hrest⟩ := List.nodup_cons.mp hnodup
    have hfree' : ∀ j ∈ keys,
        (LockTable.mk (table.owners.insert key owner)).holder? j = none := by
      intro j hj
      have hne : key ≠ j := fun h => hkey (h ▸ hj)
      rw [holder?_insert, if_neg hne]
      exact hfree j (List.mem_cons_of_mem key hj)
    obtain ⟨held, hlock, hholder⟩ := ih (taken ++ [key]) hrest hfree'
    refine ⟨held, ?_, ?_⟩
    · rw [lockRest_cons_free (hfree key List.mem_cons_self)]
      exact hlock
    · intro j
      rw [hholder, holder?_insert]
      by_cases hj : j ∈ keys
      · simp [hj]
      · by_cases hkj : key = j
        · simp [hkj]
        · simp [hj, hkj, Ne.symm hkj]

theorem lockAll_free {keys : List Key} (owner : TxnId) {table : LockTable}
    (hnodup : keys.Nodup) (hfree : ∀ key ∈ keys, table.holder? key = none) :
    ∃ held, table.lockAll keys owner = (true, held) ∧ held.releaseAll keys owner = table ∧
      ∀ key, held.holder? key = if key ∈ keys then some owner else table.holder? key := by
  obtain ⟨held, hlock, hholder⟩ := lockRest_free [] hnodup hfree
  refine ⟨held, hlock, ?_, hholder⟩
  apply ext_holder?
  intro key
  rw [holder?_releaseAll, hholder]
  by_cases hkey : key ∈ keys
  · simp [hkey, hfree key hkey]
  · simp [hkey]

/-- Nobody has to wait whose first attempt succeeds. -/
theorem lockWaiting_of_lockAll {keys : List Key} {owner : TxnId} {table held : LockTable}
    (rounds : List Releases) (h : table.lockAll keys owner = (true, held)) :
    lockWaiting keys owner rounds table = some (held, 0) := by
  cases rounds <;> simp [lockWaiting, h]

/-- Nobody has to wait for free keys. -/
theorem lockWaiting_free {keys : List Key} (owner : TxnId) {table : LockTable}
    (rounds : List Releases) (hnodup : keys.Nodup)
    (hfree : ∀ key ∈ keys, table.holder? key = none) :
    ∃ held, lockWaiting keys owner rounds table = some (held, 0) ∧
      held.releaseAll keys owner = table ∧
      ∀ key, held.holder? key = if key ∈ keys then some owner else table.holder? key := by
  obtain ⟨held, hlock, hrelease, hholder⟩ := lockAll_free owner hnodup hfree
  exact ⟨held, lockWaiting_of_lockAll rounds hlock, hrelease, hholder⟩

/-- Locking adds the keys to those that the owner holds already. -/
theorem holder?_lockRest {owner : TxnId} {keys taken : List Key} {table held : LockTable}
    (h : lockRest owner taken keys table = (true, held)) :
    (∀ key ∈ keys, held.holder? key = some owner) ∧
      ∀ key, table.holder? key = some owner → held.holder? key = some owner := by
  induction keys generalizing taken table with
  | nil =>
    cases h
    exact ⟨fun _ hkey => absurd hkey List.not_mem_nil, fun _ hown => hown⟩
  | cons key keys ih =>
    cases hholder : table.holder? key with
    | none =>
      rw [lockRest_cons_free hholder] at h
      obtain ⟨hkeys, hkept⟩ := ih h
      refine ⟨?_, ?_⟩
      · intro j hj
        rcases List.mem_cons.mp hj with rfl | hj
        · exact hkept j (by rw [holder?_insert, if_pos rfl])
        · exact hkeys j hj
      · intro j hj
        apply hkept
        rw [holder?_insert]
        split
        · rfl
        · exact hj
    | some holder =>
      rw [lockRest_cons_held hholder] at h
      cases h

/-- An owner that has waited for its keys holds them all. -/
theorem holder?_lockWaiting {owner : TxnId} {keys : List Key} {rounds : List Releases}
    {table held : LockTable} {retries : Nat}
    (h : lockWaiting keys owner rounds table = some (held, retries)) :
    ∀ key ∈ keys, held.holder? key = some owner := by
  induction rounds generalizing table retries with
  | nil =>
    unfold lockWaiting at h
    rcases hlock : table.lockAll keys owner with ⟨_ | _, locks⟩ <;> rw [hlock] at h <;> cases h
    exact (holder?_lockRest hlock).1
  | cons round rounds ih =>
    unfold lockWaiting at h
    rcases hlock : table.lockAll keys owner with ⟨_ | _, locks⟩ <;> rw [hlock] at h
    · obtain ⟨⟨held', retries'⟩, hrest, heq⟩ := Option.map_eq_some_iff.mp h
      cases heq
      exact ih hrest
    · cases h
      exact (holder?_lockRest hlock).1

end StampStore.LockTable
