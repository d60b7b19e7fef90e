-- The lock table: one owner per key, and nothing ever waits inside it. A commit
-- locks the keys it writes for as long as it lasts, and a key it has only read
-- while that one key is checked.
import StampStore.KeyMap

namespace StampStore

/-- The locked keys with their owners. -/
structure LockTable where
  owners : KeyMap TxnId

/-- The answer to a request for a lock. -/
inductive LockOutcome where
  /-- The caller owns the key now. -/
  | acquired
  /-- Another owner has the key. -/
  | busy
  /-- The caller has the key already, and would wait for itself. -/
  | deadlock
  deriving DecidableEq, Repr

namespace LockTable

/-- The table without locks. -/
def empty : LockTable := ⟨KeyMap.empty⟩

/-- Who holds `key`. -/
def holder? (table : LockTable) (key : Key) : Option TxnId := table.owners.get? key

/-- Whether somebody holds `key`. -/
def isLocked (table : LockTable) (key : Key) : Bool := table.owners.contains key

/-- The number of locked keys. -/
def size (table : LockTable) : Nat := table.owners.size

/-- Whether no key is locked. -/
def isEmpty (table : LockTable) : Bool := table.owners.isEmpty

/-! ## One key -/

/-- Asks for `key` on behalf of `owner`. -/
def tryAcquire (table : LockTable) (key : Key) (owner : TxnId) : LockOutcome × LockTable :=
  match table.holder? key with
  | none => (.acquired, ⟨table.owners.insert key owner⟩)
  | some holder => if holder = owner then (.deadlock, table) else (.busy, table)

/-- Gives `key` up if `owner` holds it, and says whether it did. -/
def release (table : LockTable) (key : Key) (owner : TxnId) : Bool × LockTable :=
  if table.holder? key = some owner then (true, ⟨table.owners.erase key⟩) else (false, table)

/-! ## Several keys -/

/-- Gives up every key that `owner` holds. -/
def releaseAll (table : LockTable) (keys : List Key) (owner : TxnId) : LockTable :=
  keys.foldl (fun table key => (table.release key owner).2) table

/-- As `lockAll`, with the keys `taken` so far, which are given up again on failure. -/
def lockRest (owner : TxnId) (taken : List Key) : List Key → LockTable → Bool × LockTable
  | [], table => (true, table)
  | key :: keys, table =>
    match table.tryAcquire key owner with
    | (.acquired, table) => lockRest owner (taken ++ [key]) keys table
    | (.busy, table) => (false, table.releaseAll taken owner)
    | (.deadlock, table) => (false, table.releaseAll taken owner)

/-- Locks every key in the order given, or none of them. -/
def lockAll (table : LockTable) (keys : List Key) (owner : TxnId) : Bool × LockTable :=
  lockRest owner [] keys table

/-! ## Waiting -/

/-- Locks given up by their owners, in order. -/
abbrev Releases := List (Key × TxnId)

/-- The table after the releases. -/
def releaseEach (table : LockTable) (releases : Releases) : LockTable :=
  releases.foldl (fun table lock => (table.release lock.1 lock.2).2) table

/-- Locks every key, trying again after each round of releases by other owners. The answer is
the table and the number of failed attempts, or nothing when the rounds are over and a key is
still taken. -/
def lockWaiting (keys : List Key) (owner : TxnId) :
    List Releases → LockTable → Option (LockTable × Nat)
  | [], table =>
    match table.lockAll keys owner with
    | (true, table) => some (table, 0)
    | (false, _) => none
  | round :: rounds, table =>
    match table.lockAll keys owner with
    | (true, table) => some (table, 0)
    | (false, table) =>
      (lockWaiting keys owner rounds (table.releaseEach round)).map fun done =>
        (done.1, done.2 + 1)

/-! ## What the operations change -/

theorem ext_holder? {a b : LockTable} (h : ∀ key, a.holder? key = b.holder? key) : a = b := by
  cases a; cases b
  exact congrArg LockTable.mk (KeyMap.ext_get? h)

theorem holder?_insert (table : LockTable) (key : Key) (owner : TxnId) (k : Key) :
    (LockTable.mk (table.owners.insert key owner)).holder? k =
      if key = k then some owner else table.holder? k :=
  KeyMap.get?_insert table.owners key k owner

theorem tryAcquire_free {table : LockTable} {key : Key} {owner : TxnId}
    (h : table.holder? key = none) :
    table.tryAcquire key owner = (.acquired, ⟨table.owners.insert key owner⟩) := by
  rw [tryAcquire, h]

theorem tryAcquire_own {table : LockTable} {key : Key} {owner : TxnId}
    (h : table.holder? key = some owner) : table.tryAcquire key owner = (.deadlock, table) := by
  rw [tryAcquire, h]
  exact if_pos rfl

theorem tryAcquire_taken {table : LockTable} {key : Key} {owner holder : TxnId}
    (h : table.holder? key = some holder) (hne : holder ≠ owner) :
    table.tryAcquire key owner = (.busy, table) := by
  rw [tryAcquire, h]
  exact if_neg hne

theorem release_after_acquire {table : LockTable} {key : Key} {owner : TxnId}
    (h : table.holder? key = none) :
    (LockTable.mk (table.owners.insert key owner)).release key owner = (true, table) := by
  unfold release holder?
  simp only [KeyMap.get?_insert_self, if_true]
  rw [KeyMap.erase_insert h]

/-- A release touches one key, and only when its owner asks for it. -/
theorem holder?_release (table : LockTable) (key : Key) (owner : TxnId) (k : Key) :
    (table.release key owner).2.holder? k =
      if key = k ∧ table.holder? k = some owner then none else table.holder? k := by
  by_cases hown : table.holder? key = some owner
  · rw [release, if_pos hown]
    by_cases hkey : key = k
    · subst hkey
      rw [if_pos ⟨rfl, hown⟩]
      exact KeyMap.get?_erase_self _ _
    · rw [if_neg (not_and_of_not_left _ hkey)]
      exact (KeyMap.get?_erase _ _ _).trans (if_neg hkey)
  · rw [release, if_neg hown, if_neg]
    rintro ⟨rfl, h⟩
    exact hown h

/-- A release of several keys touches those of them that the caller holds. -/
theorem holder?_releaseAll (table : LockTable) (keys : List Key) (owner : TxnId) (k : Key) :
    (table.releaseAll keys owner).holder? k =
      if k ∈ keys ∧ table.holder? k = some owner then none else table.holder? k := by
  unfold releaseAll
  induction keys generalizing table with
  | nil => simp
  | cons key keys ih =>
    rw [List.foldl_cons, ih, holder?_release]
    by_cases hkey : key = k
    · subst hkey
      by_cases hown : table.holder? key = some owner <;> simp [hown]
    · have hne : ¬ k = key := fun h => hkey h.symm
      simp [hkey, hne]

end LockTable

end StampStore
