-- Finite maps from keys, kept as a list in ascending key order. Two maps that
-- answer every look-up alike are equal, so "the map is as it was" can be said
-- key by key, and listing a map needs no sorting.
import StampStore.Key

namespace StampStore

/-- A finite map from keys: its entries in strictly ascending key order. -/
structure KeyMap (α : Type) where
  entries : List (Key × α)
  ascending : entries.Pairwise fun a b => a.1 < b.1

namespace KeyMap

variable {α : Type}

/-! ## Entry lists -/

/-- The value at `k` in an entry list. -/
def find (k : Key) : List (Key × α) → Option α
  | [] => none
  | e :: l => if e.1 = k then some e.2 else find k l

/-- Sets the value at `k` in an ascending entry list. -/
def put (k : Key) (v : α) : List (Key × α) → List (Key × α)
  | [] => [(k, v)]
  | e :: l =>
    if k < e.1 then (k, v) :: e :: l
    else if e.1 = k then (k, v) :: l
    else e :: put k v l

/-- Drops the entry at `k`. -/
def drop (k : Key) : List (Key × α) → List (Key × α)
  | [] => []
  | e :: l => if e.1 = k then l else e :: drop k l

theorem mem_put {k : Key} {v : α} {l : List (Key × α)} {e : Key × α} (h : e ∈ put k v l) :
    e = (k, v) ∨ e ∈ l := by
  induction l with
  | nil => exact Or.inl (List.mem_singleton.mp h)
  | cons a l ih =>
    unfold put at h
    split at h
    · exact List.mem_cons.mp h
    · split at h
      · rcases List.mem_cons.mp h with h | h
        · exact Or.inl h
        · exact Or.inr (List.mem_cons_of_mem a h)
      · rcases List.mem_cons.mp h with h | h
        · exact Or.inr (h ▸ List.mem_cons_self)
        · exact (ih h).imp_right (List.mem_cons_of_mem a)

theorem put_ascending (k : Key) (v : α) {l : List (Key × α)}
    (h : l.Pairwise fun a b => a.1 < b.1) : (put k v l).Pairwise fun a b => a.1 < b.1 := by
  induction l with
  | nil => exact List.pairwise_singleton _ _
  | cons a l ih =>
    obtain ⟨ha, hl⟩ := List.pairwise_cons.mp h
    unfold put
    split
    · rename_i hka
      refine List.pairwise_cons.mpr ⟨fun x hx => ?_, h⟩
      rcases List.mem_cons.mp hx with rfl | hx
      · exact hka
      · exact Key.lt_trans hka (ha x hx)
    · split
      · rename_i _ hak
        refine List.pairwise_cons.mpr ⟨fun x hx => ?_, hl⟩
        exact hak ▸ ha x hx
      · rename_i hka hak
        refine List.pairwise_cons.mpr ⟨fun x hx => ?_, ih hl⟩
        rcases mem_put hx with rfl | hx
        · by_cases hlt : a.1 < k
          · exact hlt
          · exact absurd (Key.eq_of_not_lt hlt hka) hak
        · exact ha x hx

theorem drop_sublist (k : Key) (l : List (Key × α)) : (drop k l).Sublist l := by
  induction l with
  | nil => exact List.Sublist.refl _
  | cons a l ih =>
    unfold drop
    split
    · exact List.sublist_cons_self a l
    · exact ih.cons_cons a

theorem find_eq_none {k : Key} {l : List (Key × α)} (h : ∀ e ∈ l, e.1 ≠ k) : find k l = none := by
  induction l with
  | nil => rfl
  | cons a l ih =>
    unfold find
    rw [if_neg (h a List.mem_cons_self)]
    exact ih fun e he => h e (List.mem_cons_of_mem a he)

theorem find_put (k j : Key) (v : α) (l : List (Key × α)) :
    find j (put k v l) = if k = j then some v else find j l := by
  induction l with
  | nil => rfl
  | cons a l ih =>
    unfold put
    split
    · rfl
    · split
      · rename_i _ hak
        simp only [find, hak]
        split <;> rfl
      · rename_i _ hak
        simp only [find, ih]
        split
        · rename_i haj
          rw [if_neg fun hkj => hak (haj.trans hkj.symm)]
        · rfl

theorem find_drop (k j : Key) {l : List (Key × α)} (h : l.Pairwise fun a b => a.1 < b.1) :
    find j (drop k l) = if k = j then none else find j l := by
  induction l with
  | nil => simp [drop, find]
  | cons a l ih =>
    obtain ⟨ha, hl⟩ := List.pairwise_cons.mp h
    unfold drop
    split
    · rename_i hak
      split
      · rename_i hkj
        refine find_eq_none fun e he => ?_
        exact fun hej => Key.ne_of_lt (ha e he) (hak.trans (hkj.trans hej.symm))
      · rename_i hkj
        simp only [find]
        rw [if_neg fun haj => hkj (hak.symm.trans haj)]
    · rename_i hak
      simp only [find, ih hl]
      split
      · rename_i haj
        rw [if_neg fun hkj => hak (haj.trans hkj.symm)]
      · rfl

theorem find_eq_some {k : Key} {v : α} {l : List (Key × α)} (h : find k l = some v) :
    (k, v) ∈ l := by
  induction l with
  | nil => cases h
  | cons a l ih =>
    unfold find at h
    split at h
    · rename_i hak
      injection h with h
      subst hak; subst h
      exact List.mem_cons_self
    · exact List.mem_cons_of_mem a (ih h)

theorem eq_of_find {l m : List (Key × α)} (hl : l.Pairwise fun a b => a.1 < b.1)
    (hm : m.Pairwise fun a b => a.1 < b.1) (h : ∀ k, find k l = find k m) : l = m := by
  induction l generalizing m with
  | nil =>
    cases m with
    | nil => rfl
    | cons b m => simpa [find] using h b.1
  | cons a l ih =>
    obtain ⟨ha, hl'⟩ := List.pairwise_cons.mp hl
    cases m with
    | nil => simpa [find] using h a.1
    | cons b m =>
      obtain ⟨hb, hm'⟩ := List.pairwise_cons.mp hm
      have hab : a = b := by
        have h1 : (a.1, a.2) ∈ b :: m := find_eq_some (by rw [← h a.1]; simp [find])
        have h2 : (b.1, b.2) ∈ a :: l := find_eq_some (by rw [h b.1]; simp [find])
        rcases List.mem_cons.mp h1 with h1 | h1
        · exact h1
        · rcases List.mem_cons.mp h2 with h2 | h2
          · exact h2.symm
          · exact absurd (hb _ h1) (Key.lt_asymm (ha _ h2))
      subst hab
      have htail : ∀ k, find k l = find k m := by
        intro k
        by_cases hk : a.1 = k
        · rw [find_eq_none fun e he hek => Key.ne_of_lt (ha e he) (hk.trans hek.symm),
            find_eq_none fun e he hek => Key.ne_of_lt (hb e he) (hk.trans hek.symm)]
        · have := h k
          simpa [find, hk] using this
      rw [ih hl' hm' htail]

/-! ## Maps -/

/-- The map without entries. -/
def empty : KeyMap α := ⟨[], List.Pairwise.nil⟩

instance : EmptyCollection (KeyMap α) := ⟨empty⟩

instance : Inhabited (KeyMap α) := ⟨empty⟩

/-- The value at `k`. -/
def get? (m : KeyMap α) (k : Key) : Option α := find k m.entries

/-- Sets the value at `k`. -/
def insert (m : KeyMap α) (k : Key) (v : α) : KeyMap α :=
  ⟨put k v m.entries, put_ascending k v m.ascending⟩

/-- Removes `k`; an absent key is no error. -/
def erase (m : KeyMap α) (k : Key) : KeyMap α :=
  ⟨drop k m.entries, m.ascending.sublist (drop_sublist k m.entries)⟩

/-- Whether `k` has a value. -/
def contains (m : KeyMap α) (k : Key) : Bool := (m.get? k).isSome

/-- The number of keys. -/
def size (m : KeyMap α) : Nat := m.entries.length

/-- Whether there is no key. -/
def isEmpty (m : KeyMap α) : Bool := m.entries.isEmpty

theorem get?_insert (m : KeyMap α) (k j : Key) (v : α) :
    (m.insert k v).get? j = if k = j then some v else m.get? j :=
  find_put k j v m.entries

theorem get?_erase (m : KeyMap α) (k j : Key) :
    (m.erase k).get? j = if k = j then none else m.get? j :=
  find_drop k j m.ascending

@[simp] theorem get?_insert_self (m : KeyMap α) (k : Key) (v : α) :
    (m.insert k v).get? k = some v := by
  rw [get?_insert, if_pos rfl]

@[simp] theorem get?_erase_self (m : KeyMap α) (k : Key) : (m.erase k).get? k = none := by
  rw [get?_erase, if_pos rfl]

/-- Maps that answer every look-up alike are equal. -/
theorem ext_get? {m n : KeyMap α} (h : ∀ k, m.get? k = n.get? k) : m = n := by
  cases m with
  | mk l hl =>
    cases n with
    | mk l' hl' =>
      have : l = l' := eq_of_find hl hl' h
      subst this
      rfl

theorem erase_insert {m : KeyMap α} {k : Key} (h : m.get? k = none) (v : α) :
    (m.insert k v).erase k = m := by
  refine ext_get? fun j => ?_
  rw [get?_erase, get?_insert]
  split
  · rename_i hkj
    rw [← hkj, h]
  · rfl

end KeyMap

end StampStore
