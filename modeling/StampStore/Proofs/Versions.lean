-- Stored records as versions: a tuple under each key, with the times it was
-- written at and is known to be readable at. A later version of a key is written
-- after every time the earlier one is readable at, so an earlier read stays good.
import StampStore.Engine
import Mathlib.Order.Defs.LinearOrder
import Mathlib.Order.MinMax
import Mathlib.Tactic.Order

namespace StampStore

/-! ## The order of timestamps -/

instance : LinearOrder Timestamp where
  le_refl := UInt32.le_refl
  le_trans _ _ _ := UInt32.le_trans
  lt_iff_le_not_ge a b := by
    simp only [UInt32.lt_iff_toNat_lt, UInt32.le_iff_toNat_le]
    omega
  le_antisymm _ _ := UInt32.le_antisymm
  le_total := UInt32.le_total
  toDecidableLE := inferInstance
  toDecidableLT := inferInstance
  toDecidableEq := inferInstance

theorem Timestamp.zero_le (t : Timestamp) : 0 ≤ t := by
  rw [UInt32.le_iff_toNat_le]
  exact Nat.zero_le _

/-- The last timestamp. -/
def Timestamp.last : Timestamp := UInt32.ofNat (UInt32.size - 1)

theorem Timestamp.le_last (t : Timestamp) : t ≤ last := by
  have ht := t.toNat_lt
  rw [UInt32.le_iff_toNat_le]
  simp only [last, UInt32.size, UInt32.toNat_ofNat']
  omega

theorem Timestamp.one_le_of_lt {t u : Timestamp} (h : t < u) : 1 ≤ u := by
  rw [UInt32.lt_iff_toNat_lt] at h
  rw [UInt32.le_iff_toNat_le]
  simp only [UInt32.reduceToNat]
  omega

theorem Timestamp.eq_of_next? {t u : Timestamp} (h : t.next? = some u) : u = t + 1 := by
  unfold next? at h
  split at h
  · exact (Option.some.inj h).symm
  · cases h

theorem Timestamp.lt_of_next? {t u : Timestamp} (h : t.next? = some u) : t < u := by
  have := next?_eq_some_iff.mp h
  rw [UInt32.lt_iff_toNat_lt]
  omega

theorem Timestamp.next?_le {t u v : Timestamp} (h : t.next? = some u) (hlt : t < v) : u ≤ v := by
  have := next?_eq_some_iff.mp h
  rw [UInt32.lt_iff_toNat_lt] at hlt
  rw [UInt32.le_iff_toNat_le]
  omega

/-- A time that something comes after has a next one. -/
theorem Timestamp.next?_of_lt {t v : Timestamp} (hlt : t < v) : ∃ u, t.next? = some u := by
  cases h : t.next? with
  | some u => exact ⟨u, rfl⟩
  | none =>
    have hlast := next?_eq_none_iff.mp h
    have hv := v.toNat_lt
    unfold UInt32.size at hlast
    rw [UInt32.lt_iff_toNat_lt] at hlt
    omega

/-! ## One version and the next -/

namespace Tuple

/-- A tuple is readable at the time it was written. -/
def WellFormed (t : Tuple) : Prop := t.stamp.WellFormed

instance (t : Tuple) : Decidable t.WellFormed := inferInstanceAs (Decidable t.stamp.WellFormed)

/-- The tuple with its read time raised to `ts`, never lowered. -/
def raise (t : Tuple) (ts : Timestamp) : Tuple := t.setStamp (t.stamp.raiseRts ts)

/-- `new` stands where `old` stood, with nothing removed in between: it is the same version,
readable at least as long, or it was written after every time `old` is readable at. -/
def LeadsTo (old new : Tuple) : Prop :=
  (new.stamp.wts = old.stamp.wts ∧ new.value = old.value ∧ old.stamp.rts ≤ new.stamp.rts) ∨
    old.stamp.rts < new.stamp.wts

@[simp] theorem wts_raise (t : Tuple) (ts : Timestamp) : (t.raise ts).stamp.wts = t.stamp.wts := by
  simp [raise, Stamp.raiseRts]

@[simp] theorem rts_raise (t : Tuple) (ts : Timestamp) :
    (t.raise ts).stamp.rts = max t.stamp.rts ts := by
  simp [raise, Stamp.raiseRts]

@[simp] theorem value_raise (t : Tuple) (ts : Timestamp) : (t.raise ts).value = t.value := by
  simp [raise]

theorem raise_of_le {t : Tuple} {ts : Timestamp} (h : ts ≤ t.stamp.rts) : t.raise ts = t := by
  rw [eq_iff]
  refine ⟨?_, value_raise t ts⟩
  simp [raise, Stamp.raiseRts, max_eq_left h]

@[simp] theorem raise_raise (t : Tuple) (ts : Timestamp) : (t.raise ts).raise ts = t.raise ts :=
  raise_of_le (by simp)

theorem WellFormed.raise {t : Tuple} (h : t.WellFormed) (ts : Timestamp) :
    (t.raise ts).WellFormed := by
  unfold WellFormed Stamp.WellFormed at *
  rw [wts_raise, rts_raise]
  exact le_trans h (le_max_left _ _)

theorem wellFormed_make_committedAt (ts : Timestamp) (v : Bytes) :
    (make (Stamp.committedAt ts) v).WellFormed := by
  unfold WellFormed
  rw [stamp_make]
  exact le_refl ts

theorem leadsTo_refl (t : Tuple) : t.LeadsTo t := Or.inl ⟨rfl, rfl, le_refl _⟩

theorem leadsTo_raise (t : Tuple) (ts : Timestamp) : t.LeadsTo (t.raise ts) :=
  Or.inl ⟨wts_raise t ts, value_raise t ts, by simp⟩

theorem LeadsTo.trans {a b c : Tuple} (hab : a.LeadsTo b) (hbc : b.LeadsTo c)
    (hb : b.WellFormed) : a.LeadsTo c := by
  unfold WellFormed Stamp.WellFormed at hb
  rcases hab with ⟨hw, hv, hr⟩ | hab
  · rcases hbc with ⟨hw', hv', hr'⟩ | hbc
    · exact Or.inl ⟨hw'.trans hw, hv'.trans hv, le_trans hr hr'⟩
    · exact Or.inr (lt_of_le_of_lt hr hbc)
  · rcases hbc with ⟨hw', _, _⟩ | hbc
    · exact Or.inr (hw' ▸ hab)
    · exact Or.inr (lt_trans hab (lt_of_le_of_lt hb hbc))

theorem LeadsTo.wts_le {a b : Tuple} (h : a.LeadsTo b) (ha : a.WellFormed) :
    a.stamp.wts ≤ b.stamp.wts := by
  rcases h with ⟨hw, _, _⟩ | h
  · exact le_of_eq hw.symm
  · exact le_of_lt (lt_of_le_of_lt ha h)

theorem LeadsTo.rts_le {a b : Tuple} (h : a.LeadsTo b) (hb : b.WellFormed) :
    a.stamp.rts ≤ b.stamp.rts := by
  rcases h with ⟨_, _, hr⟩ | h
  · exact hr
  · exact le_of_lt (lt_of_lt_of_le h hb)

/-- The write time tells the versions of a key apart while the key stays. -/
theorem LeadsTo.same {a b : Tuple} (h : a.LeadsTo b) (ha : a.WellFormed)
    (hw : b.stamp.wts = a.stamp.wts) : b.value = a.value ∧ a.stamp.rts ≤ b.stamp.rts := by
  rcases h with ⟨_, hv, hr⟩ | h
  · exact ⟨hv, hr⟩
  · exact absurd ha (not_le.mpr (hw ▸ h))

/-- No version is written between the write time of another and a time that one is readable at. -/
theorem LeadsTo.not_between {a b : Tuple} (h : a.LeadsTo b) {c : Timestamp}
    (hc : c ≤ a.stamp.rts) : ¬ (a.stamp.wts < b.stamp.wts ∧ b.stamp.wts ≤ c) := by
  rintro ⟨hlt, hle⟩
  rcases h with ⟨hw, -, -⟩ | hlater
  · exact absurd hlt (not_lt.mpr (le_of_eq hw))
  · exact absurd hlater (not_lt.mpr (le_trans hle hc))

/-- A version that is good at `c` and a later one written up to `c` have the same value, where
good means readable at `c` or stored as long as the later one. -/
theorem LeadsTo.same_of_good {a b d : Tuple} (hab : a.LeadsTo b) (hbd : b.LeadsTo d)
    (ha : a.WellFormed) (hb : b.WellFormed) {c : Timestamp} (hle : b.stamp.wts ≤ c)
    (hgood : c ≤ a.stamp.rts ∨ a.stamp.wts = d.stamp.wts) : b.value = a.value := by
  have hw : a.stamp.wts ≤ b.stamp.wts := hab.wts_le ha
  rcases hab with ⟨-, hv, -⟩ | hlater
  · exact hv
  · exfalso
    rcases hgood with hcovered | hsame
    · exact absurd (lt_of_lt_of_le hlater hle) (not_lt.mpr hcovered)
    · have hback : b.stamp.wts ≤ a.stamp.wts := hsame ▸ hbd.wts_le hb
      exact absurd (lt_of_lt_of_le hlater hback) (not_lt.mpr ha)

end Tuple

/-! ## The versions of a store -/

namespace Records

variable {records : Records} {key : Key} {t : Tuple}

/-- The tuple under `key`; a record too short to be one does not count. -/
def tuple? (records : Records) (key : Key) : Option Tuple :=
  (records.get? key).bind Tuple.ofBytes?

/-- The stamp under `key`. -/
def stamp? (records : Records) (key : Key) : Option Stamp := (records.tuple? key).map (·.stamp)

/-- The application's value under `key`. -/
def value? (records : Records) (key : Key) : Option Bytes := (records.tuple? key).map (·.value)

/-- The stamp under `key`, zero for an absent key. -/
def stampAt (records : Records) (key : Key) : Stamp := (records.stamp? key).getD Stamp.zero

/-- Every record is a tuple. -/
def Whole (records : Records) : Prop :=
  ∀ key record, records.get? key = some record → ∃ t : Tuple, t.bytes = record

/-- Every record is a tuple that is readable at the time it was written. -/
def Sound (records : Records) : Prop :=
  ∀ key record, records.get? key = some record → ∃ t : Tuple, t.bytes = record ∧ t.WellFormed

/-- From `before` to `after` the key stays if it was there, and its version only leads on. -/
def LeadsTo (key : Key) (before after : Records) : Prop :=
  ∀ t, before.tuple? key = some t → ∃ t', after.tuple? key = some t' ∧ t.LeadsTo t'

theorem Sound.whole (h : records.Sound) : records.Whole :=
  fun key record hr =>
    let ⟨t, ht, _⟩ := h key record hr
    ⟨t, ht⟩

theorem Whole.get?_eq (h : records.Whole) (key : Key) :
    records.get? key = (records.tuple? key).map (·.bytes) := by
  unfold tuple?
  cases hr : records.get? key with
  | none => rfl
  | some record =>
    obtain ⟨t, rfl⟩ := h key record hr
    simp [Tuple.ofBytes?_bytes]

theorem Sound.get?_eq (h : records.Sound) (key : Key) :
    records.get? key = (records.tuple? key).map (·.bytes) := h.whole.get?_eq key

theorem get?_of_tuple? (h : records.tuple? key = some t) : records.get? key = some t.bytes := by
  unfold tuple? at h
  obtain ⟨record, hr, ht⟩ := Option.bind_eq_some_iff.mp h
  rw [hr, Tuple.ofBytes?_eq_some_iff.mp ht]

theorem Sound.wellFormed (h : records.Sound) (ht : records.tuple? key = some t) :
    t.WellFormed := by
  obtain ⟨u, hu, hw⟩ := h key t.bytes (get?_of_tuple? ht)
  rwa [← Tuple.ext hu]

theorem Sound.contains_eq (h : records.Sound) (key : Key) :
    KeyMap.contains records key = (records.tuple? key).isSome := by
  rw [KeyMap.contains, h.get?_eq]
  cases records.tuple? key <;> rfl

theorem sound_empty : Sound KeyMap.empty := by
  intro key record h
  cases h

theorem tuple?_insert (records : Records) (key j : Key) (t : Tuple) :
    tuple? (records.insert key t.bytes) j = if key = j then some t else records.tuple? j := by
  unfold tuple?
  rw [KeyMap.get?_insert]
  split
  · simp [Tuple.ofBytes?_bytes]
  · rfl

theorem tuple?_erase (records : Records) (key j : Key) :
    tuple? (records.erase key) j = if key = j then none else records.tuple? j := by
  unfold tuple?
  rw [KeyMap.get?_erase]
  split <;> rfl

theorem Whole.insert (h : records.Whole) (key : Key) (t : Tuple) :
    Whole (records.insert key t.bytes) := by
  intro j record hr
  rw [KeyMap.get?_insert] at hr
  split at hr
  · cases hr
    exact ⟨t, rfl⟩
  · exact h j record hr

theorem Sound.insert (h : records.Sound) (key : Key) (ht : t.WellFormed) :
    Sound (records.insert key t.bytes) := by
  intro j record hr
  rw [KeyMap.get?_insert] at hr
  split at hr
  · cases hr
    exact ⟨t, rfl, ht⟩
  · exact h j record hr

theorem Sound.erase (h : records.Sound) (key : Key) : Sound (records.erase key) := by
  intro j record hr
  rw [KeyMap.get?_erase] at hr
  split at hr
  · cases hr
  · exact h j record hr

theorem stampAt_of_tuple? (h : records.tuple? key = some t) : records.stampAt key = t.stamp := by
  simp [stampAt, stamp?, h]

theorem stampAt_of_absent (h : records.tuple? key = none) : records.stampAt key = Stamp.zero := by
  simp [stampAt, stamp?, h]

theorem leadsTo_of_tuple?_eq {before after : Records}
    (h : after.tuple? key = before.tuple? key) : LeadsTo key before after :=
  fun t ht => ⟨t, h.trans ht, t.leadsTo_refl⟩

theorem LeadsTo.trans {a b c : Records} (hab : LeadsTo key a b) (hbc : LeadsTo key b c)
    (hb : b.Sound) : LeadsTo key a c := by
  intro t ht
  obtain ⟨u, hu, htu⟩ := hab t ht
  obtain ⟨v, hv, huv⟩ := hbc u hu
  exact ⟨v, hv, htu.trans huv (hb.wellFormed hu)⟩

/-! ## Raising read times -/

/-- Raises the read time under `key` to `ts` if the key is there. -/
def raise (records : Records) (key : Key) (ts : Timestamp) : Records :=
  match records.tuple? key with
  | none => records
  | some t => if t.stamp.rts < ts then records.insert key (t.raise ts).bytes else records

theorem tuple?_raise (records : Records) (key j : Key) (ts : Timestamp) :
    (records.raise key ts).tuple? j =
      if key = j then (records.tuple? j).map (·.raise ts) else records.tuple? j := by
  unfold raise
  by_cases hkj : key = j
  · subst hkj
    rw [if_pos rfl]
    split
    · rename_i ht
      simp [ht]
    · rename_i t ht
      split
      · rw [tuple?_insert, if_pos rfl, ht]
        rfl
      · rename_i hlt
        simp [ht, Tuple.raise_of_le (not_lt.mp hlt)]
  · rw [if_neg hkj]
    split
    · rfl
    · split
      · rw [tuple?_insert, if_neg hkj]
      · rfl

theorem Whole.raise (h : records.Whole) (key : Key) (ts : Timestamp) :
    (records.raise key ts).Whole := by
  unfold Records.raise
  cases records.tuple? key with
  | none => exact h
  | some t =>
    simp only
    split
    · exact h.insert key _
    · exact h

theorem Sound.raise (h : records.Sound) (key : Key) (ts : Timestamp) :
    (records.raise key ts).Sound := by
  unfold Records.raise
  cases ht : records.tuple? key with
  | none => exact h
  | some t =>
    simp only
    split
    · exact h.insert key ((h.wellFormed ht).raise ts)
    · exact h

/-- Both hold the same keys, and under each key the same value, written at the same time. Only the
read times may differ. -/
structure SameVersions (before after : Records) : Prop where
  present : ∀ key, KeyMap.contains after key = KeyMap.contains before key
  value : ∀ key, after.value? key = before.value? key
  wts : ∀ key, (after.stampAt key).wts = (before.stampAt key).wts

theorem sameVersions_refl (records : Records) : records.SameVersions records :=
  ⟨fun _ => rfl, fun _ => rfl, fun _ => rfl⟩

end Records

/-! ## Stamps over time -/

section Stamps

variable {records records' : Records} {key : Key}

theorem wts_stampAt_le_rts (hsound : records.Sound) (key : Key) :
    (records.stampAt key).wts ≤ (records.stampAt key).rts := by
  cases ht : records.tuple? key with
  | none =>
    rw [Records.stampAt_of_absent ht]
    exact le_refl _
  | some t =>
    rw [Records.stampAt_of_tuple? ht]
    exact hsound.wellFormed ht

theorem rts_stampAt_le (hsound : records'.Sound) (hlead : Records.LeadsTo key records records') :
    (records.stampAt key).rts ≤ (records'.stampAt key).rts := by
  cases ht : records.tuple? key with
  | none =>
    rw [Records.stampAt_of_absent ht]
    exact Timestamp.zero_le _
  | some t =>
    obtain ⟨t', ht', hlead'⟩ := hlead t ht
    rw [Records.stampAt_of_tuple? ht, Records.stampAt_of_tuple? ht']
    exact hlead'.rts_le (hsound.wellFormed ht')

theorem wts_stampAt_le (hsound : records.Sound) (hlead : Records.LeadsTo key records records') :
    (records.stampAt key).wts ≤ (records'.stampAt key).wts := by
  cases ht : records.tuple? key with
  | none =>
    rw [Records.stampAt_of_absent ht]
    exact Timestamp.zero_le _
  | some t =>
    obtain ⟨t', ht', hlead'⟩ := hlead t ht
    rw [Records.stampAt_of_tuple? ht, Records.stampAt_of_tuple? ht']
    exact hlead'.wts_le (hsound.wellFormed ht)

end Stamps

end StampStore
