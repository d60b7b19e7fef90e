-- Tuples: what is stored under a key, a stamp followed by the application's
-- value. A tuple is its bytes; the stamp and the value are read off them, and
-- writing one of the two leaves the other as it is. A stored record that is too
-- short to be one is reported as damaged.
import StampStore.Error

namespace StampStore

/-- A record long enough to hold a stamp. -/
structure Tuple where
  bytes : Bytes
  size_le : Stamp.size ≤ bytes.length
  deriving DecidableEq

namespace Tuple

theorem ext {t u : Tuple} (h : t.bytes = u.bytes) : t = u := by
  cases t; cases u
  simp_all

/-! ## Building and reading -/

/-- The tuple of a stamp and a value. -/
def make (s : Stamp) (value : Bytes) : Tuple := ⟨s.encode ++ value, by simp⟩

/-- A value under the zero stamp, as a transaction buffers it. -/
def unstamped (value : Bytes) : Tuple := make Stamp.zero value

/-- Takes a record as a tuple; a record shorter than a stamp is none. -/
def ofBytes? (record : Bytes) : Option Tuple :=
  if h : Stamp.size ≤ record.length then some ⟨record, h⟩ else none

/-- The stamp in front. -/
def stamp (t : Tuple) : Stamp := (Stamp.decode t.bytes).getD Stamp.zero

/-- The application's value. -/
def value (t : Tuple) : Bytes := t.bytes.drop Stamp.size

/-- Replaces the stamp. -/
def setStamp (t : Tuple) (s : Stamp) : Tuple :=
  ⟨s.encode ++ t.bytes.drop Stamp.size, by simp⟩

/-- Replaces the value. -/
def setValue (t : Tuple) (value : Bytes) : Tuple :=
  ⟨t.bytes.take Stamp.size ++ value, by
    have := t.size_le
    simp only [List.length_append, List.length_take]
    omega⟩

/-- The stored length. -/
def length (t : Tuple) : Nat := t.bytes.length

/-- Never true: a tuple holds at least its stamp. -/
def isEmpty (t : Tuple) : Bool := t.bytes.isEmpty

/-! ## The stamp and the value of each -/

theorem decode_bytes (t : Tuple) : Stamp.decode t.bytes = some t.stamp := by
  unfold stamp
  cases h : Stamp.decode t.bytes with
  | some s => rfl
  | none => exact absurd (Stamp.decode_eq_none_iff.mp h) (Nat.not_lt.mpr t.size_le)

@[simp] theorem stamp_make (s : Stamp) (v : Bytes) : (make s v).stamp = s := by
  simp [stamp, make, Stamp.decode_encode_append]

@[simp] theorem value_make (s : Stamp) (v : Bytes) : (make s v).value = v := by
  simp [value, make, List.drop_left' (Stamp.length_encode s)]

/-- A tuple is nothing but its stamp and its value. -/
theorem make_stamp_value (t : Tuple) : make t.stamp t.value = t :=
  ext (Stamp.encode_of_decode t.decode_bytes)

theorem eq_iff {t u : Tuple} : t = u ↔ t.stamp = u.stamp ∧ t.value = u.value := by
  constructor
  · rintro rfl
    exact ⟨rfl, rfl⟩
  · rintro ⟨hs, hv⟩
    rw [← make_stamp_value t, ← make_stamp_value u, hs, hv]

theorem setStamp_eq (t : Tuple) (s : Stamp) : t.setStamp s = make s t.value := rfl

theorem setValue_eq (t : Tuple) (v : Bytes) : t.setValue v = make t.stamp v := by
  apply ext
  have h := Stamp.encode_of_decode t.decode_bytes
  have htake : t.bytes.take Stamp.size = t.stamp.encode := by
    rw [← h, List.take_left' (Stamp.length_encode _)]
  simp [setValue, make, htake]

@[simp] theorem stamp_setStamp (t : Tuple) (s : Stamp) : (t.setStamp s).stamp = s := by
  rw [setStamp_eq, stamp_make]

@[simp] theorem value_setStamp (t : Tuple) (s : Stamp) : (t.setStamp s).value = t.value := by
  rw [setStamp_eq, value_make]

@[simp] theorem stamp_setValue (t : Tuple) (v : Bytes) : (t.setValue v).stamp = t.stamp := by
  rw [setValue_eq, stamp_make]

@[simp] theorem value_setValue (t : Tuple) (v : Bytes) : (t.setValue v).value = v := by
  rw [setValue_eq, value_make]

@[simp] theorem stamp_unstamped (v : Bytes) : (unstamped v).stamp = Stamp.zero := stamp_make _ _

@[simp] theorem value_unstamped (v : Bytes) : (unstamped v).value = v := value_make _ _

theorem ofBytes?_eq_some_iff {record : Bytes} {t : Tuple} :
    ofBytes? record = some t ↔ t.bytes = record := by
  unfold ofBytes?
  split
  · constructor
    · intro h
      injection h with h
      rw [← h]
    · intro h
      exact congrArg some (ext h.symm)
  · rename_i h
    constructor
    · intro h'
      cases h'
    · intro h'
      exact absurd (h' ▸ t.size_le) h

theorem ofBytes?_bytes (t : Tuple) : ofBytes? t.bytes = some t := ofBytes?_eq_some_iff.mpr rfl

theorem ofBytes?_eq_none_iff {record : Bytes} :
    ofBytes? record = none ↔ record.length < Stamp.size := by
  unfold ofBytes?
  split <;> simp_all

end Tuple

/-! ## Stored records -/

/-- The stamp with its two times. -/
def Stamp.debug (s : Stamp) : String :=
  Text.fields "TimestampSet" [("wts", s!"{s.wts.toNat}"), ("rts", s!"{s.rts.toNat}")]

namespace Tuple

/-- The tuple with its stamp and the length of its value. -/
def debug (t : Tuple) : String :=
  Text.fields "Tuple" [("ts", t.stamp.debug), ("value_len", s!"{t.value.length}")]

/-- Takes the record under `key` as a tuple. -/
def ofRecord (key : Key) (record : Bytes) : Except Error Tuple :=
  match ofBytes? record with
  | some t => .ok t
  | none => .error (.corruption key (.short record.length))

theorem ofRecord_eq_ok_iff {key : Key} {record : Bytes} {t : Tuple} :
    ofRecord key record = .ok t ↔ t.bytes = record := by
  rw [← ofBytes?_eq_some_iff, ofRecord]
  split <;> simp_all

theorem ofRecord_bytes (key : Key) (t : Tuple) : ofRecord key t.bytes = .ok t :=
  ofRecord_eq_ok_iff.mpr rfl

theorem ofRecord_short {key : Key} {record : Bytes} (h : record.length < Stamp.size) :
    ofRecord key record = .error (.corruption key (.short record.length)) := by
  rw [ofRecord, ofBytes?_eq_none_iff.mpr h]

end Tuple

end StampStore
