-- Timestamps. Every version of a record carries a stamp: the logical time it
-- was written at, and the latest logical time it is known to be readable at.
-- A stamp is eight bytes in front of the value, the write time first.
import StampStore.Bytes

namespace StampStore

/-- Logical time. -/
abbrev Timestamp := UInt32

namespace Timestamp

/-- The bytes of one timestamp. -/
def size : Nat := 4

/-- The time right after `t`; the last timestamp has none. -/
def next? (t : Timestamp) : Option Timestamp :=
  if t.toNat + 1 < UInt32.size then some (t + 1) else none

/-- The four bytes of `t`. -/
def encode (t : Timestamp) : Bytes := Bytes.littleEndian size t.toNat

/-- Reads a timestamp from exactly four bytes. -/
def decode (bs : Bytes) : Option Timestamp :=
  if bs.length = size then some (UInt32.ofNat (Bytes.ofLittleEndian bs)) else none

@[simp] theorem length_encode (t : Timestamp) : (encode t).length = size :=
  Bytes.length_littleEndian _ _

theorem ofNat_ofLittleEndian_encode (t : Timestamp) :
    UInt32.ofNat (Bytes.ofLittleEndian (encode t)) = t := by
  apply UInt32.toNat_inj.mp
  have ht := t.toNat_lt
  simp only [encode, size, Bytes.ofLittleEndian_littleEndian, Nat.pow_eq, UInt32.toNat_ofNat']
  omega

@[simp] theorem decode_encode (t : Timestamp) : decode (encode t) = some t := by
  simp [decode, ofNat_ofLittleEndian_encode]

theorem encode_ofNat_ofLittleEndian {bs : Bytes} (h : bs.length = size) :
    encode (UInt32.ofNat (Bytes.ofLittleEndian bs)) = bs := by
  have hlt := Bytes.ofLittleEndian_lt bs
  rw [h] at hlt
  have hnat : (UInt32.ofNat (Bytes.ofLittleEndian bs)).toNat = Bytes.ofLittleEndian bs := by
    simp only [UInt32.toNat_ofNat']
    exact Nat.mod_eq_of_lt hlt
  rw [encode, hnat, ← h]
  exact Bytes.littleEndian_ofLittleEndian bs

theorem next?_eq_some_iff {t u : Timestamp} : next? t = some u ↔ u.toNat = t.toNat + 1 := by
  have ht := t.toNat_lt
  have hu := u.toNat_lt
  unfold next?
  split
  · rename_i h
    simp only [Option.some.injEq, ← UInt32.toNat_inj, UInt32.toNat_add]
    simp only [UInt32.size] at h
    simp only [UInt32.reduceToNat]
    omega
  · rename_i h
    simp only [UInt32.size] at h
    simp only [reduceCtorEq, false_iff]
    omega

theorem next?_eq_none_iff {t : Timestamp} : next? t = none ↔ t.toNat = UInt32.size - 1 := by
  have ht := t.toNat_lt
  unfold next?
  split <;> rename_i h <;> simp only [UInt32.size] at h <;> simp <;> omega

end Timestamp

/-- The write time and the read time of one version of a record. -/
structure Stamp where
  wts : Timestamp
  rts : Timestamp
  deriving DecidableEq, Repr, Inhabited

namespace Stamp

/-- The bytes of a stamp. -/
def size : Nat := 8

/-- The stamp of a key that was never written, and of a buffered write. -/
def zero : Stamp := ⟨0, 0⟩

/-- The stamp of a version that is committed at `t`. -/
def committedAt (t : Timestamp) : Stamp := ⟨t, t⟩

/-- A stored version is readable at the time it was written. -/
def WellFormed (s : Stamp) : Prop := s.wts ≤ s.rts

instance (s : Stamp) : Decidable s.WellFormed := inferInstanceAs (Decidable (s.wts ≤ s.rts))

/-- The stamp with its read time raised to `t`, never lowered. -/
def raiseRts (s : Stamp) (t : Timestamp) : Stamp := { s with rts := max s.rts t }

/-! ## Bytes of a stamp -/

/-- The write time and then the read time. -/
def encode (s : Stamp) : Bytes := s.wts.encode ++ s.rts.encode

/-- Reads a stamp from the first eight bytes; what follows does not matter. -/
def decode (bs : Bytes) : Option Stamp :=
  if bs.length < size then none
  else some
    ⟨UInt32.ofNat (Bytes.ofLittleEndian (bs.take Timestamp.size)),
      UInt32.ofNat (Bytes.ofLittleEndian ((bs.drop Timestamp.size).take Timestamp.size))⟩

/-- Overwrites the first eight bytes of `buffer`; a shorter buffer has no room. -/
def encodeInto (s : Stamp) (buffer : Bytes) : Option Bytes :=
  if buffer.length < size then none else some (s.encode ++ buffer.drop size)

@[simp] theorem length_encode (s : Stamp) : s.encode.length = size := by
  simp [encode, Timestamp.size, size]

theorem decode_encode_append (s : Stamp) (rest : Bytes) :
    decode (s.encode ++ rest) = some s := by
  have hlen : ¬ (s.encode ++ rest).length < size := by simp
  have htake : (s.encode ++ rest).take Timestamp.size = s.wts.encode := by
    rw [encode, List.append_assoc, List.take_left' (Timestamp.length_encode _)]
  have hdrop : ((s.encode ++ rest).drop Timestamp.size).take Timestamp.size = s.rts.encode := by
    rw [encode, List.append_assoc, List.drop_left' (Timestamp.length_encode _),
      List.take_left' (Timestamp.length_encode _)]
  rw [decode, if_neg hlen, htake, hdrop, Timestamp.ofNat_ofLittleEndian_encode,
    Timestamp.ofNat_ofLittleEndian_encode]

theorem encode_of_decode {bs : Bytes} {s : Stamp} (h : decode bs = some s) :
    s.encode ++ bs.drop size = bs := by
  unfold decode at h
  split at h
  · cases h
  · rename_i hlen
    injection h with h
    subst h
    simp only [size] at hlen
    rw [encode, Timestamp.encode_ofNat_ofLittleEndian (by simp [Timestamp.size]; omega),
      Timestamp.encode_ofNat_ofLittleEndian (by simp [Timestamp.size]; omega)]
    have hsplit : bs.drop size = (bs.drop Timestamp.size).drop Timestamp.size := by
      rw [List.drop_drop]; rfl
    rw [hsplit, List.append_assoc, List.take_append_drop, List.take_append_drop]

theorem decode_eq_none_iff {bs : Bytes} : decode bs = none ↔ bs.length < size := by
  unfold decode
  split <;> simp_all

end Stamp

end StampStore
