-- Byte strings, and whole numbers written in a fixed number of bytes, lowest
-- byte first. Writing and then reading gives the number back up to the width,
-- and every byte string is the writing of the number it reads as.

namespace StampStore

/-- A byte string: a key, a value, a delta or a stored record. -/
abbrev Bytes := List UInt8

namespace Bytes

/-! ## Numbers as bytes, lowest byte first -/

/-- The `width` lowest bytes of `n`, lowest first. -/
def littleEndian : Nat → Nat → Bytes
  | 0, _ => []
  | width + 1, n => UInt8.ofNat n :: littleEndian width (n / 256)

/-- The number whose bytes, lowest first, are `bs`. -/
def ofLittleEndian : Bytes → Nat
  | [] => 0
  | b :: bs => b.toNat + 256 * ofLittleEndian bs

@[simp] theorem length_littleEndian (width n : Nat) : (littleEndian width n).length = width := by
  induction width generalizing n with
  | zero => rfl
  | succ width ih => simp [littleEndian, ih]

theorem ofLittleEndian_littleEndian (width n : Nat) :
    ofLittleEndian (littleEndian width n) = n % Nat.pow 256 width := by
  rw [Nat.pow_eq]
  induction width generalizing n with
  | zero => simp [littleEndian, ofLittleEndian, Nat.mod_one]
  | succ width ih =>
    simp only [littleEndian, ofLittleEndian, ih, UInt8.toNat_ofNat']
    rw [Nat.pow_succ 256, Nat.mul_comm (256 ^ width) 256, Nat.mod_mul]

theorem ofLittleEndian_lt (bs : Bytes) : ofLittleEndian bs < Nat.pow 256 bs.length := by
  rw [Nat.pow_eq]
  induction bs with
  | nil => simp [ofLittleEndian]
  | cons b bs ih =>
    have hb := b.toNat_lt
    simp only [ofLittleEndian, List.length_cons, Nat.pow_succ]
    omega

theorem littleEndian_ofLittleEndian (bs : Bytes) :
    littleEndian bs.length (ofLittleEndian bs) = bs := by
  induction bs with
  | nil => rfl
  | cons b bs ih =>
    have hb := b.toNat_lt
    have hdiv : (b.toNat + 256 * ofLittleEndian bs) / 256 = ofLittleEndian bs := by omega
    have hhead : UInt8.ofNat (b.toNat + 256 * ofLittleEndian bs) = b := by
      apply UInt8.toNat_inj.mp
      simp only [UInt8.toNat_ofNat']
      omega
    simp only [ofLittleEndian, List.length_cons, littleEndian, hdiv, ih, hhead]

end Bytes

end StampStore
