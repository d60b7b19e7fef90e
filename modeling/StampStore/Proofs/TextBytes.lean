-- Texts as bytes. The bytes of a character are read as that character and as nothing
-- less, so a text comes back from its bytes.
import StampStore.Text.Utf8

namespace StampStore.Utf8

/-! ## The bytes of one character -/

/-- A code point that is no surrogate. -/
def IsScalar (n : Nat) : Prop := n < 0xD800 ∨ 0xDFFF < n ∧ n < 0x110000

theorem isScalar_toNat (c : Char) : IsScalar c.toNat := c.valid

/-- A byte that begins a character of several bytes leaves the rest of them due. -/
theorem piecesFrom_begin {b : UInt8} {p : Pending} (h : lead b = .pending p) (bs : Bytes) :
    piecesFrom none (b :: bs) = piecesFrom (some p) bs := by
  simp only [piecesFrom, h]

/-- A byte behind the first one carries six bits. -/
theorem toNat_sixBits (k : Nat) : (UInt8.ofNat (0x80 + k % 64)).toNat = 0x80 + k % 64 :=
  UInt8.toNat_ofNat_of_lt' (by rw [UInt8.size]; omega)

/-- The last byte that is due ends the character. -/
theorem piecesFrom_end {n k low high : Nat} (hlow : low ≤ 0x80 + k % 64)
    (hhigh : 0x80 + k % 64 ≤ high) (bs : Bytes) :
    piecesFrom (some ⟨n, 1, low, high⟩) (UInt8.ofNat (0x80 + k % 64) :: bs) =
      some (Char.ofNat (n * 64 + k % 64)) :: piecesFrom none bs := by
  simp only [piecesFrom, toNat_sixBits, hlow, hhigh, and_self, if_true, Nat.add_sub_cancel_left]

/-- A byte before the last adds its six bits. -/
theorem piecesFrom_next {n k due low high : Nat} (hlow : low ≤ 0x80 + k % 64)
    (hhigh : 0x80 + k % 64 ≤ high) (bs : Bytes) :
    piecesFrom (some ⟨n, due + 2, low, high⟩) (UInt8.ofNat (0x80 + k % 64) :: bs) =
      piecesFrom (some ⟨n * 64 + k % 64, due + 1, 0x80, 0xBF⟩) bs := by
  have hdue : ¬ due + 2 = 1 := by omega
  simp only [piecesFrom, toNat_sixBits, hlow, hhigh, and_self, if_true, hdue, if_false,
    Nat.add_sub_cancel_left]
  rfl

theorem lead_two {n : Nat} (hlow : 0x80 ≤ n) (hhigh : n < 0x800) :
    lead (UInt8.ofNat (0xC0 + n / 64)) = .pending ⟨n / 64, 1, 0x80, 0xBF⟩ := by
  have hb : (UInt8.ofNat (0xC0 + n / 64)).toNat = 0xC0 + n / 64 :=
    UInt8.toNat_ofNat_of_lt' (by rw [UInt8.size]; omega)
  simp only [lead, hb]
  rw [if_neg (by omega), if_neg (by omega), if_pos (by omega), Nat.add_sub_cancel_left]

/-- The bounds on the second of three bytes leave out only what two bytes can say, and the
surrogates. -/
theorem lead_three {n : Nat} (hscalar : IsScalar n) (hlow : 0x800 ≤ n) (hhigh : n < 0x10000) :
    ∃ low high, lead (UInt8.ofNat (0xE0 + n / 4096)) = .pending ⟨n / 4096, 2, low, high⟩ ∧
      low ≤ 0x80 + n / 64 % 64 ∧ 0x80 + n / 64 % 64 ≤ high := by
  have hb : (UInt8.ofNat (0xE0 + n / 4096)).toNat = 0xE0 + n / 4096 :=
    UInt8.toNat_ofNat_of_lt' (by rw [UInt8.size]; omega)
  unfold IsScalar at hscalar
  simp only [lead, hb]
  rw [if_neg (by omega), if_neg (by omega), if_neg (by omega)]
  by_cases hfirst : n / 4096 = 0
  · rw [hfirst, if_pos rfl]
    exact ⟨0xA0, 0xBF, rfl, by omega, by omega⟩
  · rw [if_neg (by omega)]
    by_cases hsurrogates : n / 4096 = 13
    · rw [hsurrogates, if_pos rfl]
      exact ⟨0x80, 0x9F, rfl, by omega, by omega⟩
    · rw [if_neg (by omega), if_pos (by omega), Nat.add_sub_cancel_left]
      exact ⟨0x80, 0xBF, rfl, by omega, by omega⟩

/-- The bounds on the second of four bytes leave out only what three bytes can say, and what is past
the last code point. -/
theorem lead_four {n : Nat} (hscalar : IsScalar n) (hlow : 0x10000 ≤ n) :
    ∃ low high, lead (UInt8.ofNat (0xF0 + n / 262144)) = .pending ⟨n / 262144, 3, low, high⟩ ∧
      low ≤ 0x80 + n / 4096 % 64 ∧ 0x80 + n / 4096 % 64 ≤ high := by
  unfold IsScalar at hscalar
  have hb : (UInt8.ofNat (0xF0 + n / 262144)).toNat = 0xF0 + n / 262144 :=
    UInt8.toNat_ofNat_of_lt' (by rw [UInt8.size]; omega)
  simp only [lead, hb]
  rw [if_neg (by omega), if_neg (by omega), if_neg (by omega), if_neg (by omega),
    if_neg (by omega), if_neg (by omega)]
  by_cases hfirst : n / 262144 = 0
  · rw [hfirst, if_pos rfl]
    exact ⟨0x90, 0xBF, rfl, by omega, by omega⟩
  · rw [if_neg (by omega)]
    by_cases hlast : n / 262144 = 4
    · rw [hlast, if_neg (by omega), if_pos rfl]
      exact ⟨0x80, 0x8F, rfl, by omega, by omega⟩
    · rw [if_pos (by omega), Nat.add_sub_cancel_left]
      exact ⟨0x80, 0xBF, rfl, by omega, by omega⟩

theorem piecesFrom_encodeChar (c : Char) (bs : Bytes) :
    piecesFrom none (encodeChar c ++ bs) = some c :: piecesFrom none bs := by
  have hscalar := isScalar_toNat c
  have hc : Char.ofNat c.toNat = c := Char.ofNat_toNat c
  unfold encodeChar
  generalize c.toNat = n at hscalar hc
  simp only
  by_cases hone : n < 0x80
  · have hb : (UInt8.ofNat n).toNat = n :=
      UInt8.toNat_ofNat_of_lt' (by rw [UInt8.size]; omega)
    simp only [if_pos hone, List.cons_append, List.nil_append, piecesFrom, lead, hb, hc]
  by_cases htwo : n < 0x800
  · have hbits : n / 64 * 64 + n % 64 = n := by omega
    rw [if_neg hone, if_pos htwo]
    simp only [List.cons_append, List.nil_append]
    rw [piecesFrom_begin (lead_two (by omega) htwo), piecesFrom_end (by omega) (by omega), hbits, hc]
  by_cases hthree : n < 0x10000
  · have hbits : (n / 4096 * 64 + n / 64 % 64) * 64 + n % 64 = n := by omega
    obtain ⟨low, high, hlead, hlow, hhigh⟩ := lead_three hscalar (by omega) hthree
    rw [if_neg hone, if_neg htwo, if_pos hthree]
    simp only [List.cons_append, List.nil_append]
    rw [piecesFrom_begin hlead, piecesFrom_next hlow hhigh, piecesFrom_end (by omega) (by omega),
      hbits, hc]
  · have hbits : ((n / 262144 * 64 + n / 4096 % 64) * 64 + n / 64 % 64) * 64 + n % 64 = n := by
      omega
    obtain ⟨low, high, hlead, hlow, hhigh⟩ := lead_four hscalar (by omega)
    rw [if_neg hone, if_neg htwo, if_neg hthree]
    simp only [List.cons_append, List.nil_append]
    rw [piecesFrom_begin hlead, piecesFrom_next hlow hhigh, piecesFrom_next (by omega) (by omega),
      piecesFrom_end (by omega) (by omega), hbits, hc]

/-! ## The bytes of a text -/

theorem pieces_encode (text : List Char) : pieces (encode text) = text.map some := by
  induction text with
  | nil => rfl
  | cons c text ih =>
    rw [pieces, encode, List.flatMap_cons, piecesFrom_encodeChar, List.map_cons]
    exact congrArg (some c :: ·) ih

theorem wellFormed?_map_some (text : List Char) : wellFormed? (text.map some) = some text := by
  induction text with
  | nil => rfl
  | cons c text ih => simp [wellFormed?, ih]

/-- A text comes back from its bytes. -/
theorem decode?_encode (text : List Char) : decode? (encode text) = some text := by
  rw [decode?, pieces_encode, wellFormed?_map_some]

end StampStore.Utf8
