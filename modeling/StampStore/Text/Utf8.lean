-- UTF-8. Bytes are read as characters and ill-formed pieces: a piece is as long
-- as it could still have become a character, so each one is replaced by exactly
-- one replacement character when a text has to be shown anyway.
import StampStore.Bytes

namespace StampStore.Utf8

/-! ## Writing -/

/-- The bytes of one character. -/
def encodeChar (c : Char) : Bytes :=
  let n := c.toNat
  if n < 0x80 then [UInt8.ofNat n]
  else if n < 0x800 then [UInt8.ofNat (0xC0 + n / 64), UInt8.ofNat (0x80 + n % 64)]
  else if n < 0x10000 then
    [UInt8.ofNat (0xE0 + n / 4096), UInt8.ofNat (0x80 + n / 64 % 64), UInt8.ofNat (0x80 + n % 64)]
  else
    [UInt8.ofNat (0xF0 + n / 262144), UInt8.ofNat (0x80 + n / 4096 % 64),
      UInt8.ofNat (0x80 + n / 64 % 64), UInt8.ofNat (0x80 + n % 64)]

/-- The bytes of a text. -/
def encode (text : List Char) : Bytes := text.flatMap encodeChar

/-! ## Reading -/

/-- A character that has begun: its bits so far, the bytes still due, and the bounds on the
next one. -/
structure Pending where
  bits : Nat
  due : Nat
  low : Nat
  high : Nat

/-- What a byte begins. -/
inductive Lead where
  | char (c : Char)
  | pending (p : Pending)
  | none

/-- The bounds on the second byte rule out overlong forms, surrogates and numbers past the last
code point. -/
def lead (b : UInt8) : Lead :=
  let n := b.toNat
  if n < 0x80 then .char (Char.ofNat n)
  else if n < 0xC2 then .none
  else if n < 0xE0 then .pending ⟨n - 0xC0, 1, 0x80, 0xBF⟩
  else if n = 0xE0 then .pending ⟨0, 2, 0xA0, 0xBF⟩
  else if n = 0xED then .pending ⟨n - 0xE0, 2, 0x80, 0x9F⟩
  else if n < 0xF0 then .pending ⟨n - 0xE0, 2, 0x80, 0xBF⟩
  else if n = 0xF0 then .pending ⟨0, 3, 0x90, 0xBF⟩
  else if n < 0xF4 then .pending ⟨n - 0xF0, 3, 0x80, 0xBF⟩
  else if n = 0xF4 then .pending ⟨4, 3, 0x80, 0x8F⟩
  else .none

/-- The characters of `bs`, with `none` for each ill-formed piece; `p` is the character that
has begun before `bs`. -/
def piecesFrom (p : Option Pending) : Bytes → List (Option Char)
  | [] =>
    match p with
    | none => []
    | some _ => [none]
  | b :: bs =>
    let fresh :=
      match lead b with
      | .char c => some c :: piecesFrom none bs
      | .pending q => piecesFrom (some q) bs
      | .none => none :: piecesFrom none bs
    match p with
    | none => fresh
    | some q =>
      if q.low ≤ b.toNat ∧ b.toNat ≤ q.high then
        let bits := q.bits * 64 + (b.toNat - 0x80)
        if q.due = 1 then some (Char.ofNat bits) :: piecesFrom none bs
        else piecesFrom (some ⟨bits, q.due - 1, 0x80, 0xBF⟩) bs
      else none :: fresh

/-- The characters of `bs`, with `none` for each ill-formed piece. -/
def pieces (bs : Bytes) : List (Option Char) := piecesFrom none bs

/-- All the characters, if no piece is ill-formed. -/
def wellFormed? : List (Option Char) → Option (List Char)
  | [] => some []
  | some c :: l => (wellFormed? l).map (c :: ·)
  | none :: _ => none

/-- The text of `bs`, if they are well-formed. -/
def decode? (bs : Bytes) : Option (List Char) := wellFormed? (pieces bs)

/-- The text of `bs`, with one replacement character for each ill-formed piece. -/
def decodeLossy (bs : Bytes) : List Char := (pieces bs).map fun c => c.getD '\uFFFD'

end StampStore.Utf8
