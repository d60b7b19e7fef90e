-- TOML numbers, truth values and dates. Each is one word of letters, digits and
-- signs, except that a blank may stand between a date and a time of day.
import StampStore.Toml.Node
import StampStore.Toml.Text

namespace StampStore.Toml

/-! ## Numbers -/

/-- The values of digits that may be grouped by single underscores between two of them;
`grouped` says whether a digit stands in front. -/
def groupedDigits? (base : Nat) (grouped : Bool) : List Char → Option (List Nat)
  | [] => if grouped then some [] else none
  | c :: cs =>
    if c = '_' then if grouped then groupedDigits? base false cs else none
    else
      match digitValue? base c with
      | none => none
      | some digit => (groupedDigits? base true cs).map (digit :: ·)

/-- The digits of a decimal number without sign; only zero itself starts with a zero. -/
def decimalDigits? (word : List Char) : Option (List Nat) :=
  match word with
  | '0' :: _ :: _ => none
  | _ => groupedDigits? 10 false word

/-- A word without its sign, and whether the sign is a minus. -/
def splitSign : List Char → Bool × List Char
  | '-' :: cs => (true, cs)
  | '+' :: cs => (false, cs)
  | cs => (false, cs)

/-- The number, if 64 bits with a sign can hold it. -/
def inRange? (n : Int) : Option Int :=
  if -(Nat.pow 2 63 : Int) ≤ n ∧ n < (Nat.pow 2 63 : Int) then some n else none

/-- A whole number: decimal with an optional sign, or hexadecimal, octal or binary. -/
def readInteger? (word : List Char) : Option Int :=
  match word with
  | '0' :: 'x' :: cs => (groupedDigits? 16 false cs).bind fun ds => inRange? (ofDigits 16 ds)
  | '0' :: 'o' :: cs => (groupedDigits? 8 false cs).bind fun ds => inRange? (ofDigits 8 ds)
  | '0' :: 'b' :: cs => (groupedDigits? 2 false cs).bind fun ds => inRange? (ofDigits 2 ds)
  | _ =>
    match splitSign word with
    | (negative, cs) =>
      (decimalDigits? cs).bind fun ds =>
        let n : Int := ofDigits 10 ds
        inRange? (if negative then -n else n)

/-- The parts of a word around the first mark. -/
def splitAtMark (isMark : Char → Bool) (word : List Char) : List Char × List Char :=
  (word.takeWhile fun c => !isMark c, word.dropWhile fun c => !isMark c)

/-- Whether a character stands in front of an exponent. -/
def isExponentMark (c : Char) : Bool := c = 'e' || c = 'E'

/-- The exponent that ends a word, zero when there is none. -/
def exponent? : List Char → Option Int
  | [] => some 0
  | _ :: cs =>
    match splitSign cs with
    | (negative, cs) =>
      (groupedDigits? 10 false cs).map fun ds =>
        let n : Int := ofDigits 10 ds
        if negative then -n else n

/-- Whether `digits` times a power of ten rounds past the largest finite double. -/
def overflows (digits : List Nat) (power : Int) : Bool :=
  let n := ofDigits 10 digits
  let magnitude := (digits.dropWhile (· == 0)).length + power
  let limit := Nat.pow 2 1024 - Nat.pow 2 970
  if n = 0 ∨ magnitude < 300 then false
  else if 320 < magnitude then true
  else if 0 ≤ power then decide (limit ≤ n * Nat.pow 10 power.toNat)
  else decide (limit * Nat.pow 10 (-power).toNat ≤ n)

/-- Whether a word spells a number with a fraction or an exponent. One that is too large to be
finite is refused unless it is negative. -/
def isFraction (word : List Char) : Bool :=
  match splitSign word with
  | (negative, cs) =>
    if cs = "inf".toList ∨ cs = "nan".toList then true
    else
      match splitAtMark (fun c => c = '.' || isExponentMark c) cs with
      | (_, []) => false
      | (whole, mark :: rest) =>
        let (places, tail) :=
          if mark = '.' then splitAtMark isExponentMark rest else ([], mark :: rest)
        match decimalDigits? whole, exponent? tail with
        | some whole, some power =>
          if mark = '.' then
            match groupedDigits? 10 false places with
            | none => false
            | some places =>
              negative || !overflows (whole ++ places) (power - places.length)
          else negative || !overflows whole power
        | _, _ => false

/-! ## Dates -/

/-- The number that two digits spell, if it is within bounds. -/
def twoDigits? (low high : Nat) (a b : Char) : Option Nat :=
  match digitValues? 10 [a, b] with
  | none => none
  | some digits =>
    let n := ofDigits 10 digits
    if low ≤ n ∧ n ≤ high then some n else none

/-- The days of a month. -/
def daysIn (year month : Nat) : Nat :=
  if month = 2 then
    if year % 4 = 0 ∧ (year % 100 ≠ 0 ∨ year % 400 = 0) then 29 else 28
  else if month = 4 ∨ month = 6 ∨ month = 9 ∨ month = 11 then 30
  else 31

/-- Drops a calendar date. -/
def skipDate : List Char → Option (List Char)
  | y :: e :: a :: r :: '-' :: m :: o :: '-' :: d :: f :: rest =>
    match digitValues? 10 [y, e, a, r], twoDigits? 1 12 m o, twoDigits? 1 31 d f with
    | some year, some month, some day =>
      if day ≤ daysIn (ofDigits 10 year) month then some rest else none
    | _, _, _ => none
  | _ => none

/-- Drops the fraction of a second. -/
def skipSecondFraction : List Char → Option (List Char)
  | '.' :: cs =>
    let rest := cs.dropWhile fun c => (digitValue? 10 c).isSome
    if rest.length < cs.length then some rest else none
  | cs => some cs

/-- Drops a time of day. -/
def skipTime : List Char → Option (List Char)
  | h :: o :: ':' :: m :: i :: ':' :: s :: e :: rest =>
    match twoDigits? 0 23 h o, twoDigits? 0 59 m i, twoDigits? 0 60 s e with
    | some _, some _, some _ => skipSecondFraction rest
    | _, _, _ => none
  | _ => none

/-- Whether the characters are a distance from universal time. -/
def isOffset : List Char → Bool
  | [c] => c = 'Z' || c = 'z'
  | [sign, h, o, ':', m, i] =>
    (sign = '+' || sign = '-') && (twoDigits? 0 23 h o).isSome && (twoDigits? 0 59 m i).isSome
  | _ => false

/-- Whether the characters are a time of day, perhaps with a distance from universal time. -/
def isTimeWithOffset (cs : List Char) : Bool :=
  match skipTime cs with
  | none => false
  | some rest => rest.isEmpty || isOffset rest

/-- Whether a word spells a date, a time of day, or both. -/
def isDate (word : List Char) : Bool :=
  match skipDate word with
  | some [] => true
  | some (c :: rest) => (c = 'T' || c = 't') && isTimeWithOffset rest
  | none => skipTime word == some []

/-! ## Words -/

/-- A character of a word. -/
def isWordChar (c : Char) : Bool :=
  c.isAlphanum || c = '_' || c = '+' || c = '-' || c = '.' || c = ':'

/-- The word in front, and the characters behind it. -/
def splitWord (cs : List Char) : List Char × List Char :=
  (cs.takeWhile isWordChar, cs.dropWhile isWordChar)

/-- The value that a word spells. -/
def ofWord? (word : List Char) : Option Node :=
  if word = "true".toList then some (.boolean true)
  else if word = "false".toList then some (.boolean false)
  else
    match readInteger? word with
    | some n => some (.integer n)
    | none =>
      if isFraction word then some (.fraction word)
      else if isDate word then some (.date word)
      else none

/-- Reads a value that is one word, or a date and a time of day with a blank between them. -/
def readScalar (cs : List Char) : Parse Node :=
  match splitWord cs with
  | (word, rest) =>
    match rest with
    | ' ' :: behind =>
      match splitWord behind with
      | (time, rest') =>
        if skipDate word = some [] ∧ isTimeWithOffset time then
          some (.date (word ++ ' ' :: time), rest')
        else (ofWord? word).map fun node => (node, rest)
    | _ => (ofWord? word).map fun node => (node, rest)

end StampStore.Toml
