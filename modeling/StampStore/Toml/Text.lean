-- TOML strings in their four forms: quoted with escapes or taken literally, on
-- one line or on several. Reading a written string gives the string back.

namespace StampStore.Toml

/-- What a reader gives: the value read and the characters behind it. -/
abbrev Parse (α : Type) := Option (α × List Char)

/-- Puts a character in front of the text that is read. -/
def Parse.push (c : Char) (p : Parse (List Char)) : Parse (List Char) :=
  p.map fun read => (c :: read.1, read.2)

/-! ## Characters -/

/-- A blank within a line. -/
def isBlank (c : Char) : Bool := c = ' ' || c = '\t'

/-- A character that may stand in a comment or a string. -/
def isVisible (c : Char) : Bool :=
  c = '\t' || decide (0x20 ≤ c.toNat ∧ c.toNat ≤ 0x7E) || decide (0x80 ≤ c.toNat)

/-- A control character, of which only tabs and line ends can be written unescaped. -/
def isControl (c : Char) : Bool := decide (c.toNat ≤ 0x1F) || c.toNat = 0x7F

/-- The value of a digit in a base up to sixteen. -/
def digitValue? (base : Nat) (c : Char) : Option Nat :=
  let n := c.toNat
  let value :=
    if 0x30 ≤ n ∧ n ≤ 0x39 then n - 0x30
    else if 0x41 ≤ n ∧ n ≤ 0x46 then n - 0x37
    else if 0x61 ≤ n ∧ n ≤ 0x66 then n - 0x57
    else base
  if value < base then some value else none

/-- The number that digits spell in a base. -/
def ofDigits (base : Nat) (digits : List Nat) : Nat :=
  digits.foldl (fun n digit => n * base + digit) 0

/-- The digits that characters stand for, if all do. -/
def digitValues? (base : Nat) : List Char → Option (List Nat)
  | [] => some []
  | c :: cs =>
    match digitValue? base c with
    | none => none
    | some digit => (digitValues? base cs).map (digit :: ·)

/-- The character of a code point spelled in hexadecimal; surrogates are none. -/
def codePoint? (spelling : List Char) : Option Char :=
  match digitValues? 16 spelling with
  | none => none
  | some digits =>
    let n := ofDigits 16 digits
    if n.isValidChar then some (Char.ofNat n) else none

/-- The character that stands behind a backslash for another one. -/
def shortEscape? (c : Char) : Option Char :=
  if c = 'b' then some '\x08'
  else if c = 't' then some '\t'
  else if c = 'n' then some '\n'
  else if c = 'f' then some '\x0c'
  else if c = 'r' then some '\r'
  else if c = '"' then some '"'
  else if c = '\\' then some '\\'
  else none

/-! ## Reading -/

/-- Reads the rest of a quoted string on one line. -/
def readBasic : List Char → Parse (List Char)
  | [] => none
  | c :: cs =>
    if c = '"' then some ([], cs)
    else if c = '\\' then
      match cs with
      | 'u' :: a :: b :: c :: d :: rest =>
        match codePoint? [a, b, c, d] with
        | none => none
        | some x => Parse.push x (readBasic rest)
      | 'U' :: a :: b :: c :: d :: e :: f :: g :: h :: rest =>
        match codePoint? [a, b, c, d, e, f, g, h] with
        | none => none
        | some x => Parse.push x (readBasic rest)
      | e :: rest =>
        match shortEscape? e with
        | none => none
        | some x => Parse.push x (readBasic rest)
      | [] => none
    else if isVisible c then Parse.push c (readBasic cs)
    else none

/-- Reads the rest of a literal string on one line. -/
def readLiteral : List Char → Parse (List Char)
  | [] => none
  | c :: cs =>
    if c = '\'' then some ([], cs)
    else if isVisible c then Parse.push c (readLiteral cs)
    else none

/-- The end of a string of several lines behind its first closing quote. Up to two quotes more
than the closing three belong to the text. -/
def closing (quote : Char) : List Char → Parse (List Char)
  | a :: b :: cs =>
    if a = quote ∧ b = quote then
      match cs with
      | c :: d :: rest =>
        if c = quote ∧ d = quote then some ([quote, quote], rest)
        else if c = quote then some ([quote], d :: rest)
        else some ([], cs)
      | [c] => if c = quote then some ([quote], []) else some ([], cs)
      | [] => some ([], [])
    else none
  | _ => none

/-- Where a reader of several lines stands: in the text, behind a backslash that ends its line,
or in the blanks that such a backslash drops. -/
inductive Fold where
  | text
  | lineEnd
  | dropping
  deriving DecidableEq

/-- Reads the rest of a quoted string of several lines. -/
def readBasicLines (fold : Fold) : List Char → Parse (List Char)
  | [] => none
  | c :: cs =>
    if fold = .lineEnd ∧ isBlank c then readBasicLines .lineEnd cs
    else if fold = .dropping ∧ isBlank c then readBasicLines .dropping cs
    else if c = '\n' then
      match fold with
      | .text => Parse.push '\n' (readBasicLines .text cs)
      | .lineEnd => readBasicLines .dropping cs
      | .dropping => readBasicLines .dropping cs
    else if c = '\r' then
      match cs with
      | '\n' :: rest =>
        match fold with
        | .text => Parse.push '\n' (readBasicLines .text rest)
        | .lineEnd => readBasicLines .dropping rest
        | .dropping => readBasicLines .dropping rest
      | _ => none
    else if fold = .lineEnd then none
    else if c = '"' then
      match closing '"' cs with
      | some done => some done
      | none => Parse.push '"' (readBasicLines .text cs)
    else if c = '\\' then
      match cs with
      | 'u' :: a :: b :: c :: d :: rest =>
        match codePoint? [a, b, c, d] with
        | none => none
        | some x => Parse.push x (readBasicLines .text rest)
      | 'U' :: a :: b :: c :: d :: e :: f :: g :: h :: rest =>
        match codePoint? [a, b, c, d, e, f, g, h] with
        | none => none
        | some x => Parse.push x (readBasicLines .text rest)
      | e :: rest =>
        match shortEscape? e with
        | none => readBasicLines .lineEnd (e :: rest)
        | some x => Parse.push x (readBasicLines .text rest)
      | [] => none
    else if isVisible c then Parse.push c (readBasicLines .text cs)
    else none

/-- Reads the rest of a literal string of several lines. -/
def readLiteralLines : List Char → Parse (List Char)
  | [] => none
  | c :: cs =>
    if c = '\n' then Parse.push '\n' (readLiteralLines cs)
    else if c = '\r' then
      match cs with
      | '\n' :: rest => Parse.push '\n' (readLiteralLines rest)
      | _ => none
    else if c = '\'' then
      match closing '\'' cs with
      | some done => some done
      | none => Parse.push '\'' (readLiteralLines cs)
    else if isVisible c then Parse.push c (readLiteralLines cs)
    else none

/-- Drops the line end that may follow the opening of a string of several lines. -/
def skipLineEnd : List Char → List Char
  | '\n' :: cs => cs
  | '\r' :: '\n' :: cs => cs
  | cs => cs

/-- Reads a string from its opening quote on. -/
def readText : List Char → Parse (List Char)
  | '"' :: '"' :: '"' :: cs => readBasicLines .text (skipLineEnd cs)
  | '"' :: cs => readBasic cs
  | '\'' :: '\'' :: '\'' :: cs => readLiteralLines (skipLineEnd cs)
  | '\'' :: cs => readLiteral cs
  | _ => none

/-! ## Writing -/

/-- An upper-case hexadecimal digit. -/
def hexDigit (n : Nat) : Char := (Nat.digitChar n).toUpper

/-- A character of a quoted string on one line. -/
def escape (c : Char) : List Char :=
  if c = '\x08' then ['\\', 'b']
  else if c = '\t' then ['\\', 't']
  else if c = '\n' then ['\\', 'n']
  else if c = '\x0c' then ['\\', 'f']
  else if c = '\r' then ['\\', 'r']
  else if c = '"' then ['\\', '"']
  else if c = '\\' then ['\\', '\\']
  else if isControl c then
    ['\\', 'u', '0', '0', hexDigit (c.toNat / 16), hexDigit (c.toNat % 16)]
  else [c]

/-- The characters of a quoted string of several lines. Line ends stand for themselves, and so
do up to two quotes in a row; `run` of them are right before the text. -/
def escapeLines (run : Nat) : List Char → List Char
  | [] => []
  | c :: cs =>
    if c = '"' then
      if run < 2 then '"' :: escapeLines (run + 1) cs else '\\' :: '"' :: escapeLines 0 cs
    else if c = '\n' then '\n' :: escapeLines 0 cs
    else escape c ++ escapeLines 0 cs

/-- The four forms of a string. -/
inductive Form where
  /-- Quoted, on one line. -/
  | basic
  /-- Taken literally, on one line. -/
  | literal
  /-- Quoted, on several lines. -/
  | basicLines
  /-- Taken literally, on several lines. -/
  | literalLines
  deriving DecidableEq, Repr

/-- Whether at most `limit` of `quote` follow each other, with `run` of them right before the
text. -/
def runsWithin (quote : Char) (limit run : Nat) : List Char → Bool
  | [] => true
  | c :: cs =>
    if c = quote then decide (run < limit) && runsWithin quote limit (run + 1) cs
    else runsWithin quote limit 0 cs

/-- Whether a text has a character that only an escape can say. -/
def needsEscape (text : List Char) : Bool :=
  text.any fun c => isControl c && c != '\t' && c != '\n'

/-- The form a string is written in: the first of the four that needs no escapes, a tab apart.
Where none does, quotes, on several lines if the text has line ends. -/
def Form.of (text : List Char) : Form :=
  let lines := text.contains '\n'
  let coded := needsEscape text
  let plain := !coded && !text.contains '\\'
  if plain && !lines && !text.contains '"' then .basic
  else if !coded && !lines && !text.contains '\'' then .literal
  else if plain && runsWithin '"' 2 0 text then .basicLines
  else if !coded && runsWithin '\'' 2 0 text then .literalLines
  else if lines then .basicLines
  else .basic

/-- Writes a string. A text with line ends begins on the line behind its opening. -/
def writeText (text : List Char) : List Char :=
  let opening := if text.contains '\n' then ['\n'] else []
  match Form.of text with
  | .basic => '"' :: text.flatMap escape ++ ['"']
  | .literal => '\'' :: text ++ ['\'']
  | .basicLines =>
    "\"\"\"".toList ++ opening ++ escapeLines 0 text ++ "\"\"\"".toList
  | .literalLines => "'''".toList ++ opening ++ text ++ "'''".toList

end StampStore.Toml
