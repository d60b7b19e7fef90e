-- Reading TOML documents: keys, values, lines, and the tree the lines make.
-- Values may be nested and keys dotted less than eighty deep.
import StampStore.Toml.Scalar

namespace StampStore.Toml

/-- How deep values may be nested and how long dotted keys may be. -/
def depthLimit : Nat := 80

/-! ## Blanks and line ends -/

/-- Drops the blanks in front. -/
def skipBlanks (cs : List Char) : List Char := cs.dropWhile isBlank

/-- Drops a line end; the end of the document is one too. -/
def skipNewline : List Char → Option (List Char)
  | [] => some []
  | '\n' :: cs => some cs
  | '\r' :: '\n' :: cs => some cs
  | _ => none

/-- Drops what may stand behind a value or header: blanks, a comment and the line end. -/
def skipLine (cs : List Char) : Option (List Char) :=
  match skipBlanks cs with
  | '#' :: comment => skipNewline (comment.dropWhile isVisible)
  | cs => skipNewline cs

/-- Drops blanks, comments and line ends within an array. A comment there has to end. -/
def skipSpace : Nat → List Char → Option (List Char)
  | 0, _ => none
  | fuel + 1, cs =>
    match skipBlanks cs with
    | '#' :: comment =>
      match comment.dropWhile isVisible with
      | '\n' :: cs => skipSpace fuel cs
      | '\r' :: '\n' :: cs => skipSpace fuel cs
      | _ => none
    | '\n' :: cs => skipSpace fuel cs
    | '\r' :: '\n' :: cs => skipSpace fuel cs
    | '\r' :: _ => none
    | cs => some cs

/-! ## Keys -/

/-- A character of a key without quotes. -/
def isBareKeyChar (c : Char) : Bool := c.isAlphanum || c = '_' || c = '-'

/-- Reads one key. -/
def readKey : List Char → Parse (List Char)
  | '"' :: cs => readBasic cs
  | '\'' :: cs => readLiteral cs
  | cs =>
    match cs.takeWhile isBareKeyChar with
    | [] => none
    | key => some (key, cs.dropWhile isBareKeyChar)

/-- Reads keys with dots between them, and blanks around each. -/
def readDotted : Nat → List Char → Parse (List (List Char))
  | 0, _ => none
  | fuel + 1, cs =>
    match readKey (skipBlanks cs) with
    | none => none
    | some (key, cs) =>
      match skipBlanks cs with
      | '.' :: cs => (readDotted fuel cs).map fun read => (key :: read.1, read.2)
      | cs => some ([key], cs)

/-- A dotted key as the path to a table and a key in it. -/
def splitLast : List (List Char) → Option (List (List Char) × List Char)
  | [] => none
  | keys => keys.getLast?.map fun last => (keys.dropLast, last)

/-- Reads a dotted key. -/
def readPath (cs : List Char) : Parse (List (List Char) × List Char) :=
  match readDotted depthLimit cs with
  | none => none
  | some (keys, cs) =>
    if keys.length < depthLimit then (splitLast keys).map fun path => (path, cs) else none

/-- Reads a dotted key, an equals sign and a value. -/
def readPair (value : List Char → Parse Node) (cs : List Char) : Parse Entries.Pair :=
  match readPath cs with
  | some ((path, key), '=' :: cs) =>
    (value (skipBlanks cs)).map fun read => ((path, key, read.1), read.2)
  | _ => none

/-! ## Values -/

/-- Reads the rest of an array, with commas between the items and perhaps behind them. -/
def readItems (value : List Char → Parse Node) : Nat → List Char → Parse (List Node)
  | 0, _ => none
  | fuel + 1, cs =>
    match skipSpace (cs.length + 1) cs with
    | none => none
    | some (']' :: cs) => some ([], cs)
    | some cs =>
      match value cs with
      | none => none
      | some (item, cs) =>
        match skipSpace (cs.length + 1) cs with
        | some (',' :: cs) =>
          (readItems value fuel cs).map fun read => (item :: read.1, read.2)
        | some (']' :: cs) => some ([item], cs)
        | _ => none

/-- Reads the rest of an inline table from a pair on, with commas between the pairs only. -/
def readPairs (value : List Char → Parse Node) : Nat → List Char → Parse (List Entries.Pair)
  | 0, _ => none
  | fuel + 1, cs =>
    match readPair value cs with
    | none => none
    | some (pair, cs) =>
      match skipBlanks cs with
      | ',' :: cs => (readPairs value fuel cs).map fun read => (pair :: read.1, read.2)
      | '\x7d' :: cs => some ([pair], cs)
      | _ => none

/-- The rest of an inline table as a table. -/
def readInline (value : List Char → Parse Node) (cs : List Char) : Parse Node :=
  match skipBlanks cs with
  | '\x7d' :: cs => some (.table .inline [], cs)
  | cs =>
    match readPairs value (cs.length + 1) cs with
    | none => none
    | some (pairs, cs) =>
      (Entries.insertPairs pairs []).map fun entries => (.table .inline entries, cs)

/-- Reads a value that holds other values at most `depth` deep. -/
def readValue : Nat → List Char → Parse Node
  | depth, '[' :: cs =>
    match depth with
    | 0 => none
    | depth + 1 =>
      (readItems (readValue depth) (cs.length + 1) cs).map fun read => (.array read.1, read.2)
  | depth, '\x7b' :: cs =>
    match depth with
    | 0 => none
    | depth + 1 => readInline (readValue depth) cs
  | _, '"' :: cs => (readText ('"' :: cs)).map fun read => (.text read.1, read.2)
  | _, '\'' :: cs => (readText ('\'' :: cs)).map fun read => (.text read.1, read.2)
  | _, cs => readScalar cs

/-! ## Lines -/

/-- A header, with the path to what it opens: a table, or a row of a table array. -/
inductive Header where
  | table (path : List (List Char)) (key : List Char)
  | row (path : List (List Char)) (key : List Char)

/-- A line of a document that says something. -/
inductive Line where
  | pair (p : Entries.Pair)
  | header (h : Header)

/-- Reads a header from behind its opening brackets on. -/
def readHeader (closing : List Char) (cs : List Char) :
    Parse (List (List Char) × List Char) :=
  match readPath cs with
  | none => none
  | some (path, cs) =>
    if closing.isPrefixOf cs then
      (skipLine (cs.drop closing.length)).map fun cs => (path, cs)
    else none

/-- Reads one line that says something. -/
def readLine : List Char → Parse Line
  | '[' :: '[' :: cs =>
    (readHeader [']', ']'] cs).map fun read => (.header (.row read.1.1 read.1.2), read.2)
  | '[' :: cs =>
    (readHeader [']'] cs).map fun read => (.header (.table read.1.1 read.1.2), read.2)
  | cs =>
    match readPair (readValue (depthLimit - 1)) cs with
    | none => none
    | some (pair, cs) => (skipLine cs).map fun cs => (.pair pair, cs)

/-- Reads all lines. -/
def readLines : Nat → List Char → Option (List Line)
  | 0, _ => none
  | fuel + 1, cs =>
    match skipBlanks cs with
    | [] => some []
    | '#' :: comment => (skipNewline (comment.dropWhile isVisible)).bind (readLines fuel)
    | '\n' :: cs => readLines fuel cs
    | '\r' :: cs => (skipNewline ('\r' :: cs)).bind (readLines fuel)
    | cs =>
      match readLine cs with
      | none => none
      | some (line, cs) => (readLines fuel cs).map (line :: ·)

/-! ## Documents -/

/-- The pairs in front of the first header, and each header with the pairs under it. -/
def blocks : List Line → List Entries.Pair × List (Header × List Entries.Pair)
  | [] => ([], [])
  | .pair p :: lines => (p :: (blocks lines).1, (blocks lines).2)
  | .header h :: lines => ([], (h, (blocks lines).1) :: (blocks lines).2)

/-- Adds a header with the pairs under it. -/
def addBlock (entries : Entries) (pairs : List Entries.Pair) : Header → Option Entries
  | .table path key => Entries.descend (Entries.openTable key pairs) path entries
  | .row path key => Entries.descend (Entries.openRow key pairs) path entries

/-- Adds headers in order. -/
def addBlocks : List (Header × List Entries.Pair) → Entries → Option Entries
  | [], entries => some entries
  | (header, pairs) :: rest, entries => (addBlock entries pairs header).bind (addBlocks rest)

/-- The tree that lines make. -/
def assemble (lines : List Line) : Option Entries :=
  match blocks lines with
  | (pairs, headed) => (Entries.insertPairs pairs []).bind (addBlocks headed)

/-- Drops a byte order mark. -/
def skipMark : List Char → List Char
  | '\uFEFF' :: cs => cs
  | cs => cs

/-- The root table of a document. -/
def read? (document : List Char) : Option Entries :=
  let cs := skipMark document
  (readLines (cs.length + 1) cs).bind assemble

end StampStore.Toml
