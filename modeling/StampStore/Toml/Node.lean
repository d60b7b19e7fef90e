-- TOML documents as trees, and what may be added to a tree: a pair under a
-- dotted key, a table under a header, a row of a table array. Nothing is ever
-- defined twice, and a table written inline is closed for good.

namespace StampStore.Toml

/-- How a table came about, which decides what may still be added to it. -/
inductive Origin where
  /-- It is only on the way to a header. -/
  | implied
  /-- It has a header of its own. -/
  | header
  /-- It is on the way to a dotted key. -/
  | dotted
  /-- It is written between braces. -/
  | inline
  deriving DecidableEq, Repr

/-- A value of a document. Of fractions and dates only the spelling is kept. -/
inductive Node where
  | text (chars : List Char)
  | integer (n : Int)
  | fraction (spelling : List Char)
  | boolean (b : Bool)
  | date (spelling : List Char)
  | array (items : List Node)
  | table (origin : Origin) (entries : List (List Char × Node))
  | tables (rows : List (List (List Char × Node)))

/-- The entries of a table, oldest first. -/
abbrev Entries := List (List Char × Node)

namespace Entries

/-- The value of a key. -/
def get? (entries : Entries) (key : List Char) : Option Node := entries.lookup key

/-- Puts another value in the place of the one a key has. -/
def replace (entries : Entries) (key : List Char) (node : Node) : Entries :=
  entries.map fun entry => if entry.1 = key then (key, node) else entry

/-- Changes the last row of a table array. -/
def changeLast (change : Entries → Option Entries) : List Entries → Option (List Entries)
  | [] => none
  | [row] => (change row).map fun row => [row]
  | row :: rows => (changeLast change rows).map (row :: ·)

/-- Adds `key = node` in the table under a dotted path. That table must have come about by
dotted keys itself, which `mayHold` says of the table the path starts from. -/
def insertDotted (key : List Char) (node : Node) :
    List (List Char) → Bool → Entries → Option Entries
  | [], mayHold, entries =>
    if mayHold && (entries.get? key).isNone then some (entries ++ [(key, node)]) else none
  | step :: path, _, entries =>
    match entries.get? step with
    | none =>
      (insertDotted key node path true []).map fun sub =>
        entries ++ [(step, .table .dotted sub)]
    | some (.table .dotted sub) =>
      (insertDotted key node path true sub).map fun sub =>
        entries.replace step (.table .dotted sub)
    | some (.table .implied sub) =>
      (insertDotted key node path false sub).map fun sub =>
        entries.replace step (.table .implied sub)
    | some (.tables rows) =>
      (changeLast (insertDotted key node path false) rows).map fun rows =>
        entries.replace step (.tables rows)
    | some _ => none

/-- A dotted key with its value. -/
abbrev Pair := List (List Char) × List Char × Node

/-- Adds pairs in order. -/
def insertPairs : List Pair → Entries → Option Entries
  | [], entries => some entries
  | (path, key, node) :: pairs, entries =>
    match insertDotted key node path true entries with
    | none => none
    | some entries => insertPairs pairs entries

/-- Changes the table under a path of header keys, making the tables on the way. -/
def descend (change : Entries → Option Entries) : List (List Char) → Entries → Option Entries
  | [], entries => change entries
  | step :: path, entries =>
    match entries.get? step with
    | none =>
      (descend change path []).map fun sub => entries ++ [(step, .table .implied sub)]
    | some (.table .inline _) => none
    | some (.table origin sub) =>
      (descend change path sub).map fun sub => entries.replace step (.table origin sub)
    | some (.tables rows) =>
      (changeLast (descend change path) rows).map fun rows =>
        entries.replace step (.tables rows)
    | some _ => none

/-- Gives a table its header and its pairs. -/
def openTable (key : List Char) (pairs : List Pair) (entries : Entries) : Option Entries :=
  match entries.get? key with
  | none => (insertPairs pairs []).map fun sub => entries ++ [(key, .table .header sub)]
  | some (.table .implied sub) =>
    (insertPairs pairs sub).map fun sub => entries.replace key (.table .header sub)
  | some _ => none

/-- Adds a row with its pairs to a table array. -/
def openRow (key : List Char) (pairs : List Pair) (entries : Entries) : Option Entries :=
  match entries.get? key with
  | none => (insertPairs pairs []).map fun row => entries ++ [(key, .tables [row])]
  | some (.tables rows) =>
    (insertPairs pairs []).map fun row => entries.replace key (.tables (rows ++ [row]))
  | some _ => none

end Entries

end StampStore.Toml
