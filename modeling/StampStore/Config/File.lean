-- Settings files: what a file says as settings, what is written for settings,
-- and the commented file that a new store is given. Unknown entries of a file
-- are passed over, missing ones have their standard values.
import StampStore.Config
import StampStore.Text.Utf8
import StampStore.Toml.Reader

namespace StampStore.Config

open Toml (Entries Node)

/-! ## Reading -/

/-- A number that a file can hold, if it is not negative. -/
def ofNumber? : Node → Option UInt64
  | .integer n => if 0 ≤ n then some (UInt64.ofNat n.toNat) else none
  | _ => none

/-- A string. -/
def ofText? : Node → Option String
  | .text chars => some (String.ofList chars)
  | _ => none

/-- The entry of a key, or a standard value where there is none. -/
def entry? {α : Type} (entries : Entries) (key : String) (standard : α)
    (value : Node → Option α) : Option α :=
  match entries.get? key.toList with
  | none => some standard
  | some node => value node

/-- The retry policy that a table says. -/
def retryOfEntries? (entries : Entries) : Option RetryPolicy := do
  let maxRetries ← entry? entries "max_retries" RetryPolicy.standard.maxRetries ofNumber?
  let baseDelayMs ← entry? entries "base_delay_ms" RetryPolicy.standard.baseDelayMs ofNumber?
  let maxDelayMs ← entry? entries "max_delay_ms" RetryPolicy.standard.maxDelayMs ofNumber?
  return ⟨maxRetries, baseDelayMs, maxDelayMs⟩

/-- The item at a place, or a standard value where there is none. -/
def item? (items : List Node) (i : Nat) (standard : UInt64) : Option UInt64 :=
  match items[i]? with
  | none => some standard
  | some node => ofNumber? node

/-- The retry policy whose fields an array lists in order; further items do not count. -/
def retryOfItems? (items : List Node) : Option RetryPolicy := do
  let maxRetries ← item? items 0 RetryPolicy.standard.maxRetries
  let baseDelayMs ← item? items 1 RetryPolicy.standard.baseDelayMs
  let maxDelayMs ← item? items 2 RetryPolicy.standard.maxDelayMs
  return ⟨maxRetries, baseDelayMs, maxDelayMs⟩

/-- The retry policy that a value says; a date says nothing about it. -/
def ofRetry? : Node → Option RetryPolicy
  | .table _ entries => retryOfEntries? entries
  | .array items => retryOfItems? items
  | .date _ => some RetryPolicy.standard
  | _ => none

/-- The settings that a table says. -/
def ofEntries? (entries : Entries) : Option Config := do
  let isolation ← entry? entries "isolation" standard.isolation ofText?
  let lockBackoffNs ← entry? entries "lock_backoff_ns" standard.lockBackoffNs ofNumber?
  let merge ← entry? entries "merge" standard.merge ofText?
  let retry ← entry? entries "retry" standard.retry ofRetry?
  return ⟨isolation, lockBackoffNs, merge, retry⟩

/-- The settings of a text, with the names in them checked. -/
def ofText (text : List Char) : Except Error Config :=
  match (Toml.read? text).bind ofEntries? with
  | none => .error (.config .unparsed)
  | some c => c.validate.map fun _ => c

/-! ## Writing -/

/-- The largest number a file can hold. -/
def maxNumber : Nat := Nat.pow 2 63 - 1

/-- Whether a file can hold all numbers of the settings. -/
def isWritable (c : Config) : Bool :=
  [c.lockBackoffNs, c.retry.maxRetries, c.retry.baseDelayMs, c.retry.maxDelayMs].all fun n =>
    decide (n.toNat ≤ maxNumber)

/-- One line of a file. -/
def writeLine (key : String) (value : List Char) : List Char :=
  key.toList ++ " = ".toList ++ value ++ ['\n']

/-- A number in decimal. -/
def writeNumber (n : UInt64) : List Char := Nat.toDigits 10 n.toNat

/-- The text of settings, if a file can hold their numbers. -/
def toText (c : Config) : Except Error (List Char) :=
  if c.isWritable then
    .ok <|
      writeLine "isolation" (Toml.writeText c.isolation.toList)
        ++ writeLine "lock_backoff_ns" (writeNumber c.lockBackoffNs)
        ++ writeLine "merge" (Toml.writeText c.merge.toList)
        ++ "\n[retry]\n".toList
        ++ writeLine "max_retries" (writeNumber c.retry.maxRetries)
        ++ writeLine "base_delay_ms" (writeNumber c.retry.baseDelayMs)
        ++ writeLine "max_delay_ms" (writeNumber c.retry.maxDelayMs)
  else .error (.config .unserialized)

/-- The commented file with the standard settings. -/
def template : String :=
"# TicToc store configuration
#
# Default isolation level for new transactions:
#   \"serializable\"    = full serializability (default)
#   \"snapshot\"        = commit at the read timestamp, write skew possible
#   \"repeatable_read\" = never extends stored read timestamps
isolation = \"serializable\"

# Sleep between attempts to lock a transaction's write set, in nanoseconds.
lock_backoff_ns = 1000

# Merge operator for partial updates: \"replace\" (default), \"append\" or \"counter\"
merge = \"replace\"

# Retry policy for closure transactions aborted by a conflict.
[retry]
max_retries = 3
base_delay_ms = 10
max_delay_ms = 100
"

/-! ## Files -/

/-- The place of a file: its folder may be missing, the file may be missing, or it has a
content. -/
inductive File where
  | noFolder
  | absent
  | holds (content : Bytes)
  deriving DecidableEq

/-- The content of a file. -/
def File.content? : File → Option Bytes
  | .noFolder => none
  | .absent => none
  | .holds content => some content

/-- The settings of a file, with the names in them checked. -/
def load (file : File) : Except Error Config :=
  match file.content?.bind Utf8.decode? with
  | none => .error (.file .unread)
  | some text => ofText text

/-- Writes settings to a file in place of what it holds. Settings that cannot be written leave
the file as it is. -/
def save (c : Config) (file : File) : Except Error Unit × File :=
  match c.toText with
  | .error e => (.error e, file)
  | .ok text =>
    match file with
    | .noFolder => (.error (.file .unwritten), file)
    | .absent => (.ok (), .holds (Utf8.encode text))
    | .holds _ => (.ok (), .holds (Utf8.encode text))

/-- Writes the commented file where there is none. -/
def saveTemplate (file : File) : Except Error Unit × File :=
  match file with
  | .noFolder => (.error (.file .defaultUnwritten), file)
  | .absent => (.ok (), .holds (Utf8.encode template.toList))
  | .holds _ => (.ok (), file)

end StampStore.Config
