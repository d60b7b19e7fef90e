-- Errors: storage faults, damaged records, refused operands, calls on a
-- finished transaction, commits that stopped on the way, and bad settings. Each
-- names its cause; the wording is in one place. A conflict is no error.
import StampStore.Status

namespace StampStore

/-! ## Causes -/

/-- What happened to a file of settings. -/
inductive FileFault where
  | unread
  | defaultUnwritten
  | unwritten
  | other (text : String)
  deriving DecidableEq, Repr

/-- What is wrong with a stored record. -/
inductive RecordFault where
  /-- The record has too few bytes to hold a stamp. -/
  | short (length : Nat)
  | other (text : String)
  deriving DecidableEq, Repr

/-- The part an operand plays in counting. -/
inductive CounterPart where
  | value
  | delta
  | operand
  deriving DecidableEq, Repr

/-- The part a byte string plays in merging tuples. -/
inductive TuplePart where
  | storedRecord
  | update
  deriving DecidableEq, Repr

/-- Why a merge operator refuses its operands. -/
inductive MergeFault where
  /-- A counter is not as wide as counters are. -/
  | counterWidth (part : CounterPart) (length : Nat)
  /-- There is no record whose read time could be raised. -/
  | refreshOnAbsent
  /-- The bytes are too many for a timestamp and too few for a stamp, or too few for both. -/
  | noTuple (part : TuplePart) (length : Nat)
  | other (text : String)
  deriving DecidableEq, Repr

/-- What is wrong with the settings of a store. -/
inductive ConfigFault where
  | unknownIsolation (name : String)
  | unknownIsolationCode (code : UInt8)
  | unknownMerge (name : String)
  /-- The file is no settings file. -/
  | unparsed
  /-- A number is too large for a settings file. -/
  | unserialized
  | other (text : String)
  deriving DecidableEq, Repr

/-- Why a transaction was given up. -/
inductive GivenUp where
  /-- The last of `runs` runs was aborted for `reason`. -/
  | afterRuns (reason : AbortReason) (runs : Nat)
  | other (text : String)
  deriving DecidableEq, Repr

/-- An error of a call. -/
inductive Error where
  | file (fault : FileFault)
  | storage (text : String)
  | corruption (key : Key) (fault : RecordFault)
  | merge (key : Key) (fault : MergeFault)
  | notActive (txn : TxnId) (state : String)
  /-- The commit stopped with the first `applied` of `total` writes installed. -/
  | incompleteCommit (txn : TxnId) (applied total : Nat) (source : Error)
  | givenUp (why : GivenUp)
  | config (fault : ConfigFault)
  deriving DecidableEq, Repr

/-! ## Wording -/

namespace FileFault

/-- The fault in words. -/
def message : FileFault → String
  | unread => "Failed to read config file"
  | defaultUnwritten => "Failed to write default config file"
  | unwritten => "Failed to write config file"
  | other text => text

end FileFault

namespace RecordFault

/-- The fault in words. -/
def message : RecordFault → String
  | short length => s!"record of {length} bytes is shorter than the 8-byte tuple header"
  | other text => text

end RecordFault

/-- The name of the part. -/
def CounterPart.name : CounterPart → String
  | .value => "value"
  | .delta => "delta"
  | .operand => "operand"

/-- The name of the part. -/
def TuplePart.name : TuplePart → String
  | .storedRecord => "stored record"
  | .update => "update"

namespace MergeFault

/-- The fault in words. -/
def message : MergeFault → String
  | counterWidth part length => s!"counter {part.name} must be 8 bytes, got {length}"
  | refreshOnAbsent => "read-timestamp refresh on an absent key"
  | noTuple part length =>
    s!"{part.name} of {length} bytes is neither a timestamp refresh nor a tuple"
  | other text => text

end MergeFault

namespace ConfigFault

/-- The fault in words. -/
def message : ConfigFault → String
  | unknownIsolation name =>
    s!"unknown isolation level '{name}'. " ++
      "Expected \"serializable\", \"snapshot\" or \"repeatable_read\""
  | unknownIsolationCode code => s!"invalid isolation level discriminant {code.toNat}"
  | unknownMerge name =>
    s!"Invalid merge operator '{name}' in tictoc.toml. " ++
      "Expected \"replace\", \"append\" or \"counter\"."
  | unparsed => "Failed to parse config file"
  | unserialized => "Failed to serialize config"
  | other text => text

end ConfigFault

namespace GivenUp

/-- The reason in words. -/
def message : GivenUp → String
  | afterRuns reason runs => s!"{reason.message} after {runs} attempt(s)"
  | other text => text

end GivenUp

namespace Error

/-- The error in words. -/
def message : Error → String
  | file fault => s!"I/O error: {fault.message}"
  | storage text => s!"Storage error: {text}"
  | corruption key fault => s!"Data corruption for key {key.display}: {fault.message}"
  | merge key fault => s!"Merge error for key {key.display}: {fault.message}"
  | notActive txn state => s!"Transaction {txn.toNat} is not active ({state})"
  | incompleteCommit txn applied total source =>
    s!"Commit of transaction {txn.toNat} stopped after {applied} of {total} writes: " ++
      source.message
  | givenUp why => s!"Transaction aborted: {why.message}"
  | config fault => s!"Invalid configuration: {fault.message}"

/-- What lies behind the error, in words. -/
def source? : Error → Option String
  | file fault => some fault.message
  | incompleteCommit _ _ _ source => some source.message
  | _ => none

/-- Whether running the transaction again may help. -/
def isConflict : Error → Bool
  | givenUp _ => true
  | _ => false

end Error

/-! ## Calls that end without an answer -/

/-- A call that breaks the rules of the interface. -/
inductive Misuse where
  /-- A delta for a key that the transaction itself has deleted. -/
  | updateAfterDelete (key : Key) (txn : TxnId)
  /-- A second buffer entry for one key. -/
  | duplicateWrite (key : Key)
  deriving DecidableEq, Repr

/-- The misuse in words. -/
def Misuse.message : Misuse → String
  | .updateAfterDelete key txn =>
    s!"update of {key.display} after delete in transaction {txn.toNat}"
  | .duplicateWrite key => s!"write set already holds an entry for {key.display}"

/-- How a call ends that does not give its answer. -/
inductive Failure where
  | error (e : Error)
  | misuse (m : Misuse)
  /-- The call waits for a lock that nobody gives up. -/
  | blocked
  deriving DecidableEq, Repr

end StampStore
