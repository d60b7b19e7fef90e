-- The three isolation levels, and what each asks of a commit.
import StampStore.Bytes

namespace StampStore

/-- How far a transaction is kept apart from the others. -/
inductive Isolation where
  | serializable
  | snapshot
  | repeatableRead
  deriving DecidableEq, Repr, Inhabited

namespace Isolation

/-- The level of a store that names none. -/
def standard : Isolation := .serializable

/-- Whether the read time and the write time of a commit are tied together. -/
def collapses : Isolation → Bool
  | .serializable => true
  | .snapshot => false
  | .repeatableRead => true

/-- Whether validation may raise the read time of a record it has checked. -/
def extendsReads : Isolation → Bool
  | .serializable => true
  | .snapshot => true
  | .repeatableRead => false

/-- Whether reads are validated at the read time of the commit. -/
def validatesAtReadTime : Isolation → Bool
  | .serializable => false
  | .snapshot => true
  | .repeatableRead => false

/-- The number a level is stored as; zero is no level. -/
def code : Isolation → UInt8
  | .serializable => 1
  | .snapshot => 2
  | .repeatableRead => 3

/-- The level stored as `n`. -/
def ofCode? (n : UInt8) : Option Isolation :=
  if n = 1 then some .serializable
  else if n = 2 then some .snapshot
  else if n = 3 then some .repeatableRead
  else none

/-- The name a config file and a message give the level. -/
def name : Isolation → String
  | .serializable => "serializable"
  | .snapshot => "snapshot"
  | .repeatableRead => "repeatable_read"

/-- The level a name stands for, letter by letter. -/
def ofName? (s : String) : Option Isolation :=
  if s = "serializable" then some .serializable
  else if s = "snapshot" then some .snapshot
  else if s = "repeatable_read" then some .repeatableRead
  else none

/-- As `ofName?`, with the long name of the snapshot level allowed too. -/
def ofSetting? (s : String) : Option Isolation :=
  if s = "snapshot_isolation" then some .snapshot else ofName? s

theorem ofCode?_code (level : Isolation) : ofCode? level.code = some level := by
  cases level <;> rfl

theorem ofName?_name (level : Isolation) : ofName? level.name = some level := by
  cases level <;> rfl

theorem ofSetting?_name (level : Isolation) : ofSetting? level.name = some level := by
  cases level <;> rfl

end Isolation

end StampStore
