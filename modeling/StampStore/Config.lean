-- The settings of a store: names for its isolation level and merge operator, a
-- wait between lock attempts and a retry policy. The names are checked when the
-- settings are used, not when they are written down.
import StampStore.Isolation
import StampStore.Merge
import StampStore.Retry

namespace StampStore

/-- The level a setting names. -/
def Isolation.ofSetting (s : String) : Except Error Isolation :=
  match ofSetting? s with
  | some level => .ok level
  | none => .error (.config (.unknownIsolation s))

/-- The level a number stands for. -/
def Isolation.ofCode (n : UInt8) : Except Error Isolation :=
  match ofCode? n with
  | some level => .ok level
  | none => .error (.config (.unknownIsolationCode n))

/-- The settings of a store. -/
structure Config where
  isolation : String
  lockBackoffNs : UInt64
  merge : String
  retry : RetryPolicy
  deriving DecidableEq, Repr

namespace Config

/-- The settings of a store that names none. -/
def standard : Config := ⟨Isolation.standard.name, 1000, "replace", .standard⟩

/-- The level the settings name. -/
def isolationLevel (c : Config) : Except Error Isolation := Isolation.ofSetting c.isolation

/-- The operator the settings name. -/
def mergeOperator (c : Config) : Except Error MergeOperator :=
  match MergeOperator.ofName? c.merge with
  | some m => .ok m
  | none => .error (.config (.unknownMerge c.merge))

/-- The wait between attempts to lock the written keys. -/
def lockBackoff (c : Config) : Duration := Duration.ofNanos c.lockBackoffNs

/-- Checks the names, the level first. -/
def validate (c : Config) : Except Error Unit :=
  match c.isolationLevel with
  | .error e => .error e
  | .ok _ => c.mergeOperator.map fun _ => ()

/-- The settings with all their fields. -/
def debug (c : Config) : String :=
  Text.fields "StoreConfig"
    [("isolation", Text.quoted c.isolation.toList),
      ("lock_backoff_ns", s!"{c.lockBackoffNs.toNat}"),
      ("merge", Text.quoted c.merge.toList), ("retry", c.retry.debug)]

end Config

end StampStore
