-- Settings put together step by step, with the choice of an operator that has no
-- name in a settings file.
import StampStore.Database

namespace StampStore

/-- Settings under construction. An operator of its own stands before the one the settings
name. -/
structure Builder where
  config : Config
  merge : Option MergeOperator

namespace Builder

/-- Starts from given settings. -/
def ofConfig (config : Config) : Builder := ⟨config, none⟩

/-- Sets the level. -/
def isolation (b : Builder) (level : Isolation) : Builder :=
  { b with config := { b.config with isolation := level.name } }

/-- Sets the wait between lock attempts; one that is too long is cut at the longest there is. -/
def lockBackoff (b : Builder) (wait : Duration) : Builder :=
  let nanos := min wait.toNanos (UInt64.size - 1)
  { b with config := { b.config with lockBackoffNs := UInt64.ofNat nanos } }

/-- Names the operator, and drops one that was given as such. -/
def mergeName (b : Builder) (name : String) : Builder :=
  ⟨{ b.config with merge := name }, none⟩

/-- Gives an operator as such. -/
def mergeOperator (b : Builder) (merge : MergeOperator) : Builder := { b with merge := some merge }

/-- Sets the retry policy. -/
def retry (b : Builder) (policy : RetryPolicy) : Builder :=
  { b with config := { b.config with retry := policy } }

/-- The operator of the store. -/
def resolveMerge (b : Builder) : Except Error MergeOperator :=
  match b.merge with
  | some merge => .ok merge
  | none => b.config.mergeOperator

/-- Opens an empty store in memory. -/
def openMemory (b : Builder) : Except Error (Database Records × State Records) :=
  match b.resolveMerge with
  | .error e => .error e
  | .ok merge => Database.openMemoryWith merge b.config

/-- Opens a store over an engine. -/
def openOver {σ : Type} (b : Builder) (engine : Engine σ) (stored : σ) :
    Except Error (Database σ × State σ) :=
  match b.resolveMerge with
  | .error e => .error e
  | .ok merge => Database.openOver engine stored merge b.config

/-- The settings so far. -/
def debug (b : Builder) : String :=
  Text.fields "StoreBuilder"
    [("config", b.config.debug),
      ("merge", Text.optional (b.merge.map fun m => Text.quoted m.name.toList))]

/-- One step of construction. -/
inductive Step where
  | isolation (level : Isolation)
  | lockBackoff (wait : Duration)
  | mergeName (name : String)
  | mergeOperator (merge : MergeOperator)
  | retry (policy : RetryPolicy)

/-- The settings after a step. -/
def step (b : Builder) : Step → Builder
  | .isolation level => b.isolation level
  | .lockBackoff wait => b.lockBackoff wait
  | .mergeName name => b.mergeName name
  | .mergeOperator merge => b.mergeOperator merge
  | .retry policy => b.retry policy

end Builder

end StampStore
