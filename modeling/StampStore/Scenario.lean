-- Scenarios: scripts of calls on one store, with work that runs in transactions
-- of its own and is itself a script. A step that fails does not end a scenario,
-- but it ends the work it is part of unless it is caught.
import StampStore.Builder
import StampStore.Scenario.Call

namespace StampStore.Scenario

/-- A step of a scenario: a call, a step whose error the work survives, or work with one script
for each run, the last one serving all further runs. -/
inductive Step where
  | call (c : Call)
  | catching (s : Step)
  | transaction (policy : Option RetryPolicy) (scripts : List (List Step))

/-- What is noted of one step of some work: its result, and the transaction of the work where
the step was about it. -/
structure Note where
  answer : Except Error Result
  own : Option Transaction

/-- What a step leaves, with the notes of each run where the step is work. -/
structure StepEffect where
  answer : Except Failure Result
  runs : List (List Note)
  scene : Scene

/-- A step made ready to be performed. -/
structure Deed where
  aboutOwn : Bool
  catches : Bool
  perform : Scene → StepEffect

/-! ## Work -/

/-- Performs the deeds in order. The value is the result of the last one that did not fail; a
misuse goes unnoted. -/
def performAll (value : Result) (notes : List Note) (scene : Scene) :
    List Deed → Except Failure Result × List Note × Scene
  | [] => (.ok value, notes, scene)
  | deed :: deeds =>
    match deed.perform scene with
    | ⟨.ok value, _, scene⟩ =>
      let own := if deed.aboutOwn then scene.own else none
      performAll value (notes ++ [⟨.ok value, own⟩]) scene deeds
    | ⟨.error (.error e), _, scene⟩ =>
      let own := if deed.aboutOwn then scene.own else none
      let notes := notes ++ [⟨.error e, own⟩]
      if deed.catches then performAll value notes scene deeds
      else (.error (.error e), notes, scene)
    | ⟨.error failure, _, scene⟩ => (.error failure, notes, scene)

/-- What work keeps from run to run: the named transactions, and the notes of its runs. -/
structure Kept where
  named : List (Name × Transaction)
  runs : List (List Note)

/-- The script of run number `i`, counted from zero. -/
def scriptOf (scripts : List (List Deed)) (i : Nat) : List Deed :=
  (scripts[min i (scripts.length - 1)]?).getD []

/-- The scripts as work for a transaction. -/
def work (scripts : List (List Deed)) : Work (Recorded Scripted) Kept Result :=
  fun txn state kept =>
    match performAll .nothing [] ⟨state, kept.named, some txn⟩
        (scriptOf scripts kept.runs.length) with
    | (answer, notes, scene) =>
      ⟨answer, scene.own.getD txn, scene.state, ⟨scene.named, kept.runs ++ [notes]⟩⟩

/-- Runs the scripts in a transaction of their own. -/
def performWork (bench : Bench) (policy : Option RetryPolicy) (scripts : List (List Deed))
    (scene : Scene) : StepEffect :=
  let finished :=
    bench.db.transactionWith (policy.getD bench.db.retry) (work scripts) scene.state
      ⟨scene.named, []⟩
  { answer := finished.answer
    runs := finished.kept.runs
    scene := ⟨finished.state, finished.kept.named, scene.own⟩ }

/-! ## Steps -/

mutual

/-- The step made ready. -/
def Step.deed (bench : Bench) : Step → Deed
  | .call c =>
    { aboutOwn := c.target? = some ownName
      catches := false
      perform := fun scene =>
        match c.perform bench scene with
        | (answer, scene) => ⟨answer, [], scene⟩ }
  | .catching s => { s.deed bench with catches := true }
  | .transaction policy scripts =>
    { aboutOwn := false
      catches := false
      perform := performWork bench policy (Step.scripts bench scripts) }

/-- The steps of a script made ready. -/
def Step.deeds (bench : Bench) : List Step → List Deed
  | [] => []
  | s :: script => s.deed bench :: Step.deeds bench script

/-- The scripts of some work made ready. -/
def Step.scripts (bench : Bench) : List (List Step) → List (List Deed)
  | [] => []
  | script :: scripts => Step.deeds bench script :: Step.scripts bench scripts

end

/-- The transaction a step is about. -/
def Step.target? : Step → Option Name
  | .call c => c.target?
  | .catching s => s.target?
  | .transaction _ _ => none

/-- Whether a step is work. -/
def Step.isWork : Step → Bool
  | .call _ => false
  | .catching s => s.isWork
  | .transaction _ _ => true

/-- Whether the records are worth showing after the step. -/
def Step.showsRecords : Step → Bool
  | .call c => c.showsRecords
  | .catching s => s.showsRecords
  | .transaction _ _ => true

/-! ## Reports -/

/-- What is shown of a step. -/
structure Report where
  answer : Except Failure Result
  /-- The transaction the step is about, after the step. -/
  target : Option (Option Transaction)
  records : Option Records
  locks : LockTable
  runs : Option (List (List Note))
  /-- The engine calls made during the step. -/
  log : List Event

/-- Performs a step and reports on it. -/
def report (bench : Bench) (step : Step) (scene : Scene) : Report × Scene :=
  match (step.deed bench).perform scene.clearLog with
  | ⟨answer, runs, scene⟩ =>
    ({ answer
       target := step.target?.map scene.find?
       records := if step.showsRecords then some scene.records else none
       locks := scene.locks
       runs := if step.isWork then some runs else none
       log := scene.log }, scene)

/-- Performs the steps in order. -/
def reports (bench : Bench) : List Step → Scene → List Report
  | [], _ => []
  | step :: steps, scene =>
    match report bench step scene with
    | (shown, scene) => shown :: reports bench steps scene

/-! ## Opening -/

/-- A store whose records are merged with `recordMerge`, under rules and with a log. -/
def openOver (recordMerge : MergeOperator) (config : Config) : Except Error (Bench × Scene) :=
  let engine := ((Engine.memory recordMerge).scripted).recorded
  match (Builder.ofConfig config).openOver engine ⟨⟨KeyMap.empty, []⟩, []⟩ with
  | .error e => .error e
  | .ok (db, state) => .ok (⟨db, recordMerge⟩, ⟨state, [], none⟩)

/-- A store as its settings say. An unknown operator is reported before an unknown level. -/
def openPlain (config : Config) : Except Error (Bench × Scene) :=
  match config.mergeOperator with
  | .error e => .error e
  | .ok merge => openOver merge.tuple config

/-- A store over records with an operator of their own; without one they are merged as the
settings say, and an unknown level is reported before an unknown operator. -/
def openScripted (recordMerge : Option MergeOperator) (config : Config) :
    Except Error (Bench × Scene) :=
  match recordMerge with
  | some recordMerge => openOver recordMerge config
  | none =>
    match config.validate with
    | .error e => .error e
    | .ok () => openPlain config

/-- Opens a store and performs the steps on it. -/
def run (opened : Except Error (Bench × Scene)) (steps : List Step) :
    Except Error (List Report) :=
  match opened with
  | .error e => .error e
  | .ok (bench, scene) => .ok (reports bench steps scene)

end StampStore.Scenario
