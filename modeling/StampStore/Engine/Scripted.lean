-- An engine that follows rules before it serves a call: a rule can let others
-- act on the records and the locks at that very moment, and can answer the call
-- with an error instead of serving it.
import StampStore.Engine

namespace StampStore

/-- What somebody else does while a call is under way. -/
inductive Action where
  | put (key : Key) (record : Bytes)
  | remove (key : Key)
  | lock (key : Key) (owner : TxnId)
  | unlock (key : Key) (owner : TxnId)
  deriving DecidableEq, Repr

/-- What is shared after the action. -/
def Action.perform (shared : Shared Records) : Action → Shared Records
  | put key record => { shared with stored := shared.stored.insert key record }
  | remove key => { shared with stored := shared.stored.erase key }
  | lock key owner => { shared with locks := (shared.locks.tryAcquire key owner).2 }
  | unlock key owner => { shared with locks := (shared.locks.release key owner).2 }

/-- A rule fires on calls of one method, on one key or on any. It lets `skip` of them pass and
then fires `times` times. -/
structure Rule where
  method : Method
  key : Option Key
  skip : Nat
  times : Nat
  actions : List Action
  error : Option Error

namespace Rule

/-- Whether the rule is about the call. -/
def covers (rule : Rule) (method : Method) (key : Key) : Bool :=
  rule.method = method && (rule.key.isNone || rule.key = some key)

/-- The rules after a call, what is shared once their actions are done, and the error that
answers the call. Rules behind the one that answers are not asked. -/
def consult (method : Method) (key : Key) :
    List Rule → Shared Records → List Rule × Shared Records × Option Error
  | [], shared => ([], shared, none)
  | rule :: rules, shared =>
    if !rule.covers method key then
      let rest := consult method key rules shared
      (rule :: rest.1, rest.2)
    else if rule.skip > 0 then
      let rest := consult method key rules shared
      ({ rule with skip := rule.skip - 1 } :: rest.1, rest.2)
    else if rule.times = 0 then
      let rest := consult method key rules shared
      (rule :: rest.1, rest.2)
    else
      let spent := { rule with times := rule.times - 1 }
      let shared := rule.actions.foldl Action.perform shared
      match rule.error with
      | some e => (spent :: rules, shared, some e)
      | none =>
        let rest := consult method key rules shared
        (spent :: rest.1, rest.2)

end Rule

/-- Records under rules. -/
structure Scripted where
  records : Records
  rules : List Rule

namespace Engine

/-- Asks the rules, and serves the call if none of them answers it. -/
def underRules {α : Type} (method : Method) (key : Key)
    (call : Shared Records → Reply Records α) (shared : Shared Scripted) : Reply Scripted α :=
  match Rule.consult method key shared.stored.rules ⟨shared.stored.records, shared.locks⟩ with
  | (rules, before, some e) => (.error e, ⟨⟨before.stored, rules⟩, before.locks⟩)
  | (rules, before, none) =>
    match call before with
    | (answer, after) => (answer, ⟨⟨after.stored, rules⟩, after.locks⟩)

/-- The engine with rules asked before every call. -/
def scripted (engine : Engine Records) : Engine Scripted where
  lookup key := underRules .lookup key (engine.lookup key)
  lookupRaw key := underRules .lookupRaw key (engine.lookupRaw key)
  insert key record := underRules .insert key (engine.insert key record)
  update key delta := underRules .update key (engine.update key delta)
  delete key := underRules .delete key (engine.delete key)

end Engine

end StampStore
