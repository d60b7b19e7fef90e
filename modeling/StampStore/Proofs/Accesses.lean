-- Reads and writes of one transaction, whatever engines and operators serve them. The
-- buffer has one entry for each key that a write was accepted for, and the entry shows
-- what the accepted messages fix. A call that fails changes nothing, also when its steps
-- are made in place one after the other.
import Mathlib.Data.List.Nodup
import StampStore.Engine.Scripted
import StampStore.Proofs.MessageOrder

namespace StampStore

/-! ## Writes in place -/

/-- A call that changes a transaction in place. What a step has set stays set when a later one
fails. -/
abbrev InPlace (α : Type) := ExceptT Failure (StateM Transaction) α

namespace InPlace

/-- What the call answers, and what it has made of the transaction. -/
def on {α : Type} (call : InPlace α) (txn : Transaction) : Except Failure α × Transaction :=
  (ExceptT.run call).run txn

/-- A part of the call that changes nothing, and may fail. -/
def part {α : Type} : Except Error α → InPlace α
  | .ok a => pure a
  | .error e => throw (.error e)

variable {α β : Type} (txn : Transaction)

@[simp] theorem on_pure (a : α) : on (pure a) txn = (.ok a, txn) := rfl

@[simp] theorem on_throw (failure : Failure) :
    on (throw failure : InPlace α) txn = (.error failure, txn) := rfl

@[simp] theorem on_get : on (get : InPlace Transaction) txn = (.ok txn, txn) := rfl

@[simp] theorem on_modify (change : Transaction → Transaction) :
    on (modify change) txn = (.ok (), change txn) := rfl

theorem on_bind (first : InPlace α) (next : α → InPlace β) :
    on (first >>= next) txn =
      match first.on txn with
      | (.ok a, txn) => (next a).on txn
      | (.error failure, txn) => (.error failure, txn) := by
  change (ExceptT.bindCont next (first.on txn).1) (first.on txn).2 = _
  rcases first.on txn with ⟨failure | a, after⟩ <;> rfl

end InPlace

namespace Transaction

/-- Sets what the entry of `key` does. -/
def setOp (key : Key) (op : WriteOp) (txn : Transaction) : Transaction :=
  { txn with writes := txn.writes.mapEntries fun entry =>
      (if entry.key = key then op else entry.op, entry.tuple) }

/-- Sets the tuple of the entry of `key`. -/
def setTuple (key : Key) (tuple : Tuple) (txn : Transaction) : Transaction :=
  { txn with writes := txn.writes.mapEntries fun entry =>
      (entry.op, if entry.key = key then tuple else entry.tuple) }

/-- Folds a message into the entry of its key, one field after the other. -/
def foldInPlace (merge : MergeOperator) (entry : WriteEntry) : Message → InPlace Unit
  | .insert value => do
    modify (setOp entry.key .insert)
    modify (setTuple entry.key (Tuple.unstamped value))
  | .delete => do
    modify (setOp entry.key .delete)
    modify (setTuple entry.key (Tuple.unstamped []))
  | .update delta => do
    let merged ← match entry.op with
      | .insert => InPlace.part (merge.apply entry.key (some entry.tuple.value) delta)
      | .update => InPlace.part (merge.combine entry.key entry.tuple.value delta)
      | .delete => do throw (.misuse (.updateAfterDelete entry.key (← get).id))
    modify (setTuple entry.key (entry.tuple.setValue merged))

/-- A write, step by step. -/
def writeInPlace (merge : MergeOperator) (key : Key) (message : Message) : InPlace Unit := do
  let txn ← get
  InPlace.part txn.ensureActive
  InPlace.part (checkPayload merge key message)
  match txn.writes.find? key with
  | some entry => foldInPlace merge entry message
  | none =>
    match txn.writes.insert ⟨key, message.op, Tuple.unstamped message.payload⟩ with
    | .error m => throw (.misuse m)
    | .ok writes => set { txn with writes }

end Transaction

namespace WriteBuffer

variable {buffer : WriteBuffer} {key : Key}

theorem ext_entries {a b : WriteBuffer} (h : a.entries = b.entries) : a = b := by
  cases a
  cases b
  cases h
  rfl

/-- The entry of a key is the only one for it. -/
theorem eq_of_key {entry other : WriteEntry} (hentry : buffer.find? key = some entry)
    (hother : other ∈ buffer.entries) (hkey : other.key = key) : other = entry :=
  List.inj_on_of_nodup_map buffer.distinct hother (List.mem_of_find?_eq_some hentry)
    (hkey.trans (key_of_find? hentry).symm)

end WriteBuffer

namespace Transaction

variable {txn : Transaction} {key : Key} {entry : WriteEntry}

theorem setTuple_setOp (key : Key) (op : WriteOp) (tuple : Tuple) (txn : Transaction) :
    setTuple key tuple (setOp key op txn) =
      { txn with writes := txn.writes.set key op tuple } := by
  refine congrArg (fun writes => { txn with writes }) (WriteBuffer.ext_entries ?_)
  simp only [setOp, WriteBuffer.set, WriteBuffer.mapEntries, List.map_map]
  refine List.map_congr_left fun other _ => ?_
  by_cases hkey : other.key = key <;> simp [hkey]

/-- An entry keeps what it does when only its tuple is set. -/
theorem setTuple_eq (hentry : txn.writes.find? key = some entry) (tuple : Tuple) :
    setTuple key tuple txn = { txn with writes := txn.writes.set key entry.op tuple } := by
  refine congrArg (fun writes => { txn with writes }) (WriteBuffer.ext_entries ?_)
  simp only [WriteBuffer.set, WriteBuffer.mapEntries]
  refine List.map_congr_left fun other hother => ?_
  by_cases hkey : other.key = key
  · obtain rfl := WriteBuffer.eq_of_key hentry hother hkey
    simp [hkey]
  · simp [hkey]

/-- A message is folded step by step as it is folded at once. -/
theorem on_foldInPlace (merge : MergeOperator) (hentry : txn.writes.find? entry.key = some entry)
    (message : Message) :
    (foldInPlace merge entry message).on txn =
      match txn.foldMessage merge entry message with
      | .error failure => (.error failure, txn)
      | .ok (op, tuple) => (.ok (), { txn with writes := txn.writes.set entry.key op tuple }) := by
  cases message with
  | insert value =>
    simp only [foldInPlace, foldMessage, InPlace.on_bind, InPlace.on_modify, setTuple_setOp]
  | delete =>
    simp only [foldInPlace, foldMessage, InPlace.on_bind, InPlace.on_modify, setTuple_setOp]
  | update delta =>
    simp only [foldInPlace, foldMessage, foldDelta]
    cases hop : entry.op with
    | insert =>
      cases merge.apply entry.key (some entry.tuple.value) delta with
      | error e => simp [InPlace.part]
      | ok value => simp [InPlace.part, setTuple_eq hentry, hop]
    | update =>
      cases merge.combine entry.key entry.tuple.value delta with
      | error e => simp [InPlace.part]
      | ok value => simp [InPlace.part, setTuple_eq hentry, hop]
    | delete => simp [InPlace.on_bind]

/-- A write that is made step by step ends as the one that is made at once, and if it fails it has
set nothing. -/
theorem on_writeInPlace (merge : MergeOperator) (txn : Transaction) (key : Key)
    (message : Message) :
    (writeInPlace merge key message).on txn =
      match txn.write merge key message with
      | .ok after => (.ok (), after)
      | .error failure => (.error failure, txn) := by
  simp only [writeInPlace, write, ensureActive, InPlace.on_bind, InPlace.on_get]
  cases hactive : txn.isActive with
  | false => simp [InPlace.part]
  | true =>
    cases hcheck : checkPayload merge key message with
    | error e => simp [InPlace.part]
    | ok checked =>
      simp only [InPlace.part, InPlace.on_pure, if_true, bufferMessage]
      cases hentry : txn.writes.find? key with
      | none =>
        simp only
        cases txn.writes.insert ⟨key, message.op, Tuple.unstamped message.payload⟩ with
        | error m => rfl
        | ok writes => rfl
      | some entry =>
        obtain rfl := WriteBuffer.key_of_find? hentry
        simp only [on_foldInPlace merge hentry]
        rcases txn.foldMessage merge entry message with failure | ⟨op, tuple⟩ <;> rfl

end Transaction

/-! ## Requests one after another -/

/-- What serves a request: an operator, and an engine in the state that the request finds. -/
structure Service (σ : Type) where
  engine : Engine σ
  merge : MergeOperator
  shared : Shared σ

/-- A transaction, and all that was said between it and its caller. -/
structure Dialog where
  txn : Transaction
  log : List Exchange

variable {σ : Type}

/-- Serves a request: its answer, and what it has made of the transaction. -/
def Service.serve (service : Service σ) (txn : Transaction) : Request → Answer × Transaction
  | .lookup key =>
    match txn.read service.engine service.merge key service.shared with
    | ⟨answer, txn, _⟩ => (.found answer, txn)
  | .write key message =>
    match (Transaction.writeInPlace service.merge key message).on txn with
    | (answer, txn) => (.done answer, txn)

/-- Whether the request was not served. -/
def Answer.isFailure : Answer → Bool
  | .found (.ok _) => false
  | .done (.ok _) => false
  | _ => true

namespace Dialog

/-- The dialog that has not begun, with a new transaction. -/
def start (id : TxnId) (level : Isolation) : Dialog := ⟨Transaction.start id level, []⟩

/-- One more request. -/
def ask (dialog : Dialog) (call : Service σ × Request) : Dialog :=
  match call.1.serve dialog.txn call.2 with
  | (answer, txn) => ⟨txn, dialog.log ++ [⟨call.2, answer⟩]⟩

/-- Requests one after another, each with a service of its own. -/
def run (dialog : Dialog) (calls : List (Service σ × Request)) : Dialog := calls.foldl ask dialog

/-- The messages to `key` that were accepted, the oldest first. -/
def messages (dialog : Dialog) (key : Key) : List Message :=
  dialog.log.filterMap (Exchange.message? key)

end Dialog

/-- What messages to a key amount to: what the latest one does that fixes what the key will hold, and
an update when there is none. -/
def Message.lastOp (messages : List Message) : WriteOp :=
  ((messages.filter Message.isDefinitive).getLast?.map Message.op).getD .update

theorem Message.lastOp_concat (messages : List Message) (message : Message) :
    lastOp (messages ++ [message]) =
      if message.isDefinitive then message.op else lastOp messages := by
  unfold lastOp
  rw [List.filter_append]
  cases hdefinitive : message.isDefinitive <;> simp [hdefinitive]

/-! ## What a request does -/

/-- A write never finds a second entry for its key. -/
theorem write_ne_duplicate (merge : MergeOperator) (txn : Transaction) (key : Key)
    (message : Message) (k : Key) :
    txn.write merge key message ≠ .error (.misuse (.duplicateWrite k)) := by
  have hfold : ∀ entry,
      txn.foldMessage merge entry message ≠ .error (.misuse (.duplicateWrite k)) := by
    intro entry
    cases message with
    | insert value => nofun
    | delete => nofun
    | update delta =>
      simp only [Transaction.foldMessage, Transaction.foldDelta]
      cases entry.op with
      | delete => simp
      | insert =>
        simp only
        cases merge.apply entry.key (some entry.tuple.value) delta <;> simp
      | update =>
        simp only
        cases merge.combine entry.key entry.tuple.value delta <;> simp
  unfold Transaction.write Transaction.bufferMessage
  split
  · cases Transaction.checkPayload merge key message with
    | error e => simp
    | ok checked =>
      cases hentry : txn.writes.find? key with
      | none => simp [WriteBuffer.insert, hentry]
      | some entry =>
        simp only
        cases hmessage : txn.foldMessage merge entry message with
        | error failure =>
          simp only
          rintro hfailure
          cases hfailure
          exact hfold entry hmessage
        | ok folded => simp
  · simp

/-- The ways a request can go. -/
inductive Service.Serves (service : Service σ) (txn : Transaction) :
    Request → Answer × Transaction → Prop where
  | failed {request : Request} {answer : Answer} (hfailure : answer.isFailure = true)
      (hduplicate : ∀ key, answer ≠ .done (.error (.misuse (.duplicateWrite key)))) :
      Serves service txn request (answer, txn)
  | found {key : Key} {value : Option Bytes} {after : Transaction}
      (hnoted : after = txn ∨ ∃ tuple, after = txn.noteRead key tuple) :
      Serves service txn (.lookup key) (.found (.ok value), after)
  | wrote {key : Key} {message : Message} {after : Transaction}
      (hwrite : txn.write service.merge key message = .ok after) :
      Serves service txn (.write key message) (.done (.ok ()), after)

/-- What a request can do. -/
theorem Service.serve_cases (service : Service σ) (txn : Transaction) (request : Request) :
    service.Serves txn request (service.serve txn request) := by
  cases request with
  | lookup key =>
    have hlooks := looks_read service.engine service.merge txn key service.shared
    simp only [serve]
    generalize txn.read service.engine service.merge key service.shared = turn at hlooks ⊢
    cases hlooks with
    | @silent answer after =>
      cases answer with
      | error e => exact .failed rfl nofun
      | ok value => exact .found (Or.inl rfl)
    | noted tuple => exact .found (Or.inr ⟨tuple, rfl⟩)
  | write key message =>
    simp only [serve, Transaction.on_writeInPlace]
    cases hwrite : txn.write service.merge key message with
    | ok after => exact .wrote hwrite
    | error failure =>
      refine .failed rfl fun k hduplicate => ?_
      cases hduplicate
      exact write_ne_duplicate service.merge txn key message k hwrite

/-! ## What the buffer shows -/

/-- An entry shows what the messages to its key fix. It has no stamp yet, and a removal no value. -/
structure WriteEntry.Shows (entry : WriteEntry) (messages : List Message) : Prop where
  unstamped : entry.tuple.stamp = Stamp.zero
  emptied : entry.op = .delete → entry.tuple.value = []
  op_eq : entry.op = Message.lastOp messages

/-- A first message stands in the buffer as it is. -/
theorem shows_new (key : Key) (message : Message) :
    WriteEntry.Shows ⟨key, message.op, Tuple.unstamped message.payload⟩ [message] where
  unstamped := Tuple.stamp_unstamped _
  emptied hop := by
    cases message with
    | delete => exact Tuple.value_unstamped []
    | insert value => cases hop
    | update delta => cases hop
  op_eq := by cases message <;> rfl

/-- A message that is folded into an entry is the latest one that the entry shows. -/
theorem WriteEntry.Shows.fold {entry : WriteEntry} {messages : List Message}
    (h : entry.Shows messages) {txn : Transaction} {merge : MergeOperator} {message : Message}
    {op : WriteOp} {tuple : Tuple} (hfold : txn.foldMessage merge entry message = .ok (op, tuple)) :
    WriteEntry.Shows ⟨entry.key, op, tuple⟩ (messages ++ [message]) := by
  have hlast := Message.lastOp_concat messages message
  cases message with
  | insert value =>
    cases hfold
    exact ⟨Tuple.stamp_unstamped value, nofun, hlast.symm⟩
  | delete =>
    cases hfold
    exact ⟨Tuple.stamp_unstamped [], fun _ => Tuple.value_unstamped [], hlast.symm⟩
  | update delta =>
    replace hlast : Message.lastOp (messages ++ [.update delta]) = entry.op :=
      hlast.trans h.op_eq.symm
    unfold Transaction.foldMessage Transaction.foldDelta at hfold
    simp only at hfold
    cases hop : entry.op with
    | delete =>
      rw [hop] at hfold
      cases hfold
    | insert =>
      rw [hop] at hfold
      cases happ : merge.apply entry.key (some entry.tuple.value) delta with
      | error e =>
        simp only [happ] at hfold
        cases hfold
      | ok value =>
        simp only [happ] at hfold
        cases hfold
        exact ⟨(Tuple.stamp_setValue _ _).trans h.unstamped, nofun, (hlast.trans hop).symm⟩
    | update =>
      rw [hop] at hfold
      cases hcomb : merge.combine entry.key entry.tuple.value delta with
      | error e =>
        simp only [hcomb] at hfold
        cases hfold
      | ok value =>
        simp only [hcomb] at hfold
        cases hfold
        exact ⟨(Tuple.stamp_setValue _ _).trans h.unstamped, nofun, (hlast.trans hop).symm⟩

namespace Dialog

variable {dialog : Dialog}

/-- The buffer has an entry for each key that a message was accepted for, and it shows these. -/
structure Shown (dialog : Dialog) : Prop where
  keys : ∀ key, key ∈ dialog.txn.writes.keys ↔ dialog.messages key ≠ []
  entries : ∀ entry ∈ dialog.txn.writes.entries, entry.Shows (dialog.messages entry.key)

theorem shown_start (id : TxnId) (level : Isolation) : (start id level).Shown where
  keys _ := ⟨fun h => absurd h List.not_mem_nil, fun h => absurd rfl h⟩
  entries _ h := absurd h List.not_mem_nil

theorem messages_concat (dialog : Dialog) (txn : Transaction) (exchange : Exchange) (key : Key) :
    messages ⟨txn, dialog.log ++ [exchange]⟩ key =
      dialog.messages key ++ (exchange.message? key).toList :=
  filterMap_message?_concat dialog.log exchange key

/-- An exchange in which no message was accepted does not show. -/
theorem Shown.keep (h : dialog.Shown) {txn : Transaction} (hwrites : txn.writes = dialog.txn.writes)
    {exchange : Exchange} (hnone : ∀ key, exchange.message? key = none) :
    Shown ⟨txn, dialog.log ++ [exchange]⟩ where
  keys key := by
    rw [messages_concat, hnone, hwrites, h.keys key]
    simp
  entries entry hentry := by
    rw [messages_concat, hnone]
    rw [hwrites] at hentry
    simpa using h.entries entry hentry

theorem message?_failure {request : Request} {answer : Answer} (h : answer.isFailure = true)
    (key : Key) : Exchange.message? key ⟨request, answer⟩ = none := by
  cases request with
  | lookup k => rfl
  | write k message =>
    rcases answer with result | (failure | done)
    · rfl
    · rfl
    · cases h

/-- A message that is accepted shows in the entry of its key, and in no other. -/
theorem Shown.wrote (h : dialog.Shown) {merge : MergeOperator} {key : Key} {message : Message}
    {after : Transaction} (hwrite : dialog.txn.write merge key message = .ok after) :
    Shown ⟨after, dialog.log ++ [⟨.write key message, .done (.ok ())⟩]⟩ := by
  have hself : messages ⟨after, dialog.log ++ [⟨.write key message, .done (.ok ())⟩]⟩ key =
      dialog.messages key ++ [message] := by
    rw [messages_concat, Exchange.message?, if_pos rfl, Option.toList_some]
  have hother : ∀ k, k ≠ key →
      messages ⟨after, dialog.log ++ [⟨.write key message, .done (.ok ())⟩]⟩ k =
        dialog.messages k := by
    intro k hk
    rw [messages_concat, Exchange.message?, if_neg (Ne.symm hk), Option.toList_none,
      List.append_nil]
  refine ⟨fun k => ?_, fun entry hentry => ?_⟩
  · obtain ⟨writes, rfl, hkeys⟩ := write_keys hwrite
    rw [hkeys k, h.keys k]
    by_cases hk : k = key
    · subst hk
      simp [hself]
    · simp [hk, hother k hk]
  · obtain ⟨-, writes, rfl, ⟨hnew, rfl⟩ | ⟨old, op, tuple, hold, hfold, rfl⟩⟩ := write_cases hwrite
    · -- a key without an entry has had no message yet, so this one is its first
      have hfresh : dialog.messages key = [] :=
        Decidable.byContradiction fun hsome =>
          WriteBuffer.find?_eq_none_iff.mp hnew ((h.keys key).mpr hsome)
      rcases List.mem_append.mp hentry with hentry | hentry
      · have hk : entry.key ≠ key := by
          intro hk
          have hheld : entry.key ∈ dialog.txn.writes.keys := List.mem_map_of_mem hentry
          exact WriteBuffer.find?_eq_none_iff.mp hnew (hk ▸ hheld)
        rw [hother _ hk]
        exact h.entries entry hentry
      · obtain rfl := List.mem_singleton.mp hentry
        rw [hself, hfresh]
        exact shows_new key message
    · obtain ⟨e, he, rfl⟩ := List.mem_map.mp hentry
      by_cases hk : e.key = key
      · obtain rfl := WriteBuffer.eq_of_key hold he hk
        subst hk
        simp only [if_true]
        rw [hself]
        exact (h.entries e he).fold hfold
      · simp only [if_neg hk]
        rw [hother _ hk]
        exact h.entries e he

theorem Shown.ask (h : dialog.Shown) (call : Service σ × Request) : (dialog.ask call).Shown := by
  obtain ⟨service, request⟩ := call
  have hserves := service.serve_cases dialog.txn request
  unfold Dialog.ask
  generalize service.serve dialog.txn request = left at hserves ⊢
  cases hserves with
  | failed hfailure => exact h.keep rfl (message?_failure hfailure)
  | found hnoted =>
    refine h.keep ?_ fun _ => rfl
    rcases hnoted with rfl | ⟨tuple, rfl⟩ <;> rfl
  | wrote hwrite => exact h.wrote hwrite

theorem Shown.run (h : dialog.Shown) (calls : List (Service σ × Request)) :
    (dialog.run calls).Shown := by
  induction calls generalizing dialog with
  | nil => exact h
  | cons call calls ih => exact ih (h.ask call)

end Dialog

/-- Whatever serves the requests of a transaction: the buffer has one entry for each key that a
message was accepted for, without a stamp, and it does what the latest of these messages does that
fixes what the key will hold. A request that fails leaves the transaction as it is, and never
because of a second entry for a key. Writes are served in place, and no step of one that fails is
left behind. -/
theorem accepted_writes_shape_the_buffer_and_failed_calls_change_nothing (id : TxnId)
    (level : Isolation) (calls : List (Service σ × Request)) :
    let dialog := (Dialog.start id level).run calls
    (dialog.txn.writes.keys.Nodup ∧
      (∀ key, key ∈ dialog.txn.writes.keys ↔ dialog.messages key ≠ []) ∧
      ∀ entry ∈ dialog.txn.writes.entries, entry.tuple.stamp = Stamp.zero ∧
        (entry.op = .delete → entry.tuple.value = []) ∧
        entry.op = Message.lastOp (dialog.messages entry.key)) ∧
    (∀ (service : Service σ) (txn : Transaction) (request : Request),
      (service.serve txn request).1.isFailure = true →
        (service.serve txn request).2 = txn ∧
        ∀ key, (service.serve txn request).1 ≠ .done (.error (.misuse (.duplicateWrite key)))) ∧
    ∀ (merge : MergeOperator) (txn : Transaction) (key : Key) (message : Message),
      (Transaction.writeInPlace merge key message).on txn =
        match txn.write merge key message with
        | .ok after => (.ok (), after)
        | .error failure => (.error failure, txn) := by
  intro dialog
  have hshown : dialog.Shown := (Dialog.shown_start id level).run calls
  refine ⟨⟨dialog.txn.writes.distinct, hshown.keys, fun entry hentry => ?_⟩,
    fun service txn request hfailure => ?_, Transaction.on_writeInPlace⟩
  · have hshows := hshown.entries entry hentry
    exact ⟨hshows.unstamped, hshows.emptied, hshows.op_eq⟩
  · have hserves := service.serve_cases txn request
    generalize service.serve txn request = left at hserves hfailure ⊢
    cases hserves with
    | failed _ hduplicate => exact ⟨rfl, hduplicate⟩
    | found => cases hfailure
    | wrote => cases hfailure

/-- Counters behind a store that fails and holds a damaged record: the deltas that were accepted
meet in one entry, and a key that was removed twice has nothing left of what stood between. -/
theorem refused_operands_and_faults_leave_no_trace_in_the_buffer :
    let k : Key := ⟨[107]⟩
    let l : Key := ⟨[108]⟩
    let serving (rules : List Rule) : Service Scripted :=
      ⟨(Engine.memory .counter).scripted, .counter,
        ⟨⟨(∅ : Records).insert k [1, 2, 3], rules⟩, LockTable.empty⟩⟩
    let failing := serving [⟨.lookup, none, 0, 1, [], some (.storage "gone")⟩]
    let calls : List (Service Scripted × Request) :=
      [(serving [], .lookup k), (serving [], .write k (.update [1])),
        (serving [], .write k (.update (Counter.encode 1))), (failing, .lookup k),
        (serving [], .write k (.update (Counter.encode 2))), (serving [], .write l .delete),
        (serving [], .write l (.update (Counter.encode 4))),
        (serving [], .write l (.insert (Counter.encode 5))), (serving [], .write l .delete)]
    let dialog := (Dialog.start 1 .serializable).run calls
    dialog.log.map (·.answer.isFailure) =
        [true, true, false, true, false, false, true, false, false] ∧
      dialog.txn.writes.entries.map (fun entry => (entry.key, entry.op, entry.tuple.value)) =
        [(k, .update, Counter.encode 3), (l, .delete, [])] ∧
      (∀ entry ∈ dialog.txn.writes.entries,
        entry.op = Message.lastOp (dialog.messages entry.key)) ∧
      (failing.serve dialog.txn (.lookup k)).2 = dialog.txn := by
  intro k l serving failing calls
  obtain ⟨⟨-, -, hentries⟩, hfailed, -⟩ :=
    accepted_writes_shape_the_buffer_and_failed_calls_change_nothing 1 .serializable calls
  refine ⟨by decide +kernel, by decide +kernel, fun entry hentry => (hentries entry hentry).2.2,
    (hfailed failing _ (.lookup k) ?_).1⟩
  decide +kernel

end StampStore
