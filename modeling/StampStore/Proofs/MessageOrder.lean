-- Messages one after another. A transaction folds every message to a key into one
-- entry, and storage merges that entry when the commit comes. What the transaction
-- shows of a key, and what its commit leaves there, is what the messages make of the
-- stored value when they are applied one by one.
import StampStore.Proofs.StampProgress

namespace StampStore

/-! ## Messages on their own -/

namespace Message

/-- What a message makes of the value under its key. -/
def effect (merge : MergeOperator) (key : Key) (base : Option Bytes) :
    Message → Except Error (Option Bytes)
  | .insert value => .ok (some value)
  | .update delta => (merge.apply key base delta).map some
  | .delete => .ok none

/-- The value once the messages have been applied, the oldest first. -/
def applyEach (merge : MergeOperator) (key : Key) :
    Option Bytes → List Message → Except Error (Option Bytes)
  | base, [] => .ok base
  | base, message :: messages =>
    match message.effect merge key base with
    | .error e => .error e
    | .ok value => applyEach merge key value messages

/-- One message more behind the others. -/
theorem applyEach_concat {merge : MergeOperator} {key : Key} {base value : Option Bytes}
    {messages : List Message} (h : applyEach merge key base messages = .ok value)
    (message : Message) :
    applyEach merge key base (messages ++ [message]) = message.effect merge key value := by
  induction messages generalizing base with
  | nil =>
    cases h
    rw [List.nil_append, applyEach]
    cases message.effect merge key value <;> simp only [applyEach]
  | cons first messages ih =>
    rw [applyEach] at h
    rw [List.cons_append, applyEach]
    cases hfirst : first.effect merge key base with
    | error e =>
      rw [hfirst] at h
      cases h
    | ok next =>
      rw [hfirst] at h
      exact ih h

end Message

/-! ## Deltas that can be folded -/

/-- A combined delta does what the older and then the newer one do. -/
def MergeOperator.Folds (merge : MergeOperator) : Prop :=
  ∀ key base older newer delta, merge.combine key older newer = .ok delta →
    ∀ value, merge.apply key base older = .ok value →
      merge.apply key base delta = merge.apply key (some value) newer

namespace Counter

theorem add_eq_ok_iff {key : Key} {base : Option Bytes} {delta value : Bytes} :
    add key base delta = .ok value ↔
      ∃ n d, base.elim (some 0) decode = some n ∧ decode delta = some d ∧
        value = encode (n + d) := by
  unfold add read
  cases base with
  | none => cases decode delta <;> simp [eq_comm]
  | some old => cases hn : decode old <;> cases decode delta <;> simp [hn, eq_comm]

end Counter

namespace MergeOperator

theorem folds_replace : replace.Folds := fun _ _ _ _ _ hcombine _ _ => by
  cases hcombine
  rfl

theorem folds_append : append.Folds := by
  intro key base older newer delta hcombine value happly
  cases hcombine
  cases happly
  simp [append, List.append_assoc]

theorem folds_counter : counter.Folds := by
  intro key base older newer delta hcombine value happly
  simp only [counter, Counter.add_eq_ok_iff, Option.elim_some] at hcombine happly
  obtain ⟨a, b, ha, hb, rfl⟩ := hcombine
  obtain ⟨n, a', hn, ha', rfl⟩ := happly
  obtain rfl : a = a' := Option.some.inj (ha.symm.trans ha')
  have hleft : Counter.add key base (Counter.encode (a + b)) =
      .ok (Counter.encode (n + (a + b))) :=
    Counter.add_eq_ok_iff.mpr ⟨n, a + b, hn, Counter.decode_encode _, rfl⟩
  have hright : Counter.add key (some (Counter.encode (n + a))) newer =
      .ok (Counter.encode (n + a + b)) :=
    Counter.add_eq_ok_iff.mpr ⟨n + a, b, Counter.decode_encode _, hb, rfl⟩
  change Counter.add key base (Counter.encode (a + b)) =
    Counter.add key (some (Counter.encode (n + a))) newer
  rw [hleft, hright, UInt64.add_assoc]

theorem folds_ofName? {name : String} {merge : MergeOperator} (h : ofName? name = some merge) :
    merge.Folds := by
  rcases ofName?_cases h with rfl | rfl | rfl
  · exact folds_replace
  · exact folds_append
  · exact folds_counter

end MergeOperator

/-! ## One message more in a buffer -/

section NewWrite

variable {txn after : Transaction} {merge : MergeOperator} {key : Key} {message : Message}
  {base shown : Option Bytes}

theorem view_push {buffer : WriteBuffer} {entry : WriteEntry}
    (h : buffer.find? entry.key = none) (k : Key) :
    (buffer.push entry h).view merge k base =
      if entry.key = k then entry.effect merge base else buffer.view merge k base := by
  unfold WriteBuffer.view
  rw [WriteBuffer.find?_push]
  by_cases hk : entry.key = k <;> simp [hk]

theorem view_set_self {buffer : WriteBuffer} {entry : WriteEntry}
    (h : buffer.find? key = some entry) (op : WriteOp) (tuple : Tuple) :
    (buffer.set key op tuple).view merge key base =
      WriteEntry.effect merge ⟨key, op, tuple⟩ base := by
  unfold WriteBuffer.view WriteBuffer.set
  rw [WriteBuffer.find?_mapEntries, h]
  simp [WriteBuffer.key_of_find? h]

theorem view_set_other {buffer : WriteBuffer} {k : Key} (hne : k ≠ key) (op : WriteOp)
    (tuple : Tuple) :
    (buffer.set key op tuple).view merge k base = buffer.view merge k base := by
  unfold WriteBuffer.view WriteBuffer.set
  rw [WriteBuffer.find?_mapEntries]
  cases hfind : buffer.find? k with
  | none => rfl
  | some entry =>
    obtain rfl := WriteBuffer.key_of_find? hfind
    simp [hne]

/-- A message does not touch what is shown of other keys. -/
theorem view_write_other (h : txn.write merge key message = .ok after) {k : Key} (hne : k ≠ key)
    (base : Option Bytes) :
    after.writes.view merge k base = txn.writes.view merge k base := by
  obtain ⟨-, writes, rfl, ⟨hnew, rfl⟩ | ⟨entry, op, tuple, hfind, -, rfl⟩⟩ := write_cases h
  · rw [view_push, if_neg (Ne.symm hne)]
  · exact view_set_other hne op tuple

/-- What an entry makes of the value once a message has been folded into it. -/
theorem effect_foldMessage (hfolds : merge.Folds) {entry : WriteEntry} {op : WriteOp}
    {tuple : Tuple} (hfold : txn.foldMessage merge entry message = .ok (op, tuple))
    (hshown : entry.effect merge base = .ok shown) :
    WriteEntry.effect merge ⟨entry.key, op, tuple⟩ base = message.effect merge entry.key shown := by
  cases message with
  | insert value =>
    cases hfold
    simp [WriteEntry.effect, Message.effect]
  | delete =>
    cases hfold
    rfl
  | update delta =>
    unfold Transaction.foldMessage Transaction.foldDelta at hfold
    unfold WriteEntry.effect at hshown
    simp only at hfold
    cases hop : entry.op with
    | delete =>
      simp only [hop] at hfold
      cases hfold
    | insert =>
      simp only [hop] at hfold hshown
      cases hshown
      cases happ : merge.apply entry.key (some entry.tuple.value) delta with
      | error e =>
        simp only [happ] at hfold
        cases hfold
      | ok value =>
        simp only [happ] at hfold
        cases hfold
        simp [WriteEntry.effect, Message.effect, happ, Except.map]
    | update =>
      simp only [hop] at hfold hshown
      cases hcomb : merge.combine entry.key entry.tuple.value delta with
      | error e =>
        simp only [hcomb] at hfold
        cases hfold
      | ok folded =>
        simp only [hcomb] at hfold
        cases hfold
        cases hold : merge.apply entry.key base entry.tuple.value with
        | error e =>
          rw [hold] at hshown
          cases hshown
        | ok value =>
          rw [hold] at hshown
          cases hshown
          simp only [WriteEntry.effect, Message.effect, Tuple.value_setValue,
            hfolds _ _ _ _ _ hcomb _ hold]

/-- What is shown of the key of a message is what the message makes of what was shown before. -/
theorem view_write_self (hfolds : merge.Folds) (h : txn.write merge key message = .ok after)
    (hshown : txn.writes.view merge key base = .ok shown) :
    after.writes.view merge key base = message.effect merge key shown := by
  obtain ⟨-, writes, rfl, ⟨hnew, rfl⟩ | ⟨entry, op, tuple, hfind, hfold, rfl⟩⟩ := write_cases h
  · unfold WriteBuffer.view at hshown
    rw [hnew] at hshown
    cases hshown
    rw [view_push, if_pos rfl]
    cases message <;> simp [WriteEntry.effect, Message.effect, Message.op, Message.payload]
  · unfold WriteBuffer.view at hshown
    rw [hfind] at hshown
    rw [view_set_self hfind]
    obtain rfl := WriteBuffer.key_of_find? hfind
    exact effect_foldMessage hfolds hfold hshown

end NewWrite

/-! ## The messages of a client -/

/-- The message that was accepted for `key` in an exchange. -/
def Exchange.message? (key : Key) : Exchange → Option Message
  | ⟨.write k message, .done (.ok _)⟩ => if k = key then some message else none
  | _ => none

theorem filterMap_message?_concat (log : List Exchange) (exchange : Exchange) (key : Key) :
    (log ++ [exchange]).filterMap (Exchange.message? key) =
      log.filterMap (Exchange.message? key) ++ (exchange.message? key).toList := by
  rw [List.filterMap_append]
  cases hmessage : exchange.message? key <;> simp [hmessage]

/-- The messages to `key` that were accepted from the client, the oldest first. -/
def Client.messages (client : Client) (key : Key) : List Message :=
  client.log.filterMap (Exchange.message? key)

theorem Client.messages_concat (client : Client) (txn : Transaction) (exchange : Exchange)
    (missed : Bool) (key : Key) :
    Client.messages ⟨txn, client.log ++ [exchange], missed⟩ key =
      client.messages key ++ (exchange.message? key).toList :=
  filterMap_message?_concat client.log exchange key

variable {db : Database Records} {s s' : Session} {call : Call} {good : Bytes → Prop}

namespace Session

/-- Every active client sees what its messages make of a value, whatever good value that is. -/
def Faithful (merge : MergeOperator) (good : Bytes → Prop) (s : Session) : Prop :=
  ∀ client ∈ s.clients, client.txn.isActive = true → ∀ key base,
    (∀ value, base = some value → good value) →
    client.txn.writes.view merge key base = Message.applyEach merge key base (client.messages key)

theorem faithful_start (merge : MergeOperator) (good : Bytes → Prop) (state : State Records) :
    (start state).Faithful merge good :=
  fun _ h => absurd h List.not_mem_nil

theorem Step.faithful (h : Step db s call s') (hclosed : db.merge.Closed good)
    (hfolds : db.merge.Folds)
    (hmergeable : ∀ client ∈ s.clients, client.txn.writes.Mergeable good)
    (hs : s.Faithful db.merge good) : s'.Faithful db.merge good := by
  cases h with
  | begun => exact forall_mem_concat hs fun _ _ _ _ => rfl
  | idle => exact hs
  | looked hclient hactive hlooked =>
    have hold := hs _ (List.mem_of_getElem? hclient) hactive
    refine forall_mem_set hs (fun _ key base hbase => ?_) _
    rw [Client.messages_concat, hlooked.spec.2.2.1, hold key base hbase]
    simp [Exchange.message?]
  | @refused _ client _ _ _ hclient hactive =>
    have hold := hs _ (List.mem_of_getElem? hclient) hactive
    refine forall_mem_set hs (fun _ key base hbase => ?_) _
    rw [Client.messages_concat, hold key base hbase]
    simp [Exchange.message?]
  | @wrote _ client k message txn hclient hactive hwrite =>
    have hold := hs _ (List.mem_of_getElem? hclient) hactive
    have hbuffer := hmergeable _ (List.mem_of_getElem? hclient)
    refine forall_mem_set hs (fun _ key base hbase => ?_) _
    rw [Client.messages_concat]
    by_cases hkey : key = k
    · subst hkey
      obtain ⟨shown, hshown, -⟩ := view_of_mergeable hclosed hbuffer key hbase
      rw [view_write_self hfolds hwrite hshown, Exchange.message?, if_pos rfl,
        Option.toList_some, Message.applyEach_concat ((hold key base hbase).symm.trans hshown)]
    · rw [view_write_other hwrite hkey, hold key base hbase, Exchange.message?,
        if_neg (Ne.symm hkey), Option.toList_none, List.append_nil]
  | aborted hclient hactive =>
    refine forall_mem_set hs (fun hnot => ?_) _
    rw [Transaction.abort, if_pos hactive] at hnot
    cases hnot
  | committed =>
    refine forall_mem_set hs (fun hnot => ?_) _
    rw [isActive_finish] at hnot
    cases hnot

theorem faithful_run (hdb : db.InMemory) (hclosed : db.merge.Closed good)
    (hfolds : db.merge.Folds) (hs : s.Stamped good) (hf : s.Faithful db.merge good)
    (calls : List Call) : (s.run db calls).Faithful db.merge good := by
  refine (run_invariant (I := fun s => s.Stamped good ∧ s.Faithful db.merge good) hdb hs.quiet
    ⟨hs, hf⟩ fun _ hstep h => ?_).2
  exact ⟨hstep.stamped hclosed h.1, hstep.faithful hclosed hfolds h.1.mergeable h.2⟩

/-- What a committed buffer leaves under a key is what the messages to it make of the value. -/
theorem value?_after_commit (hdb : db.InMemory) (hs : s.Stamped good)
    {n : Nat} {client : Client} (hclient : s.clients[n]? = some client) {key : Key}
    {value : Option Bytes}
    (hview : client.txn.writes.view db.merge key (s.records.value? key) = .ok value)
    {ts : Timestamp} (hcommit : s.commitAnswer db n = some (.ok (.committed ts))) :
    (s.step db (.commit n)).records.value? key = value := by
  unfold commitAnswer at hcommit
  rw [hclient, Option.map_some, Option.some.injEq] at hcommit
  obtain ⟨answer, decided, held, hrun, -, htime⟩ :=
    step_commit hdb hs.quiet hclient (active_of_committed hcommit)
  rw [hcommit] at htime
  obtain rfl := answer_of_commitTime? htime.symm
  rw [value?_committed hrun, WriteBuffer.onto, hview]

end Session

/-- At every point of a run over a store opened in memory, under any of the named operators, an
active transaction has a value for each key: what the messages it has sent there make of the stored
value, applied one by one. A lookup answers with it, and a commit that goes through leaves it. -/
theorem buffered_messages_apply_in_order {config : Config} {state : State Records}
    (hopen : Database.openMemory config = .ok (db, state)) (calls : List Call) {n : Nat}
    {client : Client} (hclient : ((Session.start state).run db calls).clients[n]? = some client)
    (hactive : client.txn.isActive = true) (key : Key) :
    let s := (Session.start state).run db calls
    ∃ value, Message.applyEach db.merge key (s.records.value? key) (client.messages key) =
        .ok value ∧
      s.told db n key = some (.ok value) ∧
      ∀ ts, s.commitAnswer db n = some (.ok (.committed ts)) →
        (s.step db (.commit n)).records.value? key = value := by
  intro s
  obtain ⟨good, hclosed, hdb, hshared⟩ := Session.openMemory_closed hopen
  have hfolds := MergeOperator.folds_ofName? (openMemory_named hopen).1
  have hstart := Session.stamped_start good hshared
  have hs : s.Stamped good := Session.stamped_run hdb hclosed hstart calls
  have hfaithful : s.Faithful db.merge good := Session.faithful_run hdb hclosed hfolds hstart
    (Session.faithful_start db.merge good state) calls
  have hmem : client ∈ s.clients := List.mem_of_getElem? hclient
  obtain ⟨value, hview, -⟩ :=
    view_of_mergeable hclosed (hs.mergeable client hmem) key (hs.values key)
  refine ⟨value, ?_, ?_, fun ts hcommit => ?_⟩
  · rw [← hfaithful client hmem hactive key _ (hs.values key), hview]
  · rw [Session.told_view hdb hs.quiet hclient hactive, hview]
  · exact Session.value?_after_commit hdb hs hclient hview hcommit

/-- Values that two transactions append to one key: the messages of the one that commits last come
behind what the other has left, and a key that it has removed on the way starts anew. -/
theorem appended_values_stand_in_the_order_of_their_calls :
    let k : Key := ⟨[107]⟩
    let l : Key := ⟨[108]⟩
    let db := Database.under .append
    let s := (Session.start State.standard).run db [.begin .serializable,
      .ask 0 (.write k (.insert [49])), .ask 0 (.write l (.insert [49])), .commit 0,
      .begin .snapshot, .ask 1 (.write k (.update [50])), .ask 1 (.write l .delete),
      .ask 1 (.write l (.insert [])), .begin .repeatableRead, .ask 2 (.write k (.update [51])),
      .commit 2, .ask 1 (.write k (.update [52])), .ask 1 (.write l (.update [53]))]
    (s.told db 1 k = some (.ok (some [49, 51, 50, 52])) ∧
        (s.step db (.commit 1)).records.value? k = some [49, 51, 50, 52]) ∧
      s.told db 1 l = some (.ok (some [53])) ∧
        (s.step db (.commit 1)).records.value? l = some [53] := by
  intro k l db s
  have hopen : Database.openMemory { Config.standard with merge := "append" } =
      .ok (db, State.standard) := rfl
  have hactive : s.active 1 = true := by decide +kernel
  obtain ⟨client, hclient, hlive⟩ := Session.client_of_active hactive
  have hmessages : s.clients[1]?.map (fun client => (client.messages k, client.messages l)) =
      some ([.update [50], .update [52]], [.delete, .insert [], .update [53]]) := by
    decide +kernel
  rw [hclient, Option.map_some, Option.some.injEq, Prod.mk.injEq] at hmessages
  obtain ⟨hk, hl⟩ := hmessages
  have hstored : s.records.value? k = some [49, 51] := by decide +kernel
  have hcommit : s.commitAnswer db 1 = some (.ok (.committed 3)) := by decide +kernel
  obtain ⟨shown, happlied, htold, hleft⟩ :=
    buffered_messages_apply_in_order hopen _ hclient hlive k
  obtain ⟨shown', happlied', htold', hleft'⟩ :=
    buffered_messages_apply_in_order hopen _ hclient hlive l
  rw [hk, hstored] at happlied
  rw [hl] at happlied'
  cases happlied
  cases happlied'
  exact ⟨⟨htold, hleft 3 hcommit⟩, htold', hleft' 3 hcommit⟩

end StampStore
