-- A store in memory under a named operator never faults. Whatever is stored and
-- whatever is buffered can be merged, so every lookup and every commit of an active
-- transaction is answered, and a write is refused only for what it carries: under the
-- counter operator that must be a counter.
import StampStore.Proofs.Plans
import StampStore.Proofs.StampProgress

namespace StampStore

/-! ## Refused writes -/

/-- Why an active transaction is refused a write: it carries something else than a counter, or it is
a delta for a key that the transaction itself has removed. The second is a misuse and no error. -/
inductive Transaction.Refusal (txn : Transaction) (merge : MergeOperator) (key : Key) :
    Message → Failure → Prop where
  | width {message : Message} (hmerge : merge = .counter) (hcarries : message ≠ .delete)
      (hlen : message.payload.length ≠ Counter.size) :
      Refusal txn merge key message
        (.error (.merge key (.counterWidth .operand message.payload.length)))
  | removed {delta : Bytes} {entry : WriteEntry} (hentry : txn.writes.find? key = some entry)
      (hop : entry.op = .delete) :
      Refusal txn merge key (.update delta) (.misuse (.updateAfterDelete key txn.id))

namespace Counter

/-- An operand that is no counter is refused for its length. -/
theorem validate_error {key : Key} {operand : Bytes} {e : Error}
    (h : MergeOperator.counter.validate key operand = .error e) :
    operand.length ≠ size ∧ e = .merge key (.counterWidth .operand operand.length) := by
  unfold MergeOperator.counter read decode at h
  simp only at h
  by_cases hlen : operand.length = size
  · rw [if_pos hlen] at h
    cases h
  · rw [if_neg hlen] at h
    cases h
    exact ⟨hlen, rfl⟩

end Counter

/-- Of the named operators only the counter refuses what a message carries. -/
theorem Transaction.checkPayload_error {name : String} {merge : MergeOperator}
    (hname : MergeOperator.ofName? name = some merge) {key : Key} {message : Message} {e : Error}
    (h : checkPayload merge key message = .error e) :
    merge = .counter ∧ message ≠ .delete ∧ message.payload.length ≠ Counter.size ∧
      e = .merge key (.counterWidth .operand message.payload.length) := by
  rcases MergeOperator.ofName?_cases hname with rfl | rfl | rfl
  · cases message <;> cases h
  · cases message <;> cases h
  · cases message with
    | delete => cases h
    | insert value => exact ⟨rfl, by simp, Counter.validate_error h⟩
    | update delta => exact ⟨rfl, by simp, Counter.validate_error h⟩

theorem Transaction.refusal_of_write {name : String} {merge : MergeOperator} {good : Bytes → Prop}
    (hname : MergeOperator.ofName? name = some merge) (hclosed : merge.Closed good)
    {txn : Transaction} (hactive : txn.isActive = true) (hgood : txn.writes.Mergeable good)
    {key : Key} {message : Message} {failure : Failure}
    (h : txn.write merge key message = .error failure) :
    txn.Refusal merge key message failure := by
  rcases refusal_of_mergeable hclosed hactive hgood h with
    ⟨e, hcheck, rfl⟩ | ⟨delta, entry, rfl, hfind, hop, rfl⟩
  · obtain ⟨hmerge, hcarries, hlen, rfl⟩ := checkPayload_error hname hcheck
    exact .width hmerge hcarries hlen
  · exact .removed hfind hop

/-! ## What is said, how transactions end, and what is counted -/

/-- A lookup has been answered, or a write has been accepted or refused for what it is. -/
def Exchange.Served (merge : MergeOperator) (exchange : Exchange) : Prop :=
  match exchange.request, exchange.answer with
  | .lookup _, .found answer => ∃ value, answer = .ok value
  | .write key message, .done answer =>
    ∀ failure, answer = .error failure → ∃ txn : Transaction, txn.Refusal merge key message failure
  | _, _ => False

/-- Storage has stopped the transaction, before it wrote or on the way. -/
inductive Status.Faulted : Status → Prop where
  | fault : Faulted (.aborted .storageFault)
  | stopped (applied total : Nat) : Faulted (.partiallyApplied applied total)

theorem Transaction.not_faulted_abort {txn : Transaction} (h : ¬ txn.status.Faulted) :
    ¬ txn.abort.status.Faulted := by
  unfold abort
  split
  · exact fun hfault => by cases hfault
  · exact h

namespace Counters

/-- No transaction has been counted as stopped by storage. -/
structure Unfaulted (c : Counters) : Prop where
  faults : c.faults = 0
  partially : c.partially = 0

variable {c : Counters}

theorem unfaulted_zero : zero.Unfaulted := ⟨rfl, rfl⟩

theorem Unfaulted.start (h : c.Unfaulted) : c.start.Unfaulted := ⟨h.faults, h.partially⟩

theorem Unfaulted.finish (h : c.Unfaulted) {ending : Ending} (hfault : ending ≠ .storageFault)
    (hpart : ending ≠ .partiallyApplied) : (c.finish ending).Unfaulted := by
  rw [finish_eq]
  exact ⟨(if_neg hfault).trans h.faults, (if_neg hpart).trans h.partially⟩

end Counters

/-! ## One commit -/

section OneCommit

variable {app : MergeOperator} {txn decided : Transaction} {records after : Records}
  {held : LockTable}

/-- A commit that is aborted has met a conflict. -/
theorem CommitRun.conflict_of_aborted {reason : AbortReason}
    (h : CommitRun app txn records held (.ok (.aborted reason)) decided after) :
    ∃ conflict, reason = .conflict conflict := by
  cases h with
  | exhausted => exact ⟨_, rfl⟩
  | refused => exact ⟨_, rfl⟩

theorem CommitRun.not_faulted {outcome : Outcome}
    (h : CommitRun app txn records held (.ok outcome) decided after) :
    ¬ (Transaction.finalStatus (.ok outcome)).Faulted := by
  cases outcome with
  | committed ts => exact fun hfault => by cases hfault
  | aborted reason =>
    obtain ⟨conflict, rfl⟩ := h.conflict_of_aborted
    exact fun hfault => by cases hfault

theorem CommitRun.unfaulted_ended {outcome : Outcome}
    (h : CommitRun app txn records held (.ok outcome) decided after) {c : Counters}
    (hc : c.Unfaulted) (readOnly : Bool) (finished : Transaction) :
    (c.ended readOnly finished (.ok outcome)).Unfaulted := by
  cases outcome with
  | committed ts => exact hc.finish (by simp) (by simp)
  | aborted reason =>
    obtain ⟨conflict, rfl⟩ := h.conflict_of_aborted
    have hfinish : (c.finish .conflict).Unfaulted := hc.finish (by simp) (by simp)
    exact hfinish

end OneCommit

/-! ## The invariant of a session -/

variable {db : Database Records} {s s' : Session} {call : Call} {good : Bytes → Prop}

namespace Session

theorem length_step (db : Database Records) (s : Session) (call : Call) :
    s.clients.length ≤ (s.step db call).clients.length := by
  cases call with
  | begin level => exact Nat.le_of_lt (by simp [step])
  | ask n request =>
    simp only [step]
    split <;> simp
  | abort n =>
    simp only [step]
    split <;> simp
  | commit n =>
    simp only [step]
    split <;> simp

/-- A session as a system: work has its transaction as one more client. -/
def system (db : Database Records) : System db Session where
  state := Session.state
  withState s state := { s with state }
  txns s := s.clients.map (·.txn)
  enrol s txn := { s with clients := s.clients ++ [⟨txn, [], false⟩] }
  step := Session.step db
  withState_state _ := rfl
  txns_withState _ _ := rfl
  txns_enrol _ _ := List.map_append
  step_begin _ _ := rfl
  state_abort s n txn h := by
    rw [List.getElem?_map, Option.map_eq_some_iff] at h
    obtain ⟨client, hclient, rfl⟩ := h
    simp only [step, hclient]
  state_commit s n txn h := by
    rw [List.getElem?_map, Option.map_eq_some_iff] at h
    obtain ⟨client, hclient, rfl⟩ := h
    simp only [step, hclient]
  grows s call := by simpa using s.length_step db call

/-- Nothing that is stored or buffered can fail to merge, and nothing has failed to so far. -/
structure Intact (merge : MergeOperator) (good : Bytes → Prop) (s : Session) : Prop where
  stamped : s.Stamped good
  served : ∀ client ∈ s.clients, ∀ exchange ∈ client.log, exchange.Served merge
  unfaulted : ∀ client ∈ s.clients, ¬ client.txn.status.Faulted
  uncounted : s.state.counters.Unfaulted

theorem intact_start (merge : MergeOperator) (good : Bytes → Prop) (level : Isolation) :
    (start (State.initial KeyMap.empty level)).Intact merge good where
  stamped := stamped_start good rfl
  served := fun _ hclient => absurd hclient List.not_mem_nil
  unfaulted := fun _ hclient => absurd hclient List.not_mem_nil
  uncounted := Counters.unfaulted_zero

theorem Step.served (h : Step db s call s') {name : String}
    (hname : MergeOperator.ofName? name = some db.merge) (hclosed : db.merge.Closed good)
    (hs : s.Intact db.merge good) :
    ∀ client ∈ s'.clients, ∀ exchange ∈ client.log, exchange.Served db.merge := by
  refine h.forall_said hs.served ?_
  rintro n client exchange - hmem hactive hsaid
  have hmergeable := hs.stamped.mergeable client hmem
  cases hsaid with
  | found key =>
    obtain ⟨value, hview, -⟩ := view_of_mergeable hclosed hmergeable key (hs.stamped.values key)
    exact ⟨value, hview⟩
  | refused hwrite =>
    intro failure hfailure
    cases hfailure
    exact ⟨client.txn, Transaction.refusal_of_write hname hclosed hactive hmergeable hwrite⟩
  | wrote => exact fun _ hfailure => by cases hfailure

theorem Step.unfaulted (h : Step db s call s') {merge : MergeOperator}
    (hclosed : db.merge.Closed good) (hs : s.Intact merge good) :
    ∀ client ∈ s'.clients, ¬ client.txn.status.Faulted := by
  cases h with
  | begun => exact forall_mem_concat hs.unfaulted fun hfault => by cases hfault
  | idle => exact hs.unfaulted
  | looked hclient _ hlooked =>
    have hold := hs.unfaulted _ (List.mem_of_getElem? hclient)
    refine forall_mem_set hs.unfaulted ?_ _
    rw [hlooked.spec.1]
    exact hold
  | refused hclient =>
    have hold := hs.unfaulted _ (List.mem_of_getElem? hclient)
    refine forall_mem_set hs.unfaulted ?_ _
    exact hold
  | wrote hclient _ hwrite =>
    have hold := hs.unfaulted _ (List.mem_of_getElem? hclient)
    obtain ⟨writes, rfl, -⟩ := write_keys hwrite
    refine forall_mem_set hs.unfaulted ?_ _
    exact hold
  | aborted hclient =>
    have hold := hs.unfaulted _ (List.mem_of_getElem? hclient)
    exact forall_mem_set hs.unfaulted (Transaction.not_faulted_abort hold) _
  | committed hclient _ _ hrun =>
    have hmergeable := hs.stamped.mergeable _ (List.mem_of_getElem? hclient)
    obtain ⟨outcome, rfl⟩ := outcome_of_mergeable hclosed hmergeable hs.stamped.values hrun
    refine forall_mem_set hs.unfaulted ?_ _
    exact hrun.not_faulted

theorem Client.counters_ask (client : Client) (request : Request) (state : State Records) :
    (client.ask db request state).2.counters = state.counters := by
  unfold Client.ask Database.lookup
  cases request with
  | lookup key => rfl
  | write key message =>
    simp only
    split <;> rfl

/-- No call counts a transaction as stopped by storage. -/
theorem Stamped.unfaulted_step (hs : s.Stamped good) (hdb : db.InMemory)
    (hclosed : db.merge.Closed good) (hcounters : s.state.counters.Unfaulted) (call : Call) :
    (s.step db call).state.counters.Unfaulted := by
  cases call with
  | begin level => exact hcounters.start
  | ask n request =>
    simp only [step]
    split
    · exact hcounters
    · rw [Client.counters_ask]
      exact hcounters
  | abort n =>
    simp only [step]
    split
    · exact hcounters
    · rename_i client _
      have hfinish : (s.state.counters.finish .requested).Unfaulted :=
        hcounters.finish (by simp) (by simp)
      unfold State.abort
      cases client.txn.isActive with
      | false => exact hcounters
      | true => exact hfinish
  | commit n =>
    cases hclient : s.clients[n]? with
    | none =>
      simp only [step, hclient]
      exact hcounters
    | some client =>
      simp only [step, hclient]
      cases hactive : client.txn.isActive with
      | false =>
        simp only [Database.commit, hactive, Bool.false_eq_true, if_false]
        exact hcounters
      | true =>
        obtain ⟨answer, decided, after, held, hrun, -, hcommit⟩ :=
          Database.commit_eq hdb hs.quiet.shared hs.quiet.sound hactive
        obtain ⟨outcome, rfl⟩ := outcome_of_mergeable hclosed
          (hs.mergeable client (List.mem_of_getElem? hclient)) hs.values hrun
        simp only [hcommit]
        exact hrun.unfaulted_ended hcounters _ _

theorem Intact.step (hs : s.Intact db.merge good) (hdb : db.InMemory) {name : String}
    (hname : MergeOperator.ofName? name = some db.merge) (hclosed : db.merge.Closed good)
    (call : Call) : (s.step db call).Intact db.merge good :=
  have hstep := step_cases hdb hs.stamped.quiet call
  { stamped := hstep.stamped hclosed hs.stamped
    served := hstep.served hname hclosed hs
    unfaulted := hstep.unfaulted hclosed hs
    uncounted := hs.stamped.unfaulted_step hdb hclosed hs.uncounted call }

/-- Calls and changes of the level leave a session intact. -/
theorem invariant_intact (hdb : db.InMemory) {name : String}
    (hname : MergeOperator.ofName? name = some db.merge) (hclosed : db.merge.Closed good) :
    (system db).Invariant (Intact db.merge good) where
  call _ call hs := hs.step hdb hname hclosed call
  level _ _ hs :=
    { stamped := ⟨⟨hs.stamped.quiet.unlocked, hs.stamped.quiet.sound⟩, hs.stamped.dated,
        hs.stamped.values, hs.stamped.mergeable⟩
      served := hs.served
      unfaulted := hs.unfaulted
      uncounted := hs.uncounted }

/-! ## What never happens -/

/-- What a session can count on that reaches its storage through transactions alone. -/
structure Faultless (db : Database Records) (s : Session) : Prop where
  /-- A lookup of an active transaction finds a value or none. -/
  lookups : ∀ n key, s.active n = true → ∃ value, s.told db n key = some (.ok value)
  /-- A commit of an active transaction has an outcome. -/
  commits : ∀ n, s.active n = true → ∃ outcome, s.commitAnswer db n = some (.ok outcome)
  /-- An active transaction is refused a write only for what the write is. -/
  writes : ∀ client ∈ s.clients, client.txn.isActive = true → ∀ key message failure,
    db.write client.txn key message = .error failure →
      client.txn.Refusal db.merge key message failure
  /-- So it has been with all that was asked of active transactions. -/
  served : ∀ client ∈ s.clients, ∀ exchange ∈ client.log, exchange.Served db.merge
  /-- No transaction of a client has been stopped by storage. -/
  unfaulted : ∀ client ∈ s.clients, ¬ client.txn.status.Faulted
  /-- None has been counted as stopped by storage, those that work ran in included. -/
  uncounted : s.state.stats.faults = 0 ∧ s.state.stats.partially = 0
  /-- Work in a transaction of its own fails as it chooses to, because of conflicts, or because it
  has ended its transaction itself. -/
  work : ∀ policy (body : Session → Plan Session) answer failure,
    ((system db).transact policy (fun found => (body found.now).run (system db) found) answer
        (Diary.start s)).1 = .error failure →
      (∃ left, answer left = .error failure) ∨
        (∃ conflict runs, failure = .error (.givenUp (.afterRuns (.conflict conflict) runs))) ∨
          ∃ id status, failure = .error (.notActive id status)

/-- What a commit answers: an outcome that is no fault, or that the transaction is not active. -/
theorem Intact.commit_cases (hs : s.Intact db.merge good) (hdb : db.InMemory)
    (hclosed : db.merge.Closed good) {client : Client} (hclient : client ∈ s.clients) :
    (client.txn.isActive = true ∧ ∃ outcome, (db.commit [] client.txn s.state).answer = .ok outcome ∧
        ∀ reason, outcome = .aborted reason → ∃ conflict, reason = .conflict conflict) ∨
      client.txn.isActive = false ∧
        (db.commit [] client.txn s.state).answer = .error (.error client.txn.notActive) := by
  cases hactive : client.txn.isActive with
  | false =>
    refine Or.inr ⟨rfl, ?_⟩
    simp [Database.commit, hactive]
  | true =>
    obtain ⟨answer, decided, after, held, hrun, -, hcommit⟩ :=
      Database.commit_eq hdb hs.stamped.quiet.shared hs.stamped.quiet.sound hactive
    obtain ⟨outcome, rfl⟩ := outcome_of_mergeable hclosed (hs.stamped.mergeable client hclient)
      hs.stamped.values hrun
    refine Or.inl ⟨rfl, outcome, congrArg Turn.answer hcommit, ?_⟩
    rintro reason rfl
    exact hrun.conflict_of_aborted

/-- How work fails among sessions that are intact. -/
theorem cases_of_workFails (hdb : db.InMemory) (hclosed : db.merge.Closed good)
    {answer : Session → Except Failure Unit} {failure : Failure}
    (h : (system db).WorkFails (Intact db.merge good) answer failure) :
    (∃ left, answer left = .error failure) ∨
      (∃ conflict runs, failure = .error (.givenUp (.afterRuns (.conflict conflict) runs))) ∨
        ∃ id status, failure = .error (.notActive id status) := by
  cases h with
  | own _ hanswer => exact Or.inl ⟨_, hanswer⟩
  | commit hleft htxn hcommit =>
    obtain ⟨client, hclient, rfl⟩ := List.mem_map.mp htxn
    rcases hleft.commit_cases hdb hclosed hclient with ⟨-, outcome, hanswer, -⟩ | ⟨-, hanswer⟩
    · cases hcommit.symm.trans hanswer
    · cases hcommit.symm.trans hanswer
      exact Or.inr (Or.inr ⟨_, _, rfl⟩)
  | givenUp hleft htxn hcommit runs =>
    obtain ⟨client, hclient, rfl⟩ := List.mem_map.mp htxn
    rcases hleft.commit_cases hdb hclosed hclient with
      ⟨-, outcome, hanswer, hconflict⟩ | ⟨-, hanswer⟩
    · cases hcommit.symm.trans hanswer
      obtain ⟨conflict, rfl⟩ := hconflict _ rfl
      exact Or.inr (Or.inl ⟨conflict, runs, rfl⟩)
    · cases hcommit.symm.trans hanswer

theorem Intact.faultless (hs : s.Intact db.merge good) (hdb : db.InMemory) {name : String}
    (hname : MergeOperator.ofName? name = some db.merge) (hclosed : db.merge.Closed good) :
    s.Faultless db where
  lookups n key hlive := by
    obtain ⟨client, hclient, hactive⟩ := client_of_active hlive
    obtain ⟨value, hview, -⟩ := view_of_mergeable hclosed
      (hs.stamped.mergeable client (List.mem_of_getElem? hclient)) key (hs.stamped.values key)
    refine ⟨value, ?_⟩
    rw [told_view hdb hs.stamped.quiet hclient hactive, hview]
  commits n hlive := by
    obtain ⟨client, hclient, hactive⟩ := client_of_active hlive
    rcases hs.commit_cases hdb hclosed (List.mem_of_getElem? hclient) with
      ⟨-, outcome, hanswer, -⟩ | ⟨hfinished, -⟩
    · refine ⟨outcome, ?_⟩
      rw [commitAnswer, hclient, Option.map_some, hanswer]
    · cases hactive.symm.trans hfinished
  writes client hclient hactive _ _ _ hwrite :=
    Transaction.refusal_of_write hname hclosed hactive (hs.stamped.mergeable client hclient) hwrite
  served := hs.served
  unfaulted := hs.unfaulted
  uncounted := ⟨hs.uncounted.faults, hs.uncounted.partially⟩
  work policy body answer failure hfailure := by
    have hI := invariant_intact hdb hname hclosed
    have hact : (system db).Keeps (Intact db.merge good)
        fun found => (body found.now).run (system db) found :=
      fun found hfound => (body found.now).keeps_run hI found hfound
    exact cases_of_workFails hdb hclosed
      ((hI.transact answer policy hact).2 _ (Diary.holds_start hs) failure hfailure)

end Session

/-- Any transactions at any levels on a store opened in memory under a named operator, in any order
of their calls, with any work that runs in transactions of its own among them. At every moment, inside
of work as well, lookups and commits of active transactions are answered, no transaction has been
stopped by storage, and the one error that a write can meet is that it carries something else than a
counter. -/
theorem memory_store_never_faults {config : Config} {state : State Records}
    (hopen : Database.openMemory config = .ok (db, state)) (plan : Plan Session) :
    (plan.run (Session.system db) (Diary.start (Session.start state))).Holds
      (Session.Faultless db) := by
  obtain ⟨hname, hdb, hstate⟩ := openMemory_named hopen
  obtain ⟨good, hclosed⟩ := MergeOperator.closed_ofName? hname
  have hstart : (Session.start state).Intact db.merge good := by
    rw [hstate]
    exact Session.intact_start db.merge good _
  have hintact := (plan.keeps_run (Session.invariant_intact hdb hname hclosed) _
    (Diary.holds_start hstart)).1
  exact hintact.mono fun s hs => hs.faultless hdb hname hclosed

/-- Some work adds to a counter while another transaction does: the work meets a conflict, runs again
and commits. A short delta is refused to a transaction that has removed the counter, which is still
served. -/
theorem counters_are_served_around_a_conflict_and_a_short_delta :
    let k : Key := ⟨[107]⟩
    let db := Database.under .counter
    let add (n : Nat) : Plan Session → Plan Session :=
      .call (.ask n (.write k (.update (Counter.encode 5))))
    let body (found : Session) : Plan Session :=
      .call (.ask (found.clients.length - 1) (.lookup k))
        (add 1 (.call (.commit 1) (add (found.clients.length - 1) .done)))
    let plan : Plan Session := .call (.begin .serializable) (add 0 (.call (.commit 0)
      (.call (.begin .snapshot) (.transaction .standard body (fun _ => .ok ())
        (.setIsolation .repeatableRead (.call (.begin .serializable)
          (.call (.ask 4 (.write k .delete)) (.call (.ask 4 (.write k (.update [1])))
            .done))))))))
    let s := (plan.run (Session.system db) (Diary.start (Session.start State.standard))).now
    s.records.value? k = some (Counter.encode 15) ∧ s.state.stats.conflicts = 1 ∧
      s.state.stats.committed = 3 ∧ s.commits.map (·.1) = [0, 1, 3] ∧
      (∃ value, s.told db 4 k = some (.ok value)) ∧
      (∃ outcome, s.commitAnswer db 4 = some (.ok outcome)) ∧
      (s.clients[4]?.map fun client => db.write client.txn k (.update [1])) =
        some (.error (.error (.merge k (.counterWidth .operand 1)))) ∧
      s.state.stats.faults = 0 ∧ s.state.stats.partially = 0 := by
  intro k db add body plan s
  have hopen : Database.openMemory { Config.standard with merge := "counter" } =
      .ok (db, State.standard) := rfl
  have hs : s.Faultless db := (memory_store_never_faults hopen plan).now
  have hactive : s.active 4 = true := by decide +kernel
  exact ⟨by decide +kernel, by decide +kernel, by decide +kernel, by decide +kernel,
    hs.lookups 4 k hactive, hs.commits 4 hactive, by decide +kernel, hs.uncounted⟩

end StampStore
