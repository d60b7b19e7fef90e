-- Serializability. Serializable transactions that remove nothing may run in any
-- order of their calls. The committed ones run again one at a time, in the order of
-- their commit times, and every client is told what it was told before.
import StampStore.Proofs.CommitOrder

namespace StampStore

variable {db : Database Records} {s s' : Session} {call : Call} {good : Bytes → Prop}

/-! ## The invariant of a run -/

/-- What holds between the calls of serializable transactions that remove nothing. -/
structure Session.Serialized (merge : MergeOperator) (good : Bytes → Prop) (s : Session) :
    Prop where
  quiet : s.Quiet
  orderly : s.Orderly
  history : History merge good s.past s.records
  tracked : ∀ client ∈ s.clients, client.txn.isActive = true →
    client.Tracked merge good s.past s.records

/-- The call begins no transaction but a serializable one. -/
def Call.serializable : Call → Prop
  | .begin level => level = .serializable
  | _ => True

/-- Every committed client has found the keys that it looked up in storage. -/
def Session.Found (s : Session) : Prop :=
  ∀ c ∈ s.commits, ∀ client ∈ s.clients[c.1]?, client.missed = false

instance (s : Session) : Decidable s.Found :=
  inferInstanceAs (Decidable (∀ c ∈ s.commits, ∀ client ∈ s.clients[c.1]?, client.missed = false))

namespace Session

theorem Step.eq_of_inactive (h : Step db s call s') {n : Nat} (hcall : call.client? = some n)
    (hidle : s.active n = false) : s' = s := by
  have hnot : ∀ {client : Client}, s.clients[n]? = some client → client.txn.isActive = true →
      False := by
    intro client hclient hactive
    rw [active_of_client hclient, hactive] at hidle
    cases hidle
  cases h with
  | begun => cases hcall
  | idle => rfl
  | looked hclient hactive => cases hcall; exact (hnot hclient hactive).elim
  | refused hclient hactive => cases hcall; exact (hnot hclient hactive).elim
  | wrote hclient hactive => cases hcall; exact (hnot hclient hactive).elim
  | aborted hclient hactive => cases hcall; exact (hnot hclient hactive).elim
  | committed hclient hactive => cases hcall; exact (hnot hclient hactive).elim

/-- A call that neither commits nor changes a record keeps what holds, if the client that it is for
is finished afterwards or still tracked. -/
theorem Serialized.of_same (hs : s.Serialized db.merge good) (h : Step db s call s')
    (hcommits : s'.commits = s.commits) (hrecords : s'.records = s.records)
    (hclients : ∀ client ∈ s'.clients, client.txn.isActive = true →
      client ∈ s.clients ∨ client.Tracked db.merge good s.past s.records) :
    s'.Serialized db.merge good := by
  have hpast : s'.past = s.past := past_of_same hcommits fun c hc => h.logOf hs.orderly hc
  refine ⟨h.quiet hs.quiet, h.orderly hs.orderly, ?_, ?_⟩
  all_goals rw [hpast, hrecords]
  · exact hs.history
  · intro client hclient hactive
    rcases hclients client hclient hactive with hold | hnew
    · exact hs.tracked client hold hactive
    · exact hnew

theorem Serialized.begun (hs : s.Serialized db.merge good)
    (h : Step db s (.begin .serializable) s') : s'.Serialized db.merge good := by
  have hstep := h
  cases h with
  | idle hcall => cases hcall
  | @begun _ id state hshared =>
    refine hs.of_same hstep rfl (congrArg Shared.stored hshared) ?_
    intro client hclient _
    rcases List.mem_append.mp hclient with hclient | hclient
    · exact Or.inl hclient
    · rw [List.mem_singleton] at hclient
      subst hclient
      exact Or.inr (Client.tracked_start _ _ _ _ id)

theorem Serialized.asked (hs : s.Serialized db.merge good) (hclosed : db.merge.Closed good)
    {n : Nat} {request : Request} (hkeep : request.keepsKeys)
    (h : Step db s (.ask n request) s') : s'.Serialized db.merge good := by
  cases hlive : s.active n with
  | false =>
    rw [h.eq_of_inactive rfl hlive]
    exact hs
  | true =>
    obtain ⟨client, hclient, hactive⟩ := client_of_active hlive
    have htracked := hs.tracked client (List.mem_of_getElem? hclient) hactive
    obtain ⟨next, hnext, hasked⟩ :=
      h.asked hclient hactive fun entry hentry => (htracked.good entry hentry).1
    refine hs.of_same h (by rw [hnext]) (by rw [hnext]; rfl) ?_
    intro other hother _
    rw [hnext] at hother
    rcases List.mem_or_eq_of_mem_set hother with hother | rfl
    · exact Or.inl hother
    · exact Or.inr
        (htracked.asked hclosed hs.history.good hs.quiet.sound hs.history.current hkeep hasked)

theorem Serialized.aborted (hs : s.Serialized db.merge good) {n : Nat}
    (h : Step db s (.abort n) s') : s'.Serialized db.merge good := by
  have hstep := h
  cases h with
  | idle => exact hs
  | aborted hclient hlive hshared =>
    refine hs.of_same hstep rfl (congrArg Shared.stored hshared) ?_
    intro other hother hactive
    rcases List.mem_or_eq_of_mem_set hother with hother | rfl
    · exact Or.inl hother
    · simp only [Transaction.abort, if_pos hlive] at hactive
      cases hactive

/-- A commit that is refused keeps the history, and all clients but its own. -/
theorem Serialized.refused (hs : s.Serialized db.merge good) (hquiet : s'.Quiet)
    (horderly : s'.Orderly) (hpast : s'.past = s.past) {client : Client} {held : LockTable}
    {reason : AbortReason} {decided : Transaction} (hgood : client.txn.writes.Good good)
    (hrun : CommitRun db.merge client.txn s.records held (.ok (.aborted reason)) decided s'.records)
    (hothers : ∀ other ∈ s'.clients, other.txn.isActive = true → other ∈ s.clients) :
    s'.Serialized db.merge good := by
  have hlead := leadsTo_of_good hgood hrun
  refine ⟨hquiet, horderly, ?_, ?_⟩
  all_goals rw [hpast]
  · apply hs.history.mono
    · exact fun key => (aborted_frame hrun key).1
    · exact fun key => (aborted_frame hrun key).2
    · exact fun key => rts_stampAt_le hquiet.sound (hlead key)
  · intro other hother hactive
    have hold := hs.tracked other (hothers other hother hactive) hactive
    exact hold.mono hs.quiet.sound (fun _ _ _ => rfl) hlead

/-- A commit that goes through takes its place in the history. -/
theorem Serialized.placed (hs : s.Serialized db.merge good) (hclosed : db.merge.Closed good)
    (hquiet : s'.Quiet) (horderly : s'.Orderly) {client : Client} {held : LockTable}
    {c : Timestamp} {decided : Transaction} (hpast : s'.past = place ⟨c, client.log⟩ s.past)
    (htracked : client.Tracked db.merge good s.past s.records) (hfound : client.missed = false)
    (hrun : CommitRun db.merge client.txn s.records held (.ok (.committed c)) decided s'.records)
    (hothers : ∀ other ∈ s'.clients, other.txn.isActive = true → other ∈ s.clients) :
    s'.Serialized db.merge good := by
  refine ⟨hquiet, horderly, ?_, ?_⟩
  all_goals rw [hpast]
  · exact hs.history.commit hclosed hs.quiet.sound htracked hfound hrun
  · intro other hother hactive
    have hold := hs.tracked other (hothers other hother hactive) hactive
    exact hold.mono hs.quiet.sound (fun _ _ hle => hs.history.values_kept htracked hrun hle)
      (leadsTo_of_good htracked.good hrun)

theorem Serialized.committed (hs : s.Serialized db.merge good) (hclosed : db.merge.Closed good)
    {n : Nat} (h : Step db s (.commit n) s') (hfound : s'.Found) :
    s'.Serialized db.merge good := by
  have hquiet := h.quiet hs.quiet
  have horderly := h.orderly hs.orderly
  have hlogs : ∀ c ∈ s.commits, s'.logOf c.1 = s.logOf c.1 := fun c hc => h.logOf hs.orderly hc
  cases h with
  | idle => exact hs
  | @committed _ client state held answer decided after hclient hlive _ hrun hshared =>
    have htracked := hs.tracked client (List.mem_of_getElem? hclient) hlive
    obtain ⟨outcome, rfl⟩ :=
      outcome_of_mergeable hclosed htracked.good.mergeable hs.history.good hrun
    have hothers : ∀ other ∈ s.clients.set n { client with
        txn := decided.finish (Transaction.finalStatus (.ok outcome)) },
        other.txn.isActive = true → other ∈ s.clients := by
      intro other hother hactive
      rcases List.mem_or_eq_of_mem_set hother with hother | rfl
      · exact hother
      · rw [isActive_finish] at hactive
        cases hactive
    have hdone : (s.clients.set n { client with
        txn := decided.finish (Transaction.finalStatus (.ok outcome)) })[n]? = _ :=
      (getElem?_set_some hclient n).trans (if_pos rfl)
    have hafter : state.shared.stored = after := congrArg Shared.stored hshared
    rw [← hafter] at hrun
    cases outcome with
    | aborted reason =>
      exact hs.refused hquiet horderly (past_of_same (List.append_nil _) hlogs) htracked.good hrun
        hothers
    | committed c =>
      refine hs.placed hclosed hquiet horderly ?_ htracked ?_ hrun hothers
      · refine (past_of_commit rfl hlogs).trans ?_
        unfold logOf
        simp only [hdone]
      · have hmissed := hfound (n, c) (List.mem_append_right _ (List.mem_singleton.mpr rfl)) _ hdone
        exact hmissed

/-- A call that removes nothing keeps what holds between calls. -/
theorem Step.serialized (h : Step db s call s') (hs : s.Serialized db.merge good)
    (hclosed : db.merge.Closed good) (hlevel : call.serializable) (hkeep : call.keepsKeys)
    (hfound : s'.Found) : s'.Serialized db.merge good := by
  cases call with
  | begin level =>
    cases hlevel
    exact hs.begun h
  | ask n request =>
    refine hs.asked hclosed ?_ h
    cases request with
    | lookup key => trivial
    | write key message => exact hkeep
  | abort n => exact hs.aborted h
  | commit n => exact hs.committed hclosed h hfound

/-- Once committed, a client stays committed and hears nothing more. -/
theorem Step.found (h : Step db s call s') (ho : s.Orderly) (hfound : s'.Found) : s.Found := by
  have hcommits : ∀ c ∈ s.commits, c ∈ s'.commits := by
    intro c hc
    cases h with
    | begun => exact hc
    | idle => exact hc
    | looked => exact hc
    | refused => exact hc
    | wrote => exact hc
    | aborted => exact hc
    | committed => exact List.mem_append_left _ hc
  intro c hc client hclient
  obtain ⟨old, hold, hfinished⟩ := ho.finished c hc
  rw [hclient] at hold
  cases hold
  obtain ⟨new, hnew, hlead⟩ := h.keepsClient hclient
  rw [hlead.finished hfinished] at hnew
  exact hfound c (hcommits c hc) client hnew

theorem found_run (hdb : db.InMemory) (hq : s.Quiet) (ho : s.Orderly) {calls : List Call}
    (hfound : (s.run db calls).Found) : s.Found := by
  induction calls generalizing s with
  | nil => exact hfound
  | cons call calls ih =>
    rw [run_cons] at hfound
    have hstep := step_cases hdb hq call
    exact hstep.found ho (ih (hstep.quiet hq) (hstep.orderly ho) hfound)

theorem serialized_run (hdb : db.InMemory) (hclosed : db.merge.Closed good)
    (hs : s.Serialized db.merge good) {calls : List Call}
    (hlevel : ∀ call ∈ calls, call.serializable) (hkeep : ∀ call ∈ calls, call.keepsKeys)
    (hfound : (s.run db calls).Found) : (s.run db calls).Serialized db.merge good := by
  induction calls generalizing s with
  | nil => exact hs
  | cons call calls ih =>
    rw [run_cons] at hfound ⊢
    have hstep := step_cases hdb hs.quiet call
    have hmid := found_run hdb (hstep.quiet hs.quiet) (hstep.orderly hs.orderly) hfound
    have hs' := hstep.serialized hs hclosed (hlevel call List.mem_cons_self)
      (hkeep call List.mem_cons_self) hmid
    exact ih hs' (fun c hc => hlevel c (List.mem_cons_of_mem call hc))
      (fun c hc => hkeep c (List.mem_cons_of_mem call hc)) hfound

theorem serialized_start (merge : MergeOperator) (good : Bytes → Prop) {state : State Records}
    (h : state.shared = ⟨KeyMap.empty, LockTable.empty⟩) :
    (start state).Serialized merge good := by
  have hrecords : (start state).records = KeyMap.empty := congrArg Shared.stored h
  refine ⟨quiet_start h, orderly_start state, ⟨?_, ?_, ?_, ?_, ?_, ?_⟩, ?_⟩
  · exact ⟨List.Pairwise.nil, List.Pairwise.nil, fun _ hd => absurd hd List.not_mem_nil⟩
  · trivial
  · intro key c _
    rw [hrecords]
    rfl
  · exact fun _ hd => absurd hd List.not_mem_nil
  · exact fun _ hd => absurd hd List.not_mem_nil
  · intro key value hvalue
    rw [hrecords] at hvalue
    cases hvalue
  · exact fun _ hclient => absurd hclient List.not_mem_nil

/-! ## The replay -/

/-- The committed transactions of a session run again from `state`, one at a time in their
order. -/
def replayed (db : Database Records) (state : State Records) (done : Session) : Session :=
  (start state).run db (serially 0 ((serialOrder done.commits).map fun c => done.requestsOf c.1))

theorem requests_past (s : Session) :
    s.past.map (·.requests) = (serialOrder s.commits).map fun c => s.requestsOf c.1 := by
  unfold past
  rw [List.map_map]
  rfl

theorem logs_past (s : Session) :
    s.past.map (·.log) = (serialOrder s.commits).map fun c => s.logOf c.1 := by
  unfold past
  rw [List.map_map]
  rfl

theorem length_past (s : Session) : s.past.length = s.commits.length := by
  unfold past
  rw [List.length_map, (serialOrder_perm s.commits).length_eq]

/-- A store opened in memory is empty, and its operator never refuses what it accepts. -/
theorem openMemory_closed {config : Config} {state : State Records}
    (h : Database.openMemory config = .ok (db, state)) :
    ∃ good, db.merge.Closed good ∧ db.InMemory ∧
      state.shared = ⟨KeyMap.empty, LockTable.empty⟩ := by
  obtain ⟨hname, hdb, hstate⟩ := openMemory_named h
  obtain ⟨good, hclosed⟩ := MergeOperator.closed_ofName? hname
  exact ⟨good, hclosed, hdb, congrArg State.shared hstate⟩

/-- The whole history ends with what is stored. -/
theorem Serialized.values (hs : s.Serialized db.merge good) :
    valuesAfter db.merge (fun _ => none) s.past = s.records.value? := by
  funext key
  have hlast : upTo s.past Timestamp.last = s.past :=
    upTo_eq_self fun d _ => Timestamp.le_last d.time
  rw [← hs.history.current key Timestamp.last (Timestamp.le_last _), valuesAt, hlast]

/-- Serializable transactions may call in any order. If none of them removes anything, and the
committed ones found every key that they looked up in storage, then the committed ones give the
same answers when they run one at a time from the empty store in the order of their commits, they
all commit again, and they leave the same values. -/
theorem committed_transactions_replay_in_commit_order {config : Config} {state : State Records}
    (hopen : Database.openMemory config = .ok (db, state)) {calls : List Call}
    (hlevel : ∀ call ∈ calls, call.serializable) (hkeep : ∀ call ∈ calls, call.keepsKeys)
    {done : Session} (hdone : done = (start state).run db calls) (hfound : done.Found) :
    (replayed db state done).clients.map (·.log) =
        (serialOrder done.commits).map (fun c => done.logOf c.1) ∧
      (replayed db state done).commits.map (·.1) = List.range done.commits.length ∧
      ∀ key, (replayed db state done).records.value? key = done.records.value? key := by
  obtain ⟨good, hclosed, hdb, hshared⟩ := openMemory_closed hopen
  subst hdone
  have hs := serialized_run hdb hclosed (serialized_start db.merge good hshared) hlevel hkeep hfound
  have hstart := serialized_start db.merge good hshared
  have hempty : (start state).records.value? = fun _ => none := by
    funext key
    rw [show (start state).records = KeyMap.empty from congrArg Shared.stored hshared]
    rfl
  have hfits : ∀ deed ∈ ((start state).run db calls).past,
      deed.Fits db.merge (start state).records := by
    intro deed hdeed key
    have hzero : ((start state).records.stampAt key).rts = 0 := by
      rw [show (start state).records = KeyMap.empty from congrArg Shared.stored hshared]
      rfl
    rw [hzero]
    exact ⟨fun _ => Timestamp.zero_le _, hs.history.positive deed hdeed key⟩
  obtain ⟨hlogs, hnumbers, hvalues⟩ := replay_all hdb hclosed hstart.quiet hstart.history.good
    hs.history.serial (hempty ▸ hs.history.explained) hfits
  rw [requests_past] at hlogs hnumbers hvalues
  refine ⟨?_, ?_, ?_⟩
  · rw [← logs_past]
    exact hlogs
  · rw [List.range_eq_range', ← length_past]
    exact hnumbers
  · intro key
    rw [← hs.values, ← hempty]
    exact congrFun hvalues key

/-- A reader that calls commit last has its place before the writer that called first. -/
theorem reader_replays_before_an_earlier_commit :
    let a : Key := ⟨[97]⟩
    let b : Key := ⟨[98]⟩
    let done := (start State.standard).run Database.standard
      [.begin .serializable, .ask 0 (.write a (.insert [49])), .ask 0 (.write b (.insert [50])),
        .commit 0, .begin .serializable, .begin .serializable, .ask 2 (.lookup b),
        .ask 1 (.lookup a), .ask 1 (.write b (.update [51])), .ask 1 (.lookup b), .commit 1,
        .commit 2]
    done.commits = [(0, 1), (1, 2), (2, 1)] ∧ serialOrder done.commits = [(0, 1), (2, 1), (1, 2)] ∧
      (replayed Database.standard State.standard done).clients.map (·.log) =
        [done.logOf 0, done.logOf 2, done.logOf 1] ∧
      (replayed Database.standard State.standard done).commits.map (·.1) = [0, 1, 2] ∧
      ∀ key, (replayed Database.standard State.standard done).records.value? key =
        done.records.value? key := by
  intro a b done
  have hcommits : done.commits = [(0, 1), (1, 2), (2, 1)] := by decide +kernel
  have horder : serialOrder done.commits = [(0, 1), (2, 1), (1, 2)] := by
    rw [hcommits]
    decide
  obtain ⟨hlogs, hnumbers, hvalues⟩ := committed_transactions_replay_in_commit_order
    openMemory_standard (by simp [Call.serializable]) (by simp [Call.keepsKeys]) (rfl : done = _)
    (by decide +kernel)
  rw [horder] at hlogs
  rw [hcommits] at hnumbers
  clear_value done
  exact ⟨hcommits, horder, hlogs, hnumbers, hvalues⟩

end Session

end StampStore
