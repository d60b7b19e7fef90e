-- Runs of calls. No call forgets what a client has read or written while its
-- transaction is active, and a finished client stays as it is. The versions of a
-- key only lead on, except where a commit removes it.
import StampStore.Proofs.Sessions

namespace StampStore

variable {db : Database Records} {s : Session}

/-! ## What calls keep -/

/-- The call does not ask for a removal. -/
def Call.keepsKeys : Call → Prop
  | .ask _ (.write _ message) => message ≠ .delete
  | _ => True

/-- Whether the client has made a write of `key` that was accepted. -/
def Client.Wrote (client : Client) (key : Key) : Prop :=
  ∃ message, ⟨.write key message, .done (.ok ())⟩ ∈ client.log

/-- The client later on: a finished transaction stays as it is, and while it is active nothing
that was read, written or said is forgotten. -/
structure Client.LeadsTo (old new : Client) : Prop where
  finished : old.txn.isActive = false → new = old
  said : old.log <+: new.log
  isolation : new.txn.isolation = old.txn.isolation
  reads : new.txn.isActive = true → ∀ entry ∈ old.txn.reads.entries, entry ∈ new.txn.reads.entries
  writes : new.txn.isActive = true → ∀ key ∈ old.txn.writes.keys, key ∈ new.txn.writes.keys

theorem Client.Wrote.later {old new : Client} {key : Key} (hwrote : old.Wrote key)
    (h : old.log <+: new.log) : new.Wrote key := by
  obtain ⟨message, hmem⟩ := hwrote
  exact ⟨message, h.subset hmem⟩

theorem Client.Wrote.request {client : Client} {key : Key} (h : client.Wrote key) :
    ∃ message, .write key message ∈ client.log.map (·.request) := by
  obtain ⟨message, hmem⟩ := h
  exact ⟨message, List.mem_map_of_mem hmem⟩

theorem Client.leadsTo_refl (client : Client) : client.LeadsTo client :=
  ⟨fun _ => rfl, List.prefix_refl _, rfl, fun _ _ h => h, fun _ _ h => h⟩

theorem Client.LeadsTo.active_of_active {old new : Client} (h : old.LeadsTo new)
    (hactive : new.txn.isActive = true) : old.txn.isActive = true := by
  by_contra hnot
  rw [Bool.not_eq_true] at hnot
  rw [h.finished hnot, hnot] at hactive
  cases hactive

/-- What a request of an active client adds to its log. -/
inductive Client.Said (merge : MergeOperator) (records : Records) (client : Client) :
    Exchange → Prop where
  | found (key : Key) : Said merge records client
      ⟨.lookup key, .found (client.txn.writes.view merge key (records.value? key))⟩
  | refused {key : Key} {message : Message} {failure : Failure}
      (hwrite : client.txn.write merge key message = .error failure) :
      Said merge records client ⟨.write key message, .done (.error failure)⟩
  | wrote {key : Key} {message : Message} {txn : Transaction}
      (hwrite : client.txn.write merge key message = .ok txn) :
      Said merge records client ⟨.write key message, .done (.ok ())⟩

theorem Client.LeadsTo.trans {a b c : Client} (hab : a.LeadsTo b) (hbc : b.LeadsTo c) :
    a.LeadsTo c where
  finished h := by
    have hb := hab.finished h
    subst hb
    exact hbc.finished h
  said := hab.said.trans hbc.said
  isolation := hbc.isolation.trans hab.isolation
  reads h e he := hbc.reads h e (hab.reads (hbc.active_of_active h) e he)
  writes h k hk := hbc.writes h k (hab.writes (hbc.active_of_active h) k hk)

theorem Transaction.Looked.spec {txn after : Transaction} {merge : MergeOperator}
    {records : Records} {key : Key} (h : txn.Looked merge records key after) :
    after.status = txn.status ∧ after.isolation = txn.isolation ∧ after.writes = txn.writes ∧
      ∀ entry ∈ txn.reads.entries, entry ∈ after.reads.entries := by
  rcases h.1 with rfl | ⟨t, rfl, -⟩
  · exact ⟨rfl, rfl, rfl, fun _ he => he⟩
  · exact ⟨rfl, rfl, rfl, fun e he => List.mem_append_left _ he⟩

theorem isActive_finish (txn : Transaction) (answer : Except Error Outcome) :
    (txn.finish (Transaction.finalStatus answer)).isActive = false := by
  unfold Transaction.finish Transaction.isActive Transaction.finalStatus
  split <;> rfl

theorem getElem?_set_some {α : Type} {l : List α} {a next : α} {n : Nat} (h : l[n]? = some a)
    (m : Nat) : (l.set n next)[m]? = if n = m then some next else l[m]? := by
  obtain ⟨hn, -⟩ := List.getElem?_eq_some_iff.mp h
  rw [List.getElem?_set, if_pos hn]

theorem forall_mem_set {α : Type} {P : α → Prop} {l : List α} {next : α} (hs : ∀ a ∈ l, P a)
    (hnext : P next) (n : Nat) : ∀ a ∈ l.set n next, P a := by
  intro a ha
  rcases List.mem_or_eq_of_mem_set ha with ha | rfl
  · exact hs a ha
  · exact hnext

theorem forall_mem_concat {α : Type} {P : α → Prop} {l : List α} {next : α} (hs : ∀ a ∈ l, P a)
    (hnext : P next) : ∀ a ∈ l ++ [next], P a := by
  intro a ha
  rcases List.mem_append.mp ha with ha | ha
  · exact hs a ha
  · exact List.mem_singleton.mp ha ▸ hnext

namespace Session

variable {call : Call} {s' : Session}

namespace Step

theorem quiet (h : Step db s call s') (hq : s.Quiet) : s'.Quiet := by
  have hkeep : ∀ {state : State Records} {clients : List Client} {commits : List (Nat × Timestamp)},
      state.shared = s.state.shared → Quiet ⟨state, clients, commits⟩ := by
    intro state clients commits hshared
    refine ⟨?_, ?_⟩
    · exact (congrArg Shared.locks hshared).trans hq.unlocked
    · unfold records
      simp only
      rw [hshared]
      exact hq.sound
  cases h with
  | begun hshared => exact hkeep hshared
  | idle => exact hq
  | looked => exact hkeep rfl
  | refused => exact hkeep rfl
  | wrote => exact hkeep rfl
  | aborted _ _ hshared => exact hkeep hshared
  | committed _ _ _ hrun hshared =>
    refine ⟨congrArg Shared.locks hshared, ?_⟩
    unfold records
    simp only
    rw [hshared]
    exact hrun.sound hq.sound

/-- A call leads on from what was stored under a key, or removes it. -/
theorem leadsTo (h : Step db s call s') (key : Key) :
    Records.LeadsTo key s.records s'.records ∨
      (s'.records.tuple? key = none ∧
        ∃ client ∈ s.clients, ∃ entry ∈ client.txn.writes.entries, entry.op = .delete) := by
  have hkeep : ∀ {state : State Records} {clients : List Client} {commits : List (Nat × Timestamp)},
      state.shared = s.state.shared →
      Records.LeadsTo key s.records (records ⟨state, clients, commits⟩) := by
    intro state clients commits hshared
    apply Records.leadsTo_of_tuple?_eq
    unfold records
    rw [hshared]
  cases h with
  | begun hshared => exact Or.inl (hkeep hshared)
  | idle => exact Or.inl (hkeep rfl)
  | looked => exact Or.inl (hkeep rfl)
  | refused => exact Or.inl (hkeep rfl)
  | wrote => exact Or.inl (hkeep rfl)
  | aborted _ _ hshared => exact Or.inl (hkeep hshared)
  | committed hclient _ _ hrun hshared =>
    unfold records at *
    simp only [hshared]
    rcases hrun.leadsTo key with hlead | ⟨hgone, hdelete⟩
    · exact Or.inl hlead
    · exact Or.inr ⟨hgone, _, List.mem_of_getElem? hclient, hdelete⟩

/-- What holds of all that has been said still does after a call, if it holds of what the call
adds. -/
theorem forall_said {E : Exchange → Prop} (h : Step db s call s')
    (hs : ∀ client ∈ s.clients, ∀ exchange ∈ client.log, E exchange)
    (hnew : ∀ n client exchange, call = .ask n exchange.request → client ∈ s.clients →
      client.txn.isActive = true → client.Said db.merge s.records exchange → E exchange) :
    ∀ client ∈ s'.clients, ∀ exchange ∈ client.log, E exchange := by
  have hsaid : ∀ {client : Client} {exchange : Exchange}, client ∈ s.clients → E exchange →
      ∀ e ∈ client.log ++ [exchange], E e := by
    intro client exchange hclient hexchange e he
    rcases List.mem_append.mp he with he | he
    · exact hs client hclient e he
    · exact List.mem_singleton.mp he ▸ hexchange
  cases h with
  | begun => exact forall_mem_concat hs (by simp)
  | idle => exact hs
  | @looked n client key _ hclient hactive =>
    have hmem := List.mem_of_getElem? hclient
    refine forall_mem_set hs ?_ _
    exact hsaid hmem (hnew n client _ rfl hmem hactive (.found key))
  | @refused n client _ _ _ hclient hactive hwrite =>
    have hmem := List.mem_of_getElem? hclient
    refine forall_mem_set hs ?_ _
    exact hsaid hmem (hnew n client _ rfl hmem hactive (.refused hwrite))
  | @wrote n client _ _ _ hclient hactive hwrite =>
    have hmem := List.mem_of_getElem? hclient
    refine forall_mem_set hs ?_ _
    exact hsaid hmem (hnew n client _ rfl hmem hactive (.wrote hwrite))
  | aborted hclient =>
    have hold := hs _ (List.mem_of_getElem? hclient)
    refine forall_mem_set hs ?_ _
    exact hold
  | committed hclient =>
    have hold := hs _ (List.mem_of_getElem? hclient)
    refine forall_mem_set hs ?_ _
    exact hold

/-- What holds of every write buffer still does after a call, if it holds of the empty one and of
the one that the call leaves. -/
theorem forall_buffers {P : WriteBuffer → Prop} (h : Step db s call s')
    (hs : ∀ client ∈ s.clients, P client.txn.writes) (hempty : P WriteBuffer.empty)
    (hwrite : ∀ {n key message} {txn after : Transaction}, call = .ask n (.write key message) →
      P txn.writes → txn.write db.merge key message = .ok after → P after.writes) :
    ∀ client ∈ s'.clients, P client.txn.writes := by
  cases h with
  | begun => exact forall_mem_concat hs hempty
  | idle => exact hs
  | looked hclient _ hlooked =>
    have hold := hs _ (List.mem_of_getElem? hclient)
    refine forall_mem_set hs ?_ _
    rw [hlooked.spec.2.2.1]
    exact hold
  | refused hclient =>
    have hold := hs _ (List.mem_of_getElem? hclient)
    refine forall_mem_set hs ?_ _
    exact hold
  | wrote hclient _ hwritten =>
    have hold := hs _ (List.mem_of_getElem? hclient)
    refine forall_mem_set hs ?_ _
    exact hwrite rfl hold hwritten
  | aborted hclient hactive =>
    refine forall_mem_set hs ?_ _
    rw [Transaction.abort, if_pos hactive]
    exact hempty
  | committed => exact forall_mem_set hs hempty _

theorem keepsClient (h : Step db s call s') {m : Nat} {old : Client}
    (hm : s.clients[m]? = some old) :
    ∃ new, s'.clients[m]? = some new ∧ old.LeadsTo new := by
  have hset : ∀ {n : Nat} {client next : Client}, s.clients[n]? = some client →
      client.LeadsTo next → ∃ new, (s.clients.set n next)[m]? = some new ∧ old.LeadsTo new := by
    intro n client next hclient hlead
    rw [getElem?_set_some hclient]
    by_cases hnm : n = m
    · subst hnm
      rw [if_pos rfl]
      rw [hclient] at hm
      cases hm
      exact ⟨next, rfl, hlead⟩
    · rw [if_neg hnm]
      exact ⟨old, hm, old.leadsTo_refl⟩
  cases h with
  | begun =>
    refine ⟨old, ?_, old.leadsTo_refl⟩
    obtain ⟨hlt, -⟩ := List.getElem?_eq_some_iff.mp hm
    rw [List.getElem?_append_left hlt]
    exact hm
  | idle => exact ⟨old, hm, old.leadsTo_refl⟩
  | looked hclient hactive hlooked =>
    obtain ⟨hstatus, hiso, hwrites, hreads⟩ := hlooked.spec
    refine hset hclient ⟨?_, List.prefix_append _ _, hiso, fun _ => hreads, fun _ k hk => ?_⟩
    · intro hnot
      rw [hnot] at hactive
      cases hactive
    · simp only [hwrites]
      exact hk
  | refused hclient hactive =>
    refine hset hclient ⟨?_, List.prefix_append _ _, rfl, fun _ _ he => he, fun _ _ hk => hk⟩
    intro hnot
    rw [hnot] at hactive
    cases hactive
  | wrote hclient hactive hwrite =>
    obtain ⟨writes, rfl, hkeys⟩ := write_keys hwrite
    refine hset hclient ⟨?_, List.prefix_append _ _, rfl, fun _ _ he => he, fun _ k hk => ?_⟩
    · intro hnot
      rw [hnot] at hactive
      cases hactive
    · exact (hkeys k).mpr (Or.inl hk)
  | aborted hclient hactive =>
    have hdone : ∀ {client : Client}, client.txn.isActive = true →
        client.LeadsTo { client with txn := client.txn.abort } := by
      intro client hactive
      unfold Transaction.abort
      rw [if_pos hactive]
      exact ⟨by simp [hactive], List.prefix_refl _, rfl, by simp [Transaction.finish,
        Transaction.isActive, Status.isActive], by simp [Transaction.finish,
        Transaction.isActive, Status.isActive]⟩
    exact hset hclient (hdone hactive)
  | committed hclient hactive _ hrun =>
    refine hset hclient ⟨by simp [hactive], List.prefix_refl _, hrun.isolation, ?_, ?_⟩
    all_goals
      intro hnot
      rw [isActive_finish] at hnot
      cases hnot

end Step

/-! ## Runs -/

theorem quiet_run (hdb : db.InMemory) (hq : s.Quiet) (calls : List Call) :
    (s.run db calls).Quiet := by
  induction calls generalizing s with
  | nil => exact hq
  | cons call calls ih =>
    rw [run_cons]
    exact ih ((step_cases hdb hq call).quiet hq)

/-- What every call keeps holds after a run. -/
theorem run_invariant {I : Session → Prop} (hdb : db.InMemory) (hq : s.Quiet) (hs : I s)
    {calls : List Call}
    (hstep : ∀ {s call s'}, call ∈ calls → Step db s call s' → I s → I s') :
    I (s.run db calls) := by
  induction calls generalizing s with
  | nil => exact hs
  | cons call calls ih =>
    rw [run_cons]
    have hfirst := step_cases hdb hq call
    exact ih (hfirst.quiet hq) (hstep List.mem_cons_self hfirst hs)
      fun hmem => hstep (List.mem_cons_of_mem call hmem)

theorem keepsClient_run (hdb : db.InMemory) (hq : s.Quiet) (calls : List Call) {m : Nat}
    {old : Client} (hm : s.clients[m]? = some old) :
    ∃ new, (s.run db calls).clients[m]? = some new ∧ old.LeadsTo new := by
  refine run_invariant (I := fun s => ∃ new, s.clients[m]? = some new ∧ old.LeadsTo new) hdb hq
    ⟨old, hm, old.leadsTo_refl⟩ ?_
  rintro s call s' - hstep ⟨mid, hmid, hfirst⟩
  obtain ⟨new, hnew, hrest⟩ := hstep.keepsClient hmid
  exact ⟨new, hnew, hfirst.trans hrest⟩

/-- A client that is active at the end of a run was active all the time since it began. -/
theorem active_earlier (hdb : db.InMemory) (hq : s.Quiet) {part calls : List Call}
    (hpart : part <+: calls) {m : Nat} {old : Client} (hm : s.clients[m]? = some old)
    (hactive : (s.run db calls).active m = true) : (s.run db part).active m = true := by
  obtain ⟨rest, rfl⟩ := hpart
  obtain ⟨mid, hmid, -⟩ := keepsClient_run hdb hq part hm
  obtain ⟨new, hnew, hlead⟩ := keepsClient_run hdb (quiet_run hdb hq part) rest hmid
  rw [← run_append] at hnew
  rw [active_of_client hnew] at hactive
  rw [active_of_client hmid]
  exact hlead.active_of_active hactive

/-- While a key stays, its versions only lead on. -/
theorem leadsTo_run_of_present (hdb : db.InMemory) (hq : s.Quiet) {key : Key} (calls : List Call)
    (hstays : ∀ part, part <+: calls → (s.run db part).records.tuple? key ≠ none) :
    Records.LeadsTo key s.records (s.run db calls).records := by
  induction calls generalizing s with
  | nil => exact Records.leadsTo_of_tuple?_eq rfl
  | cons call calls ih =>
    rw [run_cons]
    have hstep := step_cases hdb hq call
    have hq' := hstep.quiet hq
    have hfirst : Records.LeadsTo key s.records (s.step db call).records := by
      rcases hstep.leadsTo key with hlead | ⟨hgone, -⟩
      · exact hlead
      · exact absurd hgone (hstays [call] (List.prefix_append [call] calls))
    refine hfirst.trans (ih hq' ?_) hq'.sound
    intro part hpart
    exact hstays (call :: part) (List.prefix_cons_inj call |>.mpr hpart)

/-! ## Runs without removals -/

/-- No transaction has buffered a removal. -/
def NoRemovals (s : Session) : Prop :=
  ∀ client ∈ s.clients, ∀ entry ∈ client.txn.writes.entries, entry.op ≠ .delete

theorem Step.noRemovals (h : Step db s call s') (hcall : call.keepsKeys) (hs : s.NoRemovals) :
    s'.NoRemovals := by
  refine h.forall_buffers (P := fun buffer => ∀ entry ∈ buffer.entries, entry.op ≠ .delete) hs
    (by simp [WriteBuffer.empty]) ?_
  rintro n key message txn after rfl hold hwrite
  exact write_keeps hwrite hcall hold

theorem noRemovals_run (hdb : db.InMemory) (hq : s.Quiet) (hs : s.NoRemovals) {calls : List Call}
    (hcalls : ∀ call ∈ calls, call.keepsKeys) : (s.run db calls).NoRemovals :=
  run_invariant hdb hq hs fun hmem hstep => hstep.noRemovals (hcalls _ hmem)

/-- Without removals every key stays, and its versions only lead on. -/
theorem leadsTo_run (hdb : db.InMemory) (hq : s.Quiet) (hs : s.NoRemovals) {calls : List Call}
    (hcalls : ∀ call ∈ calls, call.keepsKeys) (key : Key) :
    Records.LeadsTo key s.records (s.run db calls).records := by
  induction calls generalizing s with
  | nil => exact Records.leadsTo_of_tuple?_eq rfl
  | cons call calls ih =>
    rw [run_cons]
    have hstep := step_cases hdb hq call
    have hq' := hstep.quiet hq
    have hrest := ih hq' (hstep.noRemovals (hcalls call List.mem_cons_self) hs)
      fun c hc => hcalls c (List.mem_cons_of_mem call hc)
    refine Records.LeadsTo.trans ?_ hrest hq'.sound
    rcases hstep.leadsTo key with hlead | ⟨-, client, hclient, entry, hentry, hop⟩
    · exact hlead
    · exact absurd hop (hs client hclient entry hentry)

/-! ## Commits of a run -/

/-- From `s` to `s'` client `n` commits at `ts`. -/
structure CommitsAt (db : Database Records) (s : Session) (n : Nat) (ts : Timestamp)
    (s' : Session) (client : Client) (held : LockTable) (decided : Transaction) : Prop where
  before : s.clients[n]? = some client
  active : client.txn.isActive = true
  run : CommitRun db.merge client.txn s.records held (.ok (.committed ts)) decided s'.records
  after : s'.clients[n]? = some { client with txn := decided.finish .committed }

/-- A new commit of a session is one that its call has made. -/
theorem Step.new_commit (h : Step db s call s') {c : Nat × Timestamp} (hc : c ∈ s'.commits)
    (hnew : c ∉ s.commits) :
    call = .commit c.1 ∧ ∃ client held decided, CommitsAt db s c.1 c.2 s' client held decided := by
  cases h with
  | begun => exact absurd hc hnew
  | idle => exact absurd hc hnew
  | looked => exact absurd hc hnew
  | refused => exact absurd hc hnew
  | wrote => exact absurd hc hnew
  | aborted => exact absurd hc hnew
  | @committed n client _ held answer decided _ hclient hactive _ hrun hshared =>
    rcases List.mem_append.mp hc with hc | hc
    · exact absurd hc hnew
    · rw [Option.mem_toList, Option.map_eq_some_iff] at hc
      obtain ⟨ts, htime, rfl⟩ := hc
      obtain rfl := answer_of_commitTime? htime
      refine ⟨rfl, client, held, decided, hclient, hactive, ?_, ?_⟩
      · unfold records
        simp only [hshared]
        exact hrun
      · simp only
        rw [getElem?_set_some hclient, if_pos rfl]
        rfl

/-- Only finished clients have committed, and every buffered write was accepted. -/
structure Orderly (s : Session) : Prop where
  finished : ∀ c ∈ s.commits, ∃ client, s.clients[c.1]? = some client ∧ client.txn.isActive = false
  logged : ∀ client ∈ s.clients, ∀ key ∈ client.txn.writes.keys, client.Wrote key

theorem orderly_start (state : State Records) : (start state).Orderly :=
  ⟨fun _ h => absurd h List.not_mem_nil, fun _ h => absurd h List.not_mem_nil⟩

theorem Step.logged (h : Step db s call s')
    (hs : ∀ client ∈ s.clients, ∀ key ∈ client.txn.writes.keys, client.Wrote key) :
    ∀ client ∈ s'.clients, ∀ key ∈ client.txn.writes.keys, client.Wrote key := by
  cases h with
  | begun =>
    exact forall_mem_concat hs (by simp [Transaction.start, WriteBuffer.empty, WriteBuffer.keys])
  | idle => exact hs
  | looked hclient _ hlooked =>
    have hold := hs _ (List.mem_of_getElem? hclient)
    refine forall_mem_set hs ?_ _
    rw [hlooked.spec.2.2.1]
    exact fun key hkey => (hold key hkey).later (List.prefix_append _ _)
  | refused hclient =>
    have hold := hs _ (List.mem_of_getElem? hclient)
    refine forall_mem_set hs ?_ _
    exact fun key hkey => (hold key hkey).later (List.prefix_append _ _)
  | wrote hclient _ hwrite =>
    have hold := hs _ (List.mem_of_getElem? hclient)
    obtain ⟨writes, rfl, hkeys⟩ := write_keys hwrite
    refine forall_mem_set hs (fun key hkey => ?_) _
    rcases (hkeys key).mp hkey with hkey | rfl
    · exact (hold key hkey).later (List.prefix_append _ _)
    · exact ⟨_, List.mem_append_right _ (List.mem_singleton.mpr rfl)⟩
  | aborted hclient hactive =>
    refine forall_mem_set hs ?_ _
    rw [Transaction.abort, if_pos hactive]
    simp [Transaction.finish, WriteBuffer.empty, WriteBuffer.keys]
  | committed =>
    exact forall_mem_set hs (by simp [Transaction.finish, WriteBuffer.empty, WriteBuffer.keys]) _

theorem Step.orderly (h : Step db s call s') (hs : s.Orderly) : s'.Orderly := by
  refine ⟨?_, h.logged hs.logged⟩
  intro c hc
  by_cases hold : c ∈ s.commits
  · obtain ⟨old, hclient, hfinished⟩ := hs.finished c hold
    obtain ⟨new, hnew, hlead⟩ := h.keepsClient hclient
    rw [hlead.finished hfinished] at hnew
    exact ⟨old, hnew, hfinished⟩
  · obtain ⟨-, client, held, decided, hcommit⟩ := h.new_commit hc hold
    exact ⟨_, hcommit.after, rfl⟩

theorem orderly_run (hdb : db.InMemory) (hq : s.Quiet) (hs : s.Orderly) (calls : List Call) :
    (s.run db calls).Orderly :=
  run_invariant hdb hq hs fun _ hstep => hstep.orderly

/-- Every new commit of a run is made by one of its calls. -/
theorem commit_in_run (hdb : db.InMemory) (hq : s.Quiet) {calls : List Call}
    {c : Nat × Timestamp} (hc : c ∈ (s.run db calls).commits) (hnew : c ∉ s.commits) :
    ∃ before later client held decided, calls = before ++ .commit c.1 :: later ∧
      CommitsAt db (s.run db before) c.1 c.2 (s.run db (before ++ [.commit c.1])) client held
        decided := by
  induction calls generalizing s with
  | nil => exact absurd hc hnew
  | cons call calls ih =>
    rw [run_cons] at hc
    have hstep := step_cases hdb hq call
    by_cases hmid : c ∈ (s.step db call).commits
    · obtain ⟨rfl, client, held, decided, hcommit⟩ := hstep.new_commit hmid hnew
      exact ⟨[], calls, client, held, decided, rfl, hcommit⟩
    · obtain ⟨before, later, client, held, decided, rfl, hcommit⟩ := ih (hstep.quiet hq) hc hmid
      exact ⟨call :: before, later, client, held, decided, rfl, hcommit⟩

end Session

end StampStore
