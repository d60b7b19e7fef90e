-- Clients that insert a key they have been told is absent. A lookup that finds
-- nothing leaves no note, so two of them may commit one after the other. A client
-- that looks the key up again after its insert notes the stamp zero of the absent
-- key; once another commit has written the key, its own is refused.
import StampStore.Proofs.Overwrites

namespace StampStore

variable {db : Database Records} {s s' : Session} {call : Call} {key : Key}

/-! ## Full values in the buffer -/

/-- The buffer holds a full value for `key`. -/
def WriteBuffer.Inserts (buffer : WriteBuffer) (key : Key) : Prop :=
  ∃ entry, buffer.find? key = some entry ∧ entry.op = .insert

theorem WriteBuffer.Inserts.mem_keys {buffer : WriteBuffer} (h : buffer.Inserts key) :
    key ∈ buffer.keys := by
  obtain ⟨entry, hfind, -⟩ := h
  exact mem_keys_of_find? hfind

theorem hidden_of_inserts {txn : Transaction} (h : txn.writes.Inserts key) :
    txn.asksStorage key = false := by
  obtain ⟨entry, hfind, hop⟩ := h
  unfold Transaction.asksStorage
  rw [hfind]
  simp [hop, WriteOp.isDefinitive]

theorem view_of_inserts {buffer : WriteBuffer} (h : buffer.Inserts key) (merge : MergeOperator)
    (base : Option Bytes) : ∃ value, buffer.view merge key base = .ok (some value) := by
  obtain ⟨entry, hfind, hop⟩ := h
  refine ⟨entry.tuple.value, ?_⟩
  unfold WriteBuffer.view WriteEntry.effect
  simp only [hfind, hop]

section NewWrite

variable {txn after : Transaction} {merge : MergeOperator} {message : Message}

/-- A full value stays a full value under later writes, and a new one replaces what was there. -/
theorem op_foldMessage_insert {entry : WriteEntry} {op : WriteOp} {tuple : Tuple}
    (h : txn.foldMessage merge entry message = .ok (op, tuple)) (hmessage : message ≠ .delete)
    (hop : entry.op = .insert ∨ ∃ value, message = .insert value) : op = .insert := by
  cases message with
  | insert value =>
    cases h
    rfl
  | delete => exact absurd rfl hmessage
  | update delta =>
    have hop : entry.op = .insert := by simpa using hop
    unfold Transaction.foldMessage Transaction.foldDelta at h
    simp only [hop] at h
    split at h
    · cases h
    · cases h
      rfl

theorem inserts_write (h : txn.write merge key message = .ok after) (hmessage : message ≠ .delete)
    {k : Key} (hk : txn.writes.Inserts k ∨ (k = key ∧ ∃ value, message = .insert value)) :
    after.writes.Inserts k := by
  obtain ⟨-, writes, rfl, ⟨hnew, rfl⟩ | ⟨entry, op, tuple, hfind, hfold, rfl⟩⟩ := write_cases h
  · unfold WriteBuffer.Inserts
    rw [WriteBuffer.find?_push]
    rcases hk with ⟨old, hold, hop⟩ | ⟨rfl, value, rfl⟩
    · have hne : key ≠ k := by
        rintro rfl
        rw [hold] at hnew
        cases hnew
      rw [if_neg hne]
      exact ⟨old, hold, hop⟩
    · rw [if_pos rfl]
      exact ⟨_, rfl, rfl⟩
  · unfold WriteBuffer.Inserts WriteBuffer.set
    rw [WriteBuffer.find?_mapEntries]
    by_cases hkey : k = key
    · subst hkey
      rw [hfind, Option.map_some]
      refine ⟨_, rfl, ?_⟩
      simp only [WriteBuffer.key_of_find? hfind, if_true]
      apply op_foldMessage_insert hfold hmessage
      rcases hk with ⟨old, hold, hop⟩ | ⟨-, hinsert⟩
      · rw [hfind] at hold
        cases hold
        exact Or.inl hop
      · exact Or.inr hinsert
    · obtain ⟨old, hold, hop⟩ := hk.resolve_right fun hnew => hkey hnew.1
      rw [hold, Option.map_some]
      refine ⟨_, rfl, ?_⟩
      simp [WriteBuffer.key_of_find? hold, hkey, hop]

end NewWrite

/-! ## Accepted inserts of a client -/

/-- The client has inserted `key`. -/
def Client.Inserted (client : Client) (key : Key) : Prop :=
  ∃ value, ⟨.write key (.insert value), .done (.ok ())⟩ ∈ client.log

/-- The client has been told that `key` is absent, and has inserted it after that. -/
def Client.InsertedAbsent (client : Client) (key : Key) : Prop :=
  ∃ value, [⟨.lookup key, .found (.ok none)⟩,
    ⟨.write key (.insert value), .done (.ok ())⟩].Sublist client.log

theorem Client.InsertedAbsent.inserted {client : Client} (h : client.InsertedAbsent key) :
    client.Inserted key := by
  obtain ⟨value, hlog⟩ := h
  exact ⟨value, hlog.subset (List.mem_cons_of_mem _ List.mem_cons_self)⟩

namespace Session

/-- What an active client has inserted is in its buffer as a full value. -/
def InsertsBuffered (s : Session) : Prop :=
  ∀ client ∈ s.clients, client.txn.isActive = true → ∀ key, client.Inserted key →
    client.txn.writes.Inserts key

theorem insertsBuffered_start (state : State Records) : (start state).InsertsBuffered :=
  fun _ h => absurd h List.not_mem_nil

theorem Step.insertsBuffered (h : Step db s call s') (hcall : call.keepsKeys)
    (hs : s.InsertsBuffered) : s'.InsertsBuffered := by
  cases h with
  | begun => exact forall_mem_concat hs (by simp [Client.Inserted])
  | idle => exact hs
  | looked hclient hactive hlooked =>
    have hold := hs _ (List.mem_of_getElem? hclient) hactive
    refine forall_mem_set hs ?_ _
    rintro - k ⟨value, hmem⟩
    rw [hlooked.spec.2.2.1]
    exact hold k ⟨value, by simpa using hmem⟩
  | refused hclient hactive =>
    have hold := hs _ (List.mem_of_getElem? hclient) hactive
    refine forall_mem_set hs ?_ _
    rintro - k ⟨value, hmem⟩
    exact hold k ⟨value, by simpa using hmem⟩
  | wrote hclient hactive hwrite =>
    have hold := hs _ (List.mem_of_getElem? hclient) hactive
    refine forall_mem_set hs ?_ _
    rintro - k ⟨value, hmem⟩
    apply inserts_write hwrite hcall
    rcases List.mem_append.mp hmem with hmem | hmem
    · exact Or.inl (hold k ⟨value, hmem⟩)
    · right
      simp only [List.mem_singleton, Exchange.mk.injEq, Request.write.injEq] at hmem
      exact ⟨hmem.1.1, value, hmem.1.2.symm⟩
  | aborted hclient hactive =>
    refine forall_mem_set hs (fun hnot => ?_) _
    rw [Transaction.abort, if_pos hactive] at hnot
    cases hnot
  | committed =>
    refine forall_mem_set hs (fun hnot => ?_) _
    rw [isActive_finish] at hnot
    cases hnot

theorem insertsBuffered_run (hdb : db.InMemory) (hq : s.Quiet) (hs : s.InsertsBuffered)
    {calls : List Call} (hcalls : ∀ call ∈ calls, call.keepsKeys) :
    (s.run db calls).InsertsBuffered :=
  run_invariant hdb hq hs fun hmem hstep => hstep.insertsBuffered (hcalls _ hmem)

/-- A client that looks up a key it has inserted does not commit once another commit has written the
key, if its reads are checked at its write time. -/
theorem not_committed_of_overwritten_insert (hdb : db.InMemory) (hq : s.Quiet)
    (hn : s.NoRemovals) (hi : s.InsertsBuffered) {a b : Nat} {client : Client}
    {ys zs : List Call} (hkeep : ∀ call ∈ ys ++ .commit a :: zs, call.keepsKeys)
    (hclient : s.clients[b]? = some client) (hactive : client.txn.isActive = true)
    (hlevel : client.txn.isolation ≠ .snapshot) (hinserted : client.Inserted key)
    (hother : (s.run db (.ask b (.lookup key) :: ys)).CommitsWrite db a key) (hne : a ≠ b)
    {ts : Timestamp} (hfirst : (b, ts) ∉ (s.run db (.ask b (.lookup key) :: ys)).commits) :
    (b, ts) ∉ (s.run db (.ask b (.lookup key) :: (ys ++ .commit a :: zs))).commits := by
  intro hcommit
  have hins := hi client (List.mem_of_getElem? hclient) hactive key hinserted
  obtain ⟨value, hview⟩ := view_of_inserts hins db.merge (s.records.value? key)
  have htold : s.told db b key = some (.ok (some value)) := by
    rw [told_view hdb hq hclient hactive, hview]
  -- the commit of `b` is one of the calls after the commit of `a`
  rw [← List.cons_append, run_append] at hcommit
  obtain ⟨before, later, last, held, decided, hcalls, hat⟩ :=
    commit_in_run hdb (quiet_run hdb hq _) hcommit hfirst
  obtain ⟨rest, rfl, rfl⟩ : ∃ rest, before = .commit a :: rest ∧
      zs = rest ++ .commit b :: later := by
    cases before with
    | nil =>
      rw [List.nil_append, List.cons.injEq] at hcalls
      exact absurd (by simpa using hcalls.1) hne
    | cons call rest =>
      rw [List.cons_append, List.cons.injEq] at hcalls
      exact ⟨rest, by rw [← hcalls.1], hcalls.2⟩
  have hbefore := hat.before
  have hsound := (quiet_run hdb hq (.ask b (.lookup key) :: (ys ++ .commit a :: rest))).sound
  have hrun := hat.run
  rw [← run_append, List.cons_append] at hbefore hrun
  have hpart : ys ++ .commit a :: rest <+: ys ++ .commit a :: (rest ++ .commit b :: later) :=
    ⟨.commit b :: later, by simp⟩
  obtain ⟨seen, hseen, -, hwell, hlt⟩ := overwritten_note hdb hq hn
    (fun call hcall => hkeep call (hpart.subset hcall)) hclient htold
    (Or.inr (hidden_of_inserts hins)) hother hbefore hat.active
  obtain ⟨_, hlast, hlead⟩ := keepsClient_run hdb hq _ hclient
  rw [hbefore] at hlast
  cases hlast
  obtain ⟨reason, hreason⟩ := hrun.refused_of_overwritten hsound (hlead.isolation ▸ hlevel) hseen
    hwell (hlead.writes hat.active key hins.mem_keys) hlt
  cases hreason

end Session

/-! ## Inserting a key that is absent -/

/-- Two clients of any of the levels that check reads at the write time have been told that a key is
absent, each before the other committed, and have inserted it. If one of them looks the key up again
after its insert, and then the other one commits, the one that has looked again does not commit. -/
theorem absent_key_is_inserted_once_if_looked_up_again (hdb : db.InMemory)
    {state : State Records} (hstart : (Session.start state).Quiet) {xs ys zs : List Call}
    {a b : Nat} {key : Key} {first second : Client} {ts : Timestamp}
    (hkeep : ∀ call ∈ xs ++ .ask b (.lookup key) :: (ys ++ .commit a :: zs), call.keepsKeys)
    (hne : a ≠ b)
    -- `b` has inserted the key, and looks it up again
    (hsecond : ((Session.start state).run db xs).clients[b]? = some second)
    (hactive : second.txn.isActive = true) (hlevel : second.txn.isolation ≠ .snapshot)
    (hinserted : second.InsertedAbsent key)
    -- `a` has inserted the key as well, and commits before `b` does
    (hfirst : ((Session.start state).run db (xs ++ .ask b (.lookup key) :: ys)).clients[a]? =
      some first)
    (hinserted' : first.InsertedAbsent key)
    (hcommit : ((Session.start state).run db
      (xs ++ .ask b (.lookup key) :: ys)).commitAnswer db a = some (.ok (.committed ts)))
    (hbefore : ∀ time, (b, time) ∉ ((Session.start state).run db
      (xs ++ .ask b (.lookup key) :: ys)).commits) :
    ∀ time, (b, time) ∉ ((Session.start state).run db
      (xs ++ .ask b (.lookup key) :: (ys ++ .commit a :: zs))).commits := by
  have hleft : ∀ call ∈ xs, call.keepsKeys := fun call hcall =>
    hkeep call (List.mem_append_left _ hcall)
  have hright : ∀ call ∈ .ask b (.lookup key) :: (ys ++ .commit a :: zs), call.keepsKeys :=
    fun call hcall => hkeep call (List.mem_append_right _ hcall)
  have hq := Session.quiet_run hdb hstart xs
  have hn := Session.noRemovals_run hdb hstart (Session.noRemovals_start state) hleft
  have hi := Session.insertsBuffered_run hdb hstart (Session.insertsBuffered_start state) hleft
  simp only [Session.run_append] at hfirst hcommit hbefore ⊢
  generalize (Session.start state).run db xs = s at *
  have hmid : ∀ call ∈ .ask b (.lookup key) :: ys, call.keepsKeys := fun call hcall =>
    hright call (List.mem_append_left (Call.commit a :: zs) hcall)
  unfold Session.commitAnswer at hcommit
  rw [hfirst, Option.map_some, Option.some.injEq] at hcommit
  have hother : (s.run db (.ask b (.lookup key) :: ys)).CommitsWrite db a key := by
    refine ⟨first, hfirst, ?_, by rw [hcommit]; rfl⟩
    exact (Session.insertsBuffered_run hdb hq hi hmid first (List.mem_of_getElem? hfirst)
      (Session.active_of_committed hcommit) key hinserted'.inserted).mem_keys
  intro time
  exact Session.not_committed_of_overwritten_insert hdb hq hn hi
    (fun call hcall => hright call (List.mem_cons_of_mem _ hcall)) hsecond hactive hlevel
    hinserted.inserted hother hne (hbefore time)

/-- Two inserts of one key, with a second look at it by the client that commits last. -/
theorem second_insert_is_refused_after_a_second_look :
    let k : Key := ⟨[107]⟩
    let xs : List Call := [.begin .serializable, .begin .serializable, .ask 0 (.lookup k),
      .ask 1 (.lookup k), .ask 0 (.write k (.insert [49])), .ask 1 (.write k (.insert [50]))]
    let done := (Session.start State.standard).run Database.standard
      (xs ++ .ask 1 (.lookup k) :: ([] ++ .commit 0 :: [.commit 1]))
    (0, 1) ∈ done.commits ∧ ∀ time, (1, time) ∉ done.commits := by
  intro k xs done
  have hkeep : ∀ call ∈ xs ++ .ask 1 (.lookup k) :: ([] ++ .commit 0 :: [.commit 1]),
      call.keepsKeys := by
    simp [xs, Call.keepsKeys]
  obtain ⟨second, hsecond⟩ := Option.isSome_iff_exists.mp
    (show (((Session.start State.standard).run Database.standard xs).clients[1]?).isSome = true by
      decide +kernel)
  obtain ⟨first, hfirst⟩ := Option.isSome_iff_exists.mp
    (show (((Session.start State.standard).run Database.standard
      (xs ++ .ask 1 (.lookup k) :: [])).clients[0]?).isSome = true by decide +kernel)
  have hstate : (((Session.start State.standard).run Database.standard xs).clients[1]?.map
      fun client => (client.txn.isActive, client.txn.isolation)) = some (true, .serializable) := by
    decide +kernel
  have hlog : ((Session.start State.standard).run Database.standard xs).clients[1]?.map (·.log) =
      some [⟨.lookup k, .found (.ok none)⟩, ⟨.write k (.insert [50]), .done (.ok ())⟩] := rfl
  have hlog' : ((Session.start State.standard).run Database.standard
      (xs ++ .ask 1 (.lookup k) :: [])).clients[0]?.map (·.log) =
      some [⟨.lookup k, .found (.ok none)⟩, ⟨.write k (.insert [49]), .done (.ok ())⟩] := rfl
  rw [hsecond, Option.map_some, Option.some.injEq] at hstate hlog
  rw [hfirst, Option.map_some, Option.some.injEq] at hlog'
  rw [Prod.mk.injEq] at hstate
  have hnone : ((Session.start State.standard).run Database.standard
      (xs ++ .ask 1 (.lookup k) :: [])).commits = [] := by decide +kernel
  refine ⟨by decide +kernel, ?_⟩
  exact @absent_key_is_inserted_once_if_looked_up_again Database.standard rfl State.standard
    (Session.quiet_start rfl) xs [] [.commit 1] 0 1 k first second 1 hkeep (by decide) hsecond
    hstate.1 (by simp [hstate.2]) ⟨[50], hlog ▸ List.Sublist.refl _⟩ hfirst
    ⟨[49], hlog' ▸ List.Sublist.refl _⟩ (by decide +kernel) (by simp [hnone])

/-- Without a second look both commit, and the second insert replaces the first. -/
theorem absent_key_may_be_inserted_twice :
    let k : Key := ⟨[107]⟩
    let run := (Session.start State.standard).run Database.standard
    let xs : List Call := [.begin .serializable, .begin .serializable, .ask 0 (.lookup k),
      .ask 1 (.lookup k), .ask 0 (.write k (.insert [49])), .ask 1 (.write k (.insert [50]))]
    (∀ n ∈ [0, 1], ∃ client, (run xs).clients[n]? = some client ∧ client.InsertedAbsent k) ∧
      (run xs).commits = [] ∧
      (run (xs ++ [.commit 0, .commit 1])).commits = [(0, 1), (1, 2)] := by
  intro k run xs
  refine ⟨?_, by decide +kernel, by decide +kernel⟩
  intro n hn
  simp only [List.mem_cons, List.not_mem_nil, or_false] at hn
  rcases hn with rfl | rfl
  · exact ⟨_, rfl, [49], List.Sublist.refl _⟩
  · exact ⟨_, rfl, [50], List.Sublist.refl _⟩

end StampStore
