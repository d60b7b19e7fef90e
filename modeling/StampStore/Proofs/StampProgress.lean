-- The stamps of a store over time. Every stored version was written past time zero
-- and is readable at the time it was written. Across a call neither time of a key
-- decreases while the key stays, and only a commit that writes the key changes its
-- write time, to a time after every time the old version was readable at.
import StampStore.Proofs.Overwrites
import StampStore.Proofs.Serializability

namespace StampStore

/-! ## Where a version comes from -/

/-- The version was there before, and no more than its read time has been raised. -/
def Records.Keeps (key : Key) (before : Records) (new : Tuple) : Prop :=
  ∃ old, before.tuple? key = some old ∧ new.stamp.wts = old.stamp.wts ∧
    old.stamp.rts ≤ new.stamp.rts

section OneCommit

variable {app : MergeOperator} {good : Bytes → Prop} {txn decided : Transaction}
  {records after : Records} {held : LockTable} {key : Key} {new : Tuple}

theorem keeps_of_same (h : records.tuple? key = some new) : Records.Keeps key records new :=
  ⟨new, h, rfl, le_refl _⟩

theorem keeps_of_checked (h : (txn.checked records held).tuple? key = some new) :
    Records.Keeps key records new := by
  rcases tuple?_checked_or txn records held key with hsame | ⟨-, hraised⟩
  · exact keeps_of_same (hsame.symm.trans h)
  · rw [hraised] at h
    obtain ⟨old, hold, rfl⟩ := Option.map_eq_some_iff.mp h
    exact ⟨old, hold, old.wts_raise _, by simp⟩

/-- A version that is there after a commit was there before, or is one of its writes. -/
theorem CommitRun.keeps_or_writes {outcome : Outcome}
    (h : CommitRun app txn records held (.ok outcome) decided after)
    (hnew : after.tuple? key = some new) :
    Records.Keeps key records new ∨
      ∃ c, outcome = .committed c ∧ key ∈ txn.writes.keys ∧
        (records.stampAt key).rts < c ∧ new.stamp = Stamp.committedAt c := by
  cases outcome with
  | aborted reason =>
    left
    cases h with
    | exhausted => exact keeps_of_same hnew
    | refused => exact keeps_of_checked hnew
  | committed c =>
    by_cases hkey : key ∈ txn.writes.keys
    · right
      obtain ⟨-, rfl, hinst⟩ := h.committed_writer hkey
      refine ⟨c, rfl, hkey, h.rts_lt hkey, ?_⟩
      rw [Transaction.readyAt_writes] at hinst
      obtain ⟨entry, hentry, rfl⟩ := List.mem_map.mp hkey
      obtain ⟨value, -, htuple⟩ := hinst.written entry (WriteBuffer.mem_sorted.mpr hentry)
      rw [htuple] at hnew
      obtain ⟨v, -, rfl⟩ := Option.map_eq_some_iff.mp hnew
      exact Tuple.stamp_make _ _
    · left
      rw [h.kept hkey] at hnew
      exact keeps_of_checked hnew

/-- Every version was written past time zero. -/
def Records.Dated (records : Records) : Prop :=
  ∀ key t, records.tuple? key = some t → 1 ≤ t.stamp.wts

theorem CommitRun.dated {outcome : Outcome}
    (h : CommitRun app txn records held (.ok outcome) decided after) (hdated : records.Dated) :
    after.Dated := by
  intro key new hnew
  rcases h.keeps_or_writes hnew with ⟨old, hold, hwts, -⟩ | ⟨c, -, -, hlt, hstamp⟩
  · rw [hwts]
    exact hdated key old hold
  · rw [hstamp]
    exact Timestamp.one_le_of_lt hlt

/-- Good values stay good, whatever a commit with a mergeable buffer answers. -/
theorem CommitRun.good_values {outcome : Outcome} (hclosed : app.Closed good)
    (hwrites : txn.writes.Mergeable good) (hrecords : records.Good good)
    (h : CommitRun app txn records held (.ok outcome) decided after) : after.Good good := by
  cases outcome with
  | committed c => exact good_committed hclosed hwrites hrecords h
  | aborted reason =>
    intro key value hvalue
    rw [(aborted_frame h key).1] at hvalue
    exact hrecords key value hvalue

end OneCommit

/-! ## The invariant of a run -/

variable {db : Database Records} {s s' : Session} {call : Call} {good : Bytes → Prop}

/-- What holds between the calls of any transactions. -/
structure Session.Stamped (good : Bytes → Prop) (s : Session) : Prop where
  quiet : s.Quiet
  dated : s.records.Dated
  values : s.records.Good good
  mergeable : ∀ client ∈ s.clients, client.txn.writes.Mergeable good

namespace Session

theorem stamped_start (good : Bytes → Prop) {state : State Records}
    (h : state.shared = ⟨KeyMap.empty, LockTable.empty⟩) : (start state).Stamped good := by
  have hrecords : (start state).records = KeyMap.empty := congrArg Shared.stored h
  refine ⟨quiet_start h, ?_, ?_, fun _ hclient => absurd hclient List.not_mem_nil⟩
  · intro key t ht
    rw [hrecords] at ht
    cases ht
  · intro key value hvalue
    rw [hrecords] at hvalue
    cases hvalue

theorem Step.mergeable (h : Step db s call s') (hclosed : db.merge.Closed good)
    (hs : ∀ client ∈ s.clients, client.txn.writes.Mergeable good) :
    ∀ client ∈ s'.clients, client.txn.writes.Mergeable good :=
  h.forall_buffers hs (WriteBuffer.mergeable_empty good) fun _ hold hwrite =>
    mergeable_write hclosed hwrite hold

/-- A call leaves the records alone, or it is a commit that answers. -/
theorem Step.records_cases (h : Step db s call s') (hclosed : db.merge.Closed good)
    (hs : s.Stamped good) :
    s'.records = s.records ∨
      ∃ n client held outcome decided, call = .commit n ∧ s.clients[n]? = some client ∧
        client.txn.isActive = true ∧
        CommitRun db.merge client.txn s.records held (.ok outcome) decided s'.records := by
  cases h with
  | begun hshared => exact Or.inl (congrArg Shared.stored hshared)
  | idle => exact Or.inl rfl
  | looked => exact Or.inl rfl
  | refused => exact Or.inl rfl
  | wrote => exact Or.inl rfl
  | aborted _ _ hshared => exact Or.inl (congrArg Shared.stored hshared)
  | @committed n client state held answer decided after hclient hactive _ hrun hshared =>
    have hmergeable := hs.mergeable client (List.mem_of_getElem? hclient)
    obtain ⟨outcome, rfl⟩ := outcome_of_mergeable hclosed hmergeable hs.values hrun
    refine Or.inr ⟨n, client, held, outcome, decided, rfl, hclient, hactive, ?_⟩
    rwa [show records ⟨state, _, _⟩ = after from congrArg Shared.stored hshared]

theorem Step.stamped (h : Step db s call s') (hclosed : db.merge.Closed good)
    (hs : s.Stamped good) : s'.Stamped good := by
  have hmergeable := h.mergeable hclosed hs.mergeable
  rcases h.records_cases hclosed hs with
    hsame | ⟨n, client, held, outcome, decided, -, hclient, -, hrun⟩
  · exact ⟨h.quiet hs.quiet, hsame ▸ hs.dated, hsame ▸ hs.values, hmergeable⟩
  · have hbuffer := hs.mergeable client (List.mem_of_getElem? hclient)
    exact ⟨h.quiet hs.quiet, hrun.dated hs.dated, hrun.good_values hclosed hbuffer hs.values,
      hmergeable⟩

theorem stamped_run (hdb : db.InMemory) (hclosed : db.merge.Closed good) (hs : s.Stamped good)
    (calls : List Call) : (s.run db calls).Stamped good :=
  run_invariant hdb hs.quiet hs fun _ hstep => hstep.stamped hclosed

/-! ## One call more -/

/-- A version that is there after a call was there before, or is a write of the commit that the
call has made. -/
theorem Stamped.keeps_or_writes (hs : s.Stamped good) (hdb : db.InMemory)
    (hclosed : db.merge.Closed good) (call : Call) {key : Key} {new : Tuple}
    (hnew : (s.step db call).records.tuple? key = some new) :
    Records.Keeps key s.records new ∨
      ∃ n c, call = .commit n ∧ s.CommitsWrite db n key ∧
        (s.records.stampAt key).rts < c ∧ new.stamp = Stamp.committedAt c := by
  rcases (step_cases hdb hs.quiet call).records_cases hclosed hs with
    hsame | ⟨n, client, -, -, -, rfl, hclient, hactive, -⟩
  · rw [hsame] at hnew
    exact Or.inl (keeps_of_same hnew)
  · obtain ⟨answer, decided, held, hrun, -, htime⟩ := step_commit hdb hs.quiet hclient hactive
    have hbuffer := hs.mergeable client (List.mem_of_getElem? hclient)
    obtain ⟨outcome, rfl⟩ := outcome_of_mergeable hclosed hbuffer hs.values hrun
    rcases hrun.keeps_or_writes hnew with hkeeps | ⟨c, rfl, hkey, hlt, hstamp⟩
    · exact Or.inl hkeeps
    · refine Or.inr ⟨n, c, rfl, ⟨client, hclient, hkey, ?_⟩, hlt, hstamp⟩
      rw [htime]
      rfl

end Session

/-- Any transactions at any levels on a store opened in memory, in any order of their calls. After
every call each stored record holds a stamp, and was written past time zero and is readable then.
Across one call more, the times of a key that stays do not decrease; and if its write time changes,
the call has committed a transaction that wrote the key, and the new version starts after every time
the old one was readable at. -/
theorem stored_stamps_only_advance {config : Config} {db : Database Records}
    {state : State Records} (hopen : Database.openMemory config = .ok (db, state))
    (calls : List Call) :
    let s := (Session.start state).run db calls
    (∀ key record, s.records.get? key = some record → Stamp.size ≤ record.length ∧
      ∃ t : Tuple, t.bytes = record ∧ 1 ≤ t.stamp.wts ∧ t.stamp.wts ≤ t.stamp.rts) ∧
    ∀ call key old new, s.records.tuple? key = some old →
      (s.step db call).records.tuple? key = some new →
      old.stamp.wts ≤ new.stamp.wts ∧ old.stamp.rts ≤ new.stamp.rts ∧
        (new.stamp.wts ≠ old.stamp.wts →
          (∃ n, call = .commit n ∧ s.CommitsWrite db n key) ∧
            new.stamp.wts = new.stamp.rts ∧ old.stamp.rts < new.stamp.wts) := by
  intro s
  obtain ⟨good, hclosed, hdb, hshared⟩ := Session.openMemory_closed hopen
  have hs : s.Stamped good :=
    Session.stamped_run hdb hclosed (Session.stamped_start good hshared) calls
  refine ⟨fun key record hget => ?_, fun call key old new hold hnew => ?_⟩
  · obtain ⟨t, rfl, hwell⟩ := hs.quiet.sound key record hget
    have htuple : s.records.tuple? key = some t := by
      rw [Records.tuple?, hget]
      exact Tuple.ofBytes?_bytes t
    exact ⟨t.size_le, t, rfl, hs.dated key t htuple, hwell⟩
  · have hwell : old.stamp.wts ≤ old.stamp.rts := hs.quiet.sound.wellFormed hold
    rcases hs.keeps_or_writes hdb hclosed call hnew with
      ⟨old', hold', hwts, hrts⟩ | ⟨n, c, hcall, hwrites, hlt, hstamp⟩
    · rw [hold] at hold'
      cases hold'
      exact ⟨le_of_eq hwts.symm, hrts, fun hne => absurd hwts hne⟩
    · rw [Records.stampAt_of_tuple? hold] at hlt
      rw [hstamp]
      exact ⟨le_trans hwell (le_of_lt hlt), le_of_lt hlt, fun _ => ⟨⟨n, hcall, hwrites⟩, rfl, hlt⟩⟩

/-- A key is removed, written again, read by a snapshot that has seen a later key, and overwritten
by it: the old version is readable at 1, and the new one starts at 2. -/
theorem overwritten_key_starts_after_its_read_time :
    let k : Key := ⟨[107]⟩
    let l : Key := ⟨[108]⟩
    let calls : List Call := [.begin .serializable, .ask 0 (.write k (.insert [49])),
      .ask 0 (.write l (.insert [49])), .commit 0, .begin .repeatableRead,
      .ask 1 (.write k .delete), .ask 1 (.write l (.insert [50])), .commit 1,
      .begin .serializable, .ask 2 (.write k (.insert [51])), .commit 2,
      .begin .snapshot, .ask 3 (.lookup k), .ask 3 (.lookup l), .ask 3 (.write k (.insert [52]))]
    let s := (Session.start State.standard).run Database.standard calls
    s.records.stamp? k = some ⟨1, 1⟩ ∧ s.records.stamp? l = some ⟨2, 2⟩ ∧
      ∃ old new, s.records.tuple? k = some old ∧
        (s.step Database.standard (.commit 3)).records.tuple? k = some new ∧
        new.stamp.wts ≠ old.stamp.wts ∧ new.stamp.wts = new.stamp.rts ∧
        old.stamp.rts < new.stamp.wts := by
  intro k l calls s
  have hold : s.records.tuple? k = some (Tuple.make ⟨1, 1⟩ [51]) := by decide +kernel
  have hnew : (s.step Database.standard (.commit 3)).records.tuple? k =
      some (Tuple.make ⟨2, 2⟩ [52]) := by decide +kernel
  have hne : (Tuple.make ⟨2, 2⟩ [52]).stamp.wts ≠ (Tuple.make ⟨1, 1⟩ [51]).stamp.wts := by decide
  obtain ⟨-, hsteps⟩ := stored_stamps_only_advance openMemory_standard calls
  obtain ⟨-, -, hchange⟩ := hsteps (.commit 3) k _ _ hold hnew
  exact ⟨by decide +kernel, by decide +kernel, _, _, hold, hnew, hne, (hchange hne).2⟩

end StampStore
