-- Reads that have been overwritten by the time their transaction commits. Once a
-- commit has written a key that was looked up, the key has a write time past every
-- time that the old version was known to be readable at, and keeps one. A
-- transaction that writes the key as well is refused, if its reads are checked at
-- its write time; where they are checked at its read time, the old version may
-- still be readable then.
import StampStore.Proofs.Snapshots

namespace StampStore

variable {db : Database Records} {s : Session} {t n : Nat} {key : Key}

namespace Session

/-! ## Lookups and commits of a session -/

/-- What client `n` is told when it commits now. -/
def commitAnswer (db : Database Records) (s : Session) (n : Nat) :
    Option (Except Failure Outcome) :=
  s.clients[n]?.map fun client => (db.commit [] client.txn s.state).answer

/-- Client `n` has written `key`, and its commit would go through now. -/
def CommitsWrite (db : Database Records) (s : Session) (n : Nat) (key : Key) : Prop :=
  ∃ client ∈ s.clients[n]?, key ∈ client.txn.writes.keys ∧
    (commitTime? (db.commit [] client.txn s.state).answer).isSome = true

instance (db : Database Records) (s : Session) (n : Nat) (key : Key) :
    Decidable (s.CommitsWrite db n key) :=
  inferInstanceAs (Decidable (∃ client ∈ s.clients[n]?, key ∈ client.txn.writes.keys ∧
    (commitTime? (db.commit [] client.txn s.state).answer).isSome = true))

theorem client_of_told {answer : Except Error (Option Bytes)}
    (htold : s.told db t key = some answer) : ∃ client, s.clients[t]? = some client := by
  obtain ⟨client, hclient, -⟩ := Option.map_eq_some_iff.mp htold
  exact ⟨client, hclient⟩

theorem active_of_told {value : Option Bytes} {client : Client}
    (hclient : s.clients[t]? = some client) (htold : s.told db t key = some (.ok value)) :
    client.txn.isActive = true := by
  by_contra hnot
  simp [told, hclient, Database.lookup, Transaction.read, hnot] at htold

theorem active_of_committed {client : Client} {ts : Timestamp}
    (h : (db.commit [] client.txn s.state).answer = .ok (.committed ts)) :
    client.txn.isActive = true := by
  by_contra hnot
  simp [Database.commit, hnot] at h

/-- A lookup that tells a value notes the stored stamp, unless it only tells what a delta makes of
an absent key. -/
theorem step_notes (hdb : db.InMemory) (hq : s.Quiet) {client : Client} {value : Bytes}
    (hclient : s.clients[t]? = some client)
    (htold : s.told db t key = some (.ok (some value)))
    (hnoted : s.records.tuple? key ≠ none ∨ client.txn.asksStorage key = false) :
    ∃ next seen, (s.step db (.ask t (.lookup key))).clients[t]? = some next ∧
      ⟨key, seen⟩ ∈ next.txn.reads.entries ∧ seen.stamp = s.records.stampAt key := by
  have hactive := active_of_told hclient htold
  obtain ⟨after, hlookup, -⟩ := Database.lookup_memory hdb hq hactive key
  have hshown : client.txn.writes.view db.merge key (s.records.value? key) =
      .ok (some value) := by
    rwa [told_view hdb hq hclient hactive, Option.some.injEq] at htold
  obtain ⟨seen, hnote, hstamp⟩ := read_notes hq.sound db.merge db.merge.tuple LockTable.empty
    hactive hshown hnoted
  have hafter : after = client.txn.noteRead key seen := by
    rw [← hnote, ← hq.shared, ← hdb]
    exact (congrArg Turn.txn hlookup).symm
  simp only [step, hclient, Client.ask, hlookup, Client.hear, hactive, if_true]
  rw [getElem?_set_some hclient, if_pos rfl]
  refine ⟨_, seen, rfl, ?_, hstamp⟩
  rw [hafter]
  exact List.mem_append_right _ (List.mem_singleton.mpr rfl)

/-- The commit of an active client, with its answer. -/
theorem step_commit_answer (hdb : db.InMemory) (hq : s.Quiet) {client : Client}
    (hclient : s.clients[n]? = some client) (hactive : client.txn.isActive = true) :
    ∃ answer decided held,
      CommitRun db.merge client.txn s.records held answer decided
        (s.step db (.commit n)).records ∧
      (∀ key, held.holder? key =
        if key ∈ client.txn.writes.keys then some client.txn.id else none) ∧
      s.commitAnswer db n = some (answer.mapError .error) := by
  obtain ⟨answer, decided, after, held, hrun, hholder, hcommit⟩ :=
    Database.commit_eq hdb hq.shared hq.sound hactive
  have hafter : (s.step db (.commit n)).records = after := by
    simp only [step, hclient, records, hcommit]
  refine ⟨answer, decided, held, hafter ▸ hrun, hholder, ?_⟩
  unfold commitAnswer
  rw [hclient, Option.map_some, hcommit]

/-- The commit of an active client. -/
theorem step_commit (hdb : db.InMemory) (hq : s.Quiet) {client : Client}
    (hclient : s.clients[n]? = some client) (hactive : client.txn.isActive = true) :
    ∃ answer decided held,
      CommitRun db.merge client.txn s.records held answer decided
        (s.step db (.commit n)).records ∧
      (∀ key, held.holder? key =
        if key ∈ client.txn.writes.keys then some client.txn.id else none) ∧
      commitTime? (db.commit [] client.txn s.state).answer = commitTime? answer := by
  obtain ⟨answer, decided, held, hrun, hholder, hanswer⟩ :=
    step_commit_answer hdb hq hclient hactive
  unfold commitAnswer at hanswer
  rw [hclient, Option.map_some, Option.some.injEq] at hanswer
  exact ⟨answer, decided, held, hrun, hholder, hanswer ▸ commitTime?_mapError answer⟩

/-- A commit that can only end with an abort does not go through, and leaves every version as it
is. -/
theorem commit_refused (hdb : db.InMemory) (hq : s.Quiet) {client : Client}
    (hclient : s.clients[n]? = some client)
    (hrefused : client.txn.isActive = true → ∀ {held answer decided after},
      CommitRun db.merge client.txn s.records held answer decided after →
      ∃ reason, answer = .ok (.aborted reason)) :
    (∀ ts, s.commitAnswer db n ≠ some (.ok (.committed ts))) ∧
      s.records.SameVersions (s.step db (.commit n)).records := by
  unfold commitAnswer
  rw [hclient, Option.map_some]
  cases hactive : client.txn.isActive with
  | false =>
    refine ⟨fun ts h => ?_, ?_⟩
    · rw [active_of_committed (Option.some.inj h)] at hactive
      cases hactive
    · have hstays : (s.step db (.commit n)).records = s.records := by
        simp [step, hclient, Database.commit, hactive, records]
      rw [hstays]
      exact s.records.sameVersions_refl
  | true =>
    obtain ⟨answer, decided, held, hrun, -, htime⟩ := step_commit hdb hq hclient hactive
    obtain ⟨reason, rfl⟩ := hrefused hactive hrun
    refine ⟨fun ts h => ?_, hrun.sameVersions hq.sound⟩
    rw [Option.some.inj h] at htime
    cases htime

/-- A commit goes through if its keys have room for a new write time, its writes can be merged, and
its reads are good at the time they are checked at. -/
theorem commit_goes_through (hdb : db.InMemory) (hq : s.Quiet) {client : Client}
    (hclient : s.clients[n]? = some client) (hactive : client.txn.isActive = true)
    (hroom : ∀ key ∈ client.txn.writes.keys, (s.records.stampAt key).rts < Timestamp.last)
    (hmerge : ∀ entry ∈ client.txn.writes.entries,
      ∃ value, entry.effect db.merge (s.records.value? entry.key) = .ok value)
    (hgood : ∀ ts, ∀ entry ∈ client.txn.reads.entries,
      (client.txn.readyAt ts).validationTime ≤ entry.tuple.stamp.rts ∨
        entry.tuple.stamp.wts = (s.records.stampAt entry.key).wts) :
    ∃ ts, s.commitAnswer db n = some (.ok (.committed ts)) := by
  obtain ⟨answer, decided, held, hrun, hholder, hanswer⟩ := step_commit hdb hq hclient hactive
  obtain ⟨time, htime, -⟩ : ∃ time, s.records.timeAfter client.txn.ready.writes.keys
      client.txn.ready.commitWts = .ok time ∧ time ≤ Timestamp.last := by
    apply Records.timeAfter_bounded (Timestamp.le_last _)
    intro key hkey
    rw [Transaction.ready_writes] at hkey
    exact hroom key (WriteBuffer.mem_keys_sorted.mp hkey)
  have hfault : (client.txn.readyAt time).firstFault s.records held = none := by
    apply firstFault_eq_none_of_good
    · rw [Transaction.readyAt_reads]
      exact hgood time
    · rw [Transaction.readyAt_id]
      exact hholder
  obtain ⟨c, rfl⟩ := hrun.committed_of_good htime hfault hmerge
  refine ⟨c, ?_⟩
  unfold commitAnswer
  rw [hclient, Option.map_some, answer_of_commitTime? hanswer]

/-! ## Overwritten reads -/

/-- After a commit has written a key, its write time is past every time that the versions before
were readable at, and it stays so. -/
theorem rts_lt_of_overwritten (hdb : db.InMemory) (hq : s.Quiet) (hn : s.NoRemovals)
    {ys zs : List Call} (hkeep : ∀ call ∈ ys ++ .commit n :: zs, call.keepsKeys)
    (hover : (s.run db ys).CommitsWrite db n key) :
    (s.records.stampAt key).rts <
      ((s.run db (ys ++ .commit n :: zs)).records.stampAt key).wts := by
  obtain ⟨writer, hwriter, hkey, hcommit⟩ := hover
  obtain ⟨ts, hts⟩ := Option.isSome_iff_exists.mp hcommit
  have hleft : ∀ call ∈ ys, call.keepsKeys := fun c hc => hkeep c (List.mem_append_left _ hc)
  have hright : ∀ call ∈ zs, call.keepsKeys := fun c hc =>
    hkeep c (List.mem_append_right _ (List.mem_cons_of_mem _ hc))
  have hq₁ := quiet_run hdb hq ys
  have hn₁ := noRemovals_run hdb hq hn hleft
  have hstep := step_cases hdb hq₁ (.commit n)
  have hq₂ := hstep.quiet hq₁
  have hn₂ := hstep.noRemovals trivial hn₁
  obtain ⟨answer, decided, held, hrun, -, htime⟩ :=
    step_commit hdb hq₁ hwriter (active_of_committed (answer_of_commitTime? hts))
  rw [hts] at htime
  obtain rfl := answer_of_commitTime? htime.symm
  obtain ⟨entry, hentry, rfl⟩ := List.mem_map.mp hkey
  obtain ⟨v, hv⟩ := hrun.written hentry (hn₁ writer (List.mem_of_getElem? hwriter) entry hentry)
  have hnew : (((s.run db ys).step db (.commit n)).records.stampAt entry.key).wts = ts := by
    rw [Records.stampAt_of_tuple? hv, Tuple.stamp_make]
    rfl
  rw [run_append, run_cons]
  calc (s.records.stampAt entry.key).rts
      ≤ ((s.run db ys).records.stampAt entry.key).rts :=
        rts_stampAt_le hq₁.sound (leadsTo_run hdb hq hn hleft entry.key)
    _ < ts := hrun.rts_lt hkey
    _ = (((s.run db ys).step db (.commit n)).records.stampAt entry.key).wts := hnew.symm
    _ ≤ _ := wts_stampAt_le hq₂.sound (leadsTo_run hdb hq₂ hn₂ hright entry.key)

/-- A lookup whose key another commit then writes is still noted at the end, and by then the key has
been written after every time that the noted version was readable at. -/
theorem overwritten_note (hdb : db.InMemory) (hq : s.Quiet) (hn : s.NoRemovals)
    {looker client : Client} {value : Bytes} {ys zs : List Call}
    (hkeep : ∀ call ∈ ys ++ .commit n :: zs, call.keepsKeys)
    (hlooker : s.clients[t]? = some looker)
    (htold : s.told db t key = some (.ok (some value)))
    (hnoted : s.records.tuple? key ≠ none ∨ looker.txn.asksStorage key = false)
    (hover : (s.run db (.ask t (.lookup key) :: ys)).CommitsWrite db n key)
    (hclient : (s.run db (.ask t (.lookup key) :: (ys ++ .commit n :: zs))).clients[t]? =
      some client)
    (hactive : client.txn.isActive = true) :
    ∃ seen, ⟨key, seen⟩ ∈ client.txn.reads.entries ∧ seen.stamp = s.records.stampAt key ∧
      seen.WellFormed ∧ seen.stamp.rts < ((s.run db (.ask t (.lookup key) ::
        (ys ++ .commit n :: zs))).records.stampAt key).wts := by
  obtain ⟨next, seen, hnext, hnote, hstamp⟩ := step_notes hdb hq hlooker htold hnoted
  have hstep := step_cases hdb hq (.ask t (.lookup key))
  obtain ⟨last, hlast, hlead⟩ := keepsClient_run hdb (hstep.quiet hq) (ys ++ .commit n :: zs) hnext
  rw [← run_cons, hclient] at hlast
  cases hlast
  have hlookup : (s.step db (.ask t (.lookup key))).records = s.records := by
    generalize s.step db (.ask t (.lookup key)) = after at hstep
    cases hstep with
    | idle => rfl
    | looked => rfl
  refine ⟨seen, hlead.reads hactive _ hnote, hstamp, ?_, ?_⟩
  · unfold Tuple.WellFormed
    rw [hstamp]
    exact wts_stampAt_le_rts hq.sound key
  · rw [hstamp, ← hlookup]
    exact rts_lt_of_overwritten hdb (hstep.quiet hq) (hstep.noRemovals trivial hn) hkeep hover

end Session

/-! ## No lost update -/

/-- At the two levels that check reads at the write time, a transaction that has looked up a stored
version and writes its key is refused, if another commit has written the key in between. The
refused commit leaves every version as it is. -/
theorem writer_of_an_overwritten_read_is_refused (hdb : db.InMemory) {state : State Records}
    (hstart : (Session.start state).Quiet) {xs ys zs : List Call} {t n : Nat} {key : Key}
    {value : Bytes} {client : Client}
    (hkeep : ∀ call ∈ xs ++ .ask t (.lookup key) :: (ys ++ .commit n :: zs), call.keepsKeys)
    (htold : ((Session.start state).run db xs).told db t key = some (.ok (some value)))
    (hstored : KeyMap.contains ((Session.start state).run db xs).records key = true)
    (hover : ((Session.start state).run db (xs ++ .ask t (.lookup key) :: ys)).CommitsWrite db n
      key)
    (hclient : ((Session.start state).run db
      (xs ++ .ask t (.lookup key) :: (ys ++ .commit n :: zs))).clients[t]? = some client)
    (hlevel : client.txn.isolation ≠ .snapshot) (hkey : key ∈ client.txn.writes.keys) :
    let last := (Session.start state).run db
      (xs ++ .ask t (.lookup key) :: (ys ++ .commit n :: zs))
    (∀ ts, last.commitAnswer db t ≠ some (.ok (.committed ts))) ∧
      last.records.SameVersions (last.step db (.commit t)).records := by
  intro last
  have hlast : last.Quiet := Session.quiet_run hdb hstart _
  apply Session.commit_refused hdb hlast hclient
  intro hactive _ _ _ _ hrun
  have hq := Session.quiet_run hdb hstart xs
  have hn := Session.noRemovals_run hdb hstart (Session.noRemovals_start state)
    fun call hcall => hkeep call (List.mem_append_left _ hcall)
  simp only [Session.run_append] at hover hclient
  obtain ⟨looker, hlooker⟩ := Session.client_of_told htold
  rw [hq.sound.contains_eq, Option.isSome_iff_ne_none] at hstored
  obtain ⟨seen, hseen, -, hwell, hlt⟩ := Session.overwritten_note hdb hq hn
    (fun call hcall => hkeep call (List.mem_append_right _ (List.mem_cons_of_mem _ hcall)))
    hlooker htold (Or.inl hstored) hover hclient hactive
  rw [← Session.run_append] at hlt
  exact hrun.refused_of_overwritten hlast.sound hlevel hseen hwell hkey hlt

/-- A read-modify-write at the weakest level, overwritten by a blind write at another level. -/
theorem overwritten_increment_is_refused :
    let k : Key := ⟨[107]⟩
    let xs : List Call := [.begin .serializable, .ask 0 (.write k (.insert [49])), .commit 0,
      .begin .repeatableRead]
    let ys : List Call := [.begin .snapshot, .ask 2 (.write k (.insert [50]))]
    let zs : List Call := [.ask 1 (.write k (.insert [51]))]
    let last := (Session.start State.standard).run Database.standard
      (xs ++ .ask 1 (.lookup k) :: (ys ++ .commit 2 :: zs))
    last.records.stamp? k = some ⟨2, 2⟩ ∧ last.active 1 = true ∧
      (∀ ts, last.commitAnswer Database.standard 1 ≠ some (.ok (.committed ts))) ∧
      last.records.SameVersions (last.step Database.standard (.commit 1)).records := by
  intro k xs ys zs last
  have hkeep : ∀ call ∈ xs ++ .ask 1 (.lookup k) :: (ys ++ .commit 2 :: zs),
      call.keepsKeys := by
    simp [xs, ys, zs, Call.keepsKeys]
  obtain ⟨client, hclient⟩ := Option.isSome_iff_exists.mp
    (show (last.clients[1]?).isSome = true by decide +kernel)
  have hfacts : (last.clients[1]?.map fun client =>
      (client.txn.isolation, client.txn.writes.keys)) = some (.repeatableRead, [k]) := by
    decide +kernel
  rw [hclient, Option.map_some, Option.some.injEq, Prod.mk.injEq] at hfacts
  obtain ⟨hlevel, hkeys⟩ := hfacts
  have hrefused := @writer_of_an_overwritten_read_is_refused Database.standard rfl State.standard
    (Session.quiet_start rfl) xs ys zs 1 2 k [49] client hkeep (by decide +kernel)
    (by decide +kernel) (by decide +kernel) hclient (by simp [hlevel]) (by simp [hkeys])
  exact ⟨by decide +kernel, by decide +kernel, hrefused⟩

/-! ## Overwritten reads of a snapshot -/

/-- Nothing can stop the commit of the client but its read of `key` under `stamp`: the keys it has
written have room for a new write time, its writes can be merged, and its other reads are good at the
latest write time that it has read. -/
structure Client.StoppedAtMostBy (merge : MergeOperator) (client : Client) (records : Records)
    (key : Key) (stamp : Stamp) : Prop where
  active : client.txn.isActive = true
  room : ∀ k ∈ client.txn.writes.keys, (records.stampAt k).rts < Timestamp.last
  merged : ∀ entry ∈ client.txn.writes.entries,
    ∃ value, entry.effect merge (records.value? entry.key) = .ok value
  others : ∀ entry ∈ client.txn.reads.entries,
    (entry.key = key ∧ entry.tuple.stamp = stamp) ∨
      client.txn.reads.maxWts ≤ entry.tuple.stamp.rts ∨
      entry.tuple.stamp.wts = (records.stampAt entry.key).wts

/-- A snapshot transaction that has looked up a stored version, whose key another commit has written
since, is refused if it has also read a version written after every time that the overwritten one
was known to be readable at. If it has not, the overwritten read does not stop its commit, even if it
writes the key itself. -/
theorem snapshot_is_refused_if_it_has_read_past_an_overwritten_version
    (hdb : db.InMemory) {state : State Records} (hstart : (Session.start state).Quiet)
    {xs ys zs : List Call} {t n : Nat} {key : Key} {value : Bytes} {stamp : Stamp}
    {client : Client}
    (hkeep : ∀ call ∈ xs ++ .ask t (.lookup key) :: (ys ++ .commit n :: zs), call.keepsKeys)
    (htold : ((Session.start state).run db xs).told db t key = some (.ok (some value)))
    (hstored : ((Session.start state).run db xs).records.stamp? key = some stamp)
    (hover : ((Session.start state).run db (xs ++ .ask t (.lookup key) :: ys)).CommitsWrite db n
      key)
    (hclient : ((Session.start state).run db
      (xs ++ .ask t (.lookup key) :: (ys ++ .commit n :: zs))).clients[t]? = some client)
    (hlevel : client.txn.isolation = .snapshot) :
    let last := (Session.start state).run db
      (xs ++ .ask t (.lookup key) :: (ys ++ .commit n :: zs))
    (stamp.rts < client.txn.reads.maxWts →
      (∀ ts, last.commitAnswer db t ≠ some (.ok (.committed ts))) ∧
        last.records.SameVersions (last.step db (.commit t)).records) ∧
      (client.txn.reads.maxWts ≤ stamp.rts →
        client.StoppedAtMostBy db.merge last.records key stamp →
        ∃ ts, last.commitAnswer db t = some (.ok (.committed ts))) := by
  intro last
  have hlast : last.Quiet := Session.quiet_run hdb hstart _
  have htime := Transaction.validationTime_of_snapshot hlevel
  constructor
  · intro hpast
    apply Session.commit_refused hdb hlast hclient
    intro hactive _ _ _ _ hrun
    have hq := Session.quiet_run hdb hstart xs
    have hn := Session.noRemovals_run hdb hstart (Session.noRemovals_start state)
      fun call hcall => hkeep call (List.mem_append_left _ hcall)
    obtain ⟨looker, hlooker⟩ := Session.client_of_told htold
    obtain ⟨old, hold, rfl⟩ := Option.map_eq_some_iff.mp hstored
    simp only [Session.run_append] at hover hclient
    obtain ⟨seen, hseen, hstamp, hwell, hlt⟩ := Session.overwritten_note hdb hq hn
      (fun call hcall => hkeep call (List.mem_append_right _ (List.mem_cons_of_mem _ hcall)))
      hlooker htold (Or.inl (Option.ne_none_iff_exists'.mpr ⟨old, hold⟩)) hover hclient hactive
    rw [← Session.run_append] at hlt
    refine hrun.refused_of_stale hseen (ne_of_lt (lt_of_le_of_lt hwell hlt)) fun ts _ => ?_
    rw [htime, hstamp, Records.stampAt_of_tuple? hold]
    exact hpast
  · intro hcovered hfree
    apply Session.commit_goes_through hdb hlast hclient hfree.active hfree.room hfree.merged
    intro ts entry hentry
    rw [htime]
    rcases hfree.others entry hentry with ⟨-, hstamp⟩ | hgood
    · rw [hstamp]
      exact Or.inl hcovered
    · exact hgood

/-- A snapshot that has read version 2 of another key. -/
theorem overwritten_snapshot_with_a_later_read_is_refused :
    let k : Key := ⟨[107]⟩
    let l : Key := ⟨[108]⟩
    let xs : List Call := [.begin .serializable, .ask 0 (.write k (.insert [49])),
      .ask 0 (.write l (.insert [49])), .commit 0, .begin .serializable,
      .ask 1 (.write l (.insert [50])), .commit 1, .begin .snapshot]
    let ys : List Call := [.begin .serializable, .ask 2 (.lookup l), .ask 3 (.write k (.insert [50]))]
    let zs : List Call := [.ask 2 (.write k (.insert [51]))]
    let last := (Session.start State.standard).run Database.standard
      (xs ++ .ask 2 (.lookup k) :: (ys ++ .commit 3 :: zs))
    last.records.stamp? k = some ⟨2, 2⟩ ∧ last.active 2 = true ∧
      (∀ ts, last.commitAnswer Database.standard 2 ≠ some (.ok (.committed ts))) ∧
      last.records.SameVersions (last.step Database.standard (.commit 2)).records := by
  intro k l xs ys zs last
  have hkeep : ∀ call ∈ xs ++ .ask 2 (.lookup k) :: (ys ++ .commit 3 :: zs),
      call.keepsKeys := by
    simp [xs, ys, zs, Call.keepsKeys]
  obtain ⟨client, hclient⟩ := Option.isSome_iff_exists.mp
    (show (last.clients[2]?).isSome = true by decide +kernel)
  have hfacts : (last.clients[2]?.map fun client =>
      (client.txn.isolation, client.txn.reads.maxWts)) = some (.snapshot, 2) := by
    decide +kernel
  rw [hclient, Option.map_some, Option.some.injEq, Prod.mk.injEq] at hfacts
  obtain ⟨hlevel, htime⟩ := hfacts
  have hspec := @snapshot_is_refused_if_it_has_read_past_an_overwritten_version Database.standard
    rfl State.standard (Session.quiet_start rfl) xs ys zs 2 3 k [49] ⟨1, 1⟩ client hkeep
    (by decide +kernel) (by decide +kernel) (by decide +kernel) hclient hlevel
  exact ⟨by decide +kernel, by decide +kernel, hspec.1 (htime ▸ by decide)⟩

/-- Without a later read the first writer of a key need not win. The snapshot has looked the key up at
version 1 and checks that read at time 1, so its write replaces version 2 without a look at it. -/
theorem snapshot_replaces_a_write_it_has_not_seen :
    let k : Key := ⟨[107]⟩
    let run := (Session.start State.standard).run Database.standard
    let xs : List Call := [.begin .serializable, .ask 0 (.write k (.insert [49])), .commit 0,
      .begin .snapshot]
    let ys : List Call := [.begin .serializable, .ask 2 (.write k (.insert [50]))]
    let zs : List Call := [.ask 1 (.write k (.insert [51]))]
    let last := run (xs ++ .ask 1 (.lookup k) :: (ys ++ .commit 2 :: zs))
    (run xs).told Database.standard 1 k = some (.ok (some [49])) ∧
      KeyMap.contains (run xs).records k = true ∧
      (run (xs ++ .ask 1 (.lookup k) :: ys)).CommitsWrite Database.standard 2 k ∧
      last.CommitsWrite Database.standard 1 k ∧
      last.commitAnswer Database.standard 1 = some (.ok (.committed 3)) := by
  decide +kernel

end StampStore
