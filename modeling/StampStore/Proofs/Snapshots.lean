-- What a committed transaction has read. A read keeps the version it saw; at the
-- commit that version is known to be readable up to the validation time, or it is
-- still the stored one and its read time is raised. So the reads of a transaction
-- at the two stronger levels are a snapshot at its validation time, and lookups of
-- a key that stays agree at every level.
import StampStore.Proofs.Runs
import Mathlib.Data.List.Infix

namespace StampStore

variable {db : Database Records} {s s' : Session} {t : Nat} {key : Key}

namespace Session

/-! ## From a lookup to the commit -/

/-- A lookup of a key without a buffered write notes the stored version. -/
theorem lookup_notes (hdb : db.InMemory) (hq : s.Quiet) {client : Client} {seen : Tuple}
    (hclient : s.clients[t]? = some client) (hactive : client.txn.isActive = true)
    (hfree : key ∉ client.txn.writes.keys) (hseen : s.records.tuple? key = some seen) :
    (s.step db (.ask t (.lookup key))).records = s.records ∧
      (s.step db (.ask t (.lookup key))).commits = s.commits ∧
      ∃ next, (s.step db (.ask t (.lookup key))).clients[t]? = some next ∧
        client.LeadsTo next ∧ ⟨key, seen⟩ ∈ next.txn.reads.entries := by
  have hfind := WriteBuffer.find?_eq_none_iff.mpr hfree
  have hstep := step_cases hdb hq (.ask t (.lookup key))
  obtain ⟨next, hnext, hlead⟩ := hstep.keepsClient hclient
  generalize s.step db (.ask t (.lookup key)) = after at hstep hnext ⊢
  cases hstep with
  | idle hcall hidle =>
    cases hcall
    rw [active_of_client hclient, hactive] at hidle
    cases hidle
  | looked hclient' hactive' hlooked =>
    rw [hclient] at hclient'
    cases hclient'
    refine ⟨rfl, rfl, next, hnext, hlead, ?_⟩
    have hasks : client.txn.asksStorage key = true := by
      unfold Transaction.asksStorage
      rw [hfind]
    have hview : client.txn.writes.view db.merge key (s.records.value? key) =
        .ok (s.records.value? key) := by
      unfold WriteBuffer.view
      rw [hfind]
    have hnote := hlooked.2 hasks seen _ hseen hview
    rw [getElem?_set_some hclient, if_pos rfl] at hnext
    cases hnext
    simp only [hnote]
    exact List.mem_append_right _ (List.mem_singleton.mpr rfl)

/-- The way from a lookup to the commit of the transaction that made it. -/
theorem lookup_to_commit (hdb : db.InMemory) (hq : s.Quiet) (ho : s.Orderly) {client : Client}
    {seen : Tuple} {ts : Timestamp} {later : List Call} (hclient : s.clients[t]? = some client)
    (hactive : client.txn.isActive = true) (hfree : key ∉ client.txn.writes.keys)
    (hseen : s.records.tuple? key = some seen)
    (hcommit : (t, ts) ∈ (s.run db (.ask t (.lookup key) :: later)).commits) :
    ∃ before after last held decided, later = before ++ .commit t :: after ∧
      CommitsAt db (s.run db (.ask t (.lookup key) :: before)) t ts
        (s.run db (.ask t (.lookup key) :: before ++ [.commit t])) last held decided ∧
      client.LeadsTo last ∧ ⟨key, seen⟩ ∈ last.txn.reads.entries := by
  obtain ⟨-, hcommits, next, hnext, hstep, hentry⟩ :=
    lookup_notes hdb hq hclient hactive hfree hseen
  have hq' := (step_cases hdb hq (.ask t (.lookup key))).quiet hq
  have hnew : (t, ts) ∉ (s.step db (.ask t (.lookup key))).commits := by
    rw [hcommits]
    intro hmem
    obtain ⟨done, hdone, hfinished⟩ := ho.finished _ hmem
    rw [hclient] at hdone
    cases hdone
    rw [hactive] at hfinished
    cases hfinished
  obtain ⟨before, after, last, held, decided, rfl, hat⟩ := commit_in_run hdb hq' hcommit hnew
  refine ⟨before, after, last, held, decided, rfl, hat, ?_⟩
  obtain ⟨last', hlast, hlead⟩ := keepsClient_run hdb hq' before hnext
  have hbefore := hat.before
  rw [hlast] at hbefore
  cases hbefore
  exact ⟨hstep.trans hlead, hlead.reads hat.active _ hentry⟩

/-- After its commit a client stays as the commit has left it. -/
theorem CommitsAt.client_run {ts : Timestamp} {client : Client} {held : LockTable}
    {decided : Transaction} (h : CommitsAt db s t ts s' client held decided) (hdb : db.InMemory)
    (hq : s'.Quiet) (later : List Call) :
    (s'.run db later).clients[t]? = some { client with txn := decided.finish .committed } := by
  obtain ⟨new, hnew, hlead⟩ := keepsClient_run hdb hq later h.after
  rw [hlead.finished rfl] at hnew
  exact hnew

/-! ## The snapshot at the validation time -/

/-- The version that a client has read, seen at its commit and right after it. The client commits
at a level that extends reads, and never writes the key. -/
theorem read_at_commit (hdb : db.InMemory) (hq : s.Quiet) (ho : s.Orderly) {looker client : Client}
    {seen : Tuple} {ts : Timestamp} {later : List Call} (hlooker : s.clients[t]? = some looker)
    (hactive : looker.txn.isActive = true) (hseen : s.records.tuple? key = some seen)
    (hcommit : (t, ts) ∈ (s.run db (.ask t (.lookup key) :: later)).commits)
    (hclient : (s.run db (.ask t (.lookup key) :: later)).clients[t]? = some client)
    (hlevel : client.txn.isolation ≠ .repeatableRead) (hwrote : ¬ client.Wrote key) :
    ∃ before after, later = before ++ .commit t :: after ∧
      seen.stamp.wts ≤ client.txn.validationTime ∧
      (client.txn.validationTime ≤ seen.stamp.rts ∨ seen.stamp.wts =
        ((s.run db (.ask t (.lookup key) :: before)).records.stampAt key).wts) ∧
      ∀ stored, (s.run db (.ask t (.lookup key) :: before)).records.tuple? key = some stored →
        ∃ left, (s.run db (.ask t (.lookup key) :: before ++ [.commit t])).records.tuple? key =
            some left ∧ stored.LeadsTo left ∧
          (client.txn.validationTime ≤ seen.stamp.rts ∨
            (left.stamp.wts = seen.stamp.wts ∧ client.txn.validationTime ≤ left.stamp.rts)) := by
  obtain ⟨_, hend, hlead⟩ := keepsClient_run hdb hq _ hlooker
  rw [hclient] at hend
  cases hend
  have hfree : key ∉ looker.txn.writes.keys := fun hmem =>
    hwrote ((ho.logged looker (List.mem_of_getElem? hlooker) key hmem).later hlead.said)
  obtain ⟨before, after, last, held, decided, rfl, hat, -, hentry⟩ :=
    lookup_to_commit hdb hq ho hlooker hactive hfree hseen hcommit
  -- what the commit has left of the client is what the whole run leaves of it
  have hfinal := hat.client_run hdb (quiet_run hdb hq _) after
  rw [← run_append, List.append_assoc, List.singleton_append, List.cons_append, hclient] at hfinal
  cases hfinal
  have hlast : key ∉ last.txn.writes.keys := fun hmem =>
    hwrote ((orderly_run hdb hq ho _).logged last (List.mem_of_getElem? hat.before) key hmem)
  have hext : last.txn.isolation.extendsReads = true := by
    have hiso : last.txn.isolation ≠ .repeatableRead := hat.run.isolation ▸ hlevel
    cases hkind : last.txn.isolation with
    | serializable => rfl
    | snapshot => rfl
    | repeatableRead => exact absurd hkind hiso
  obtain ⟨hwts, hgood⟩ := hat.run.good hentry
  exact ⟨before, after, rfl, hwts, hgood, fun stored hstored =>
    hat.run.guarded hext hentry hlast hstored⟩

theorem noRemovals_start (state : State Records) : (start state).NoRemovals :=
  fun _ h => absurd h List.not_mem_nil

theorem leadsTo_prefix (hdb : db.InMemory) (hq : s.Quiet) (hs : s.NoRemovals)
    {part calls : List Call} (hpart : part <+: calls) (hcalls : ∀ call ∈ calls, call.keepsKeys)
    (key : Key) : Records.LeadsTo key (s.run db part).records (s.run db calls).records := by
  obtain ⟨rest, rfl⟩ := hpart
  rw [run_append]
  have hleft : ∀ call ∈ part, call.keepsKeys := fun c hc => hcalls c (List.mem_append_left _ hc)
  have hright : ∀ call ∈ rest, call.keepsKeys := fun c hc => hcalls c (List.mem_append_right _ hc)
  exact leadsTo_run hdb (quiet_run hdb hq part) (noRemovals_run hdb hq hs hleft) hright key

/-- Every part of a run ends before the lookup, or between it and the commit, or after that. -/
theorem part_cases {xs us vs part : List Call} {look commit : Call}
    (h : part <+: xs ++ look :: (us ++ commit :: vs)) :
    part <+: xs ∨ (xs <+: part ∧ part <+: xs ++ look :: us) ∨
      xs ++ (look :: us ++ [commit]) <+: part := by
  have hcut : xs ++ (look :: us ++ [commit]) <+: xs ++ look :: (us ++ commit :: vs) :=
    ⟨vs, by simp⟩
  rw [← List.append_assoc] at hcut ⊢
  rcases List.prefix_or_prefix_of_prefix h hcut with hle | hge
  · rcases List.prefix_concat_iff.mp hle with rfl | hle
    · exact Or.inr (Or.inr (List.prefix_refl _))
    · rcases List.prefix_or_prefix_of_prefix hle (List.prefix_append xs _) with hxs | hxs
      · exact Or.inl hxs
      · exact Or.inr (Or.inl ⟨hxs, hle⟩)
  · exact Or.inr (Or.inr hge)

end Session

/-- What a transaction that extends its reads has read is a snapshot at its validation time `c`:
if it has read version `stamp.wts` of a key, then `stamp.wts ≤ c` and no version with a write time
after `stamp.wts` and up to `c` is stored at any moment of the run. -/
theorem no_version_between_a_read_and_its_commit {merge : MergeOperator} {config : Config}
    {state : State Records} (hopen : Database.openMemoryWith merge config = .ok (db, state))
    {xs ys : List Call} {t : Nat} {key : Key} {ts : Timestamp} {stamp : Stamp} {client : Client}
    (hkeep : ∀ call ∈ xs ++ .ask t (.lookup key) :: ys, call.keepsKeys)
    (hcommit : (t, ts) ∈
      ((Session.start state).run db (xs ++ .ask t (.lookup key) :: ys)).commits)
    (hclient : ((Session.start state).run db (xs ++ .ask t (.lookup key) :: ys)).clients[t]? =
      some client)
    (hlevel : client.txn.isolation ≠ .repeatableRead)
    (hactive : ((Session.start state).run db xs).active t = true)
    (hread : ((Session.start state).run db xs).records.stamp? key = some stamp)
    (hwrote : ¬ client.Wrote key) :
    stamp.wts ≤ client.txn.validationTime ∧
      ∀ part, part <+: xs ++ .ask t (.lookup key) :: ys → ∀ version,
        ((Session.start state).run db part).records.stamp? key = some version →
        ¬ (stamp.wts < version.wts ∧ version.wts ≤ client.txn.validationTime) := by
  obtain ⟨hdb, -, hshared⟩ := openMemoryWith_spec hopen
  have hq := Session.quiet_start hshared
  have hn := Session.noRemovals_start state
  obtain ⟨looker, hlooker, hlooks⟩ := Session.client_of_active hactive
  obtain ⟨seen, hseen, rfl⟩ := Option.map_eq_some_iff.mp hread
  rw [Session.run_append] at hcommit hclient
  obtain ⟨us, vs, rfl, hwts, hgood, hguard⟩ := Session.read_at_commit hdb
    (Session.quiet_run hdb hq xs) (Session.orderly_run hdb hq (Session.orderly_start state) xs)
    hlooker hlooks hseen hcommit hclient hlevel hwrote
  simp only [← Session.run_append] at hgood hguard
  refine ⟨hwts, ?_⟩
  intro part hpart version hversion
  obtain ⟨u, hu, rfl⟩ := Option.map_eq_some_iff.mp hversion
  have hlead : ∀ {a b : List Call}, a <+: b →
      b <+: xs ++ .ask t (.lookup key) :: (us ++ .commit t :: vs) →
      Records.LeadsTo key ((Session.start state).run db a).records
        ((Session.start state).run db b).records := fun hab hb =>
    Session.leadsTo_prefix hdb hq hn hab (fun call hmem => hkeep call (hb.subset hmem)) key
  have hsound : ∀ calls, ((Session.start state).run db calls).records.Sound := fun calls =>
    (Session.quiet_run hdb hq calls).sound
  have hxs : xs <+: xs ++ .ask t (.lookup key) :: us := List.prefix_append _ _
  have hus : xs ++ .ask t (.lookup key) :: us <+:
      xs ++ .ask t (.lookup key) :: (us ++ .commit t :: vs) := ⟨.commit t :: vs, by simp⟩
  obtain ⟨stored, hstored, hseenStored⟩ := hlead hxs hus seen hseen
  rcases Session.part_cases hpart with hearly | ⟨hafter, hbefore⟩ | hlate
  · -- before the lookup every version is the one that is read, or an earlier one
    obtain ⟨seen', hseen', huSeen⟩ := hlead hearly (hxs.trans hus) u hu
    rw [hseen] at hseen'
    cases hseen'
    rintro ⟨hlt, -⟩
    exact absurd hlt (not_lt.mpr (huSeen.wts_le ((hsound part).wellFormed hu)))
  · obtain ⟨u', hu', hseenU⟩ := hlead hafter hpart seen hseen
    rw [hu] at hu'
    cases hu'
    rcases hgood with hcovered | hsame
    · exact hseenU.not_between hcovered
    · -- what is read is still stored at the commit, so it is stored all the time up to there
      obtain ⟨stored', hstored', huStored⟩ := hlead hbefore hus u hu
      rw [hstored] at hstored'
      cases hstored'
      rw [Records.stampAt_of_tuple? hstored] at hsame
      rintro ⟨hlt, -⟩
      rw [hsame] at hlt
      exact absurd hlt (not_lt.mpr (huStored.wts_le ((hsound part).wellFormed hu)))
  · obtain ⟨left, hleft, hstoredLeft, hcases⟩ := hguard stored hstored
    obtain ⟨u', hu', hleftU⟩ := hlead hlate hpart left hleft
    rw [hu] at hu'
    cases hu'
    rcases hcases with hcovered | ⟨hsame, hraised⟩
    · have hseenU := (hseenStored.trans hstoredLeft ((hsound _).wellFormed hstored)).trans hleftU
        ((hsound _).wellFormed hleft)
      exact hseenU.not_between hcovered
    · rw [← hsame]
      exact hleftU.not_between hraised

/-- A transaction has read version 1 of `k`, and its write of `l` makes it commit at 3. It raises the
read time of `k` to 3, so the one that overwrites `k` afterwards commits at 4, past all that the
reader has relied on. -/
theorem overwriter_commits_past_the_validation_time_of_its_reader :
    let k : Key := ⟨[107]⟩
    let l : Key := ⟨[108]⟩
    let xs : List Call := [.begin .serializable, .ask 0 (.write k (.insert [49])),
      .ask 0 (.write l (.insert [49])), .commit 0, .begin .repeatableRead,
      .ask 1 (.write l (.insert [50])), .commit 1, .begin .serializable]
    let ys : List Call := [.begin .snapshot, .ask 3 (.write k (.insert [51])),
      .ask 2 (.write l (.insert [52])), .commit 2, .commit 3]
    let done := (Session.start State.standard).run Database.standard
      (xs ++ .ask 2 (.lookup k) :: ys)
    (2, 3) ∈ done.commits ∧ (3, 4) ∈ done.commits ∧ done.records.stamp? k = some ⟨4, 4⟩ ∧
      ((Session.start State.standard).run Database.standard
        (xs ++ .ask 2 (.lookup k) :: ys.dropLast)).records.stamp? k = some ⟨1, 3⟩ ∧
      ∀ part, part <+: xs ++ .ask 2 (.lookup k) :: ys → ∀ version,
        ((Session.start State.standard).run Database.standard part).records.stamp? k =
          some version → ¬ ((1 : Timestamp) < version.wts ∧ version.wts ≤ 3) := by
  intro k l xs ys done
  have hkeep : ∀ call ∈ xs ++ .ask 2 (.lookup k) :: ys, call.keepsKeys := by
    simp [xs, ys, Call.keepsKeys]
  obtain ⟨client, hclient, hlevel, htime, hlog⟩ : ∃ client, done.clients[2]? = some client ∧
      client.txn.isolation = .serializable ∧ client.txn.validationTime = 3 ∧
      client.log.map (·.request) = [.lookup k, .write l (.insert [52])] := by
    have hsome : (done.clients[2]?).isSome = true := by decide +kernel
    obtain ⟨client, hclient⟩ := Option.isSome_iff_exists.mp hsome
    have hfacts : (done.clients[2]?.map fun client => (client.txn.isolation,
        client.txn.validationTime, client.log.map (·.request))) =
        some (.serializable, 3, [.lookup k, .write l (.insert [52])]) := by decide +kernel
    rw [hclient, Option.map_some, Option.some.injEq, Prod.mk.injEq, Prod.mk.injEq] at hfacts
    exact ⟨client, hclient, hfacts⟩
  have hwrote : ¬ client.Wrote k := by
    intro hwrote
    obtain ⟨message, hmem⟩ := hwrote.request
    rw [hlog] at hmem
    simp [k, l] at hmem
  have hspec := @no_version_between_a_read_and_its_commit Database.standard .replace
    Config.standard State.standard openMemoryWith_standard xs ys 2 k 3 ⟨1, 1⟩ client hkeep
    (by decide +kernel) hclient (by simp [hlevel]) (by decide +kernel) (by decide +kernel) hwrote
  rw [htime] at hspec
  exact ⟨by decide +kernel, by decide +kernel, by decide +kernel, by decide +kernel, hspec.2⟩

/-! ## Lookups that agree -/

namespace Session

/-- What client `n` is told when it looks `key` up now. -/
def told (db : Database Records) (s : Session) (n : Nat) (key : Key) :
    Option (Except Error (Option Bytes)) :=
  s.clients[n]?.map fun client => (db.lookup client.txn key s.state).answer

/-- An active client is told what its writes make of the stored value. -/
theorem told_view (hdb : db.InMemory) (hq : s.Quiet) {client : Client}
    (hclient : s.clients[t]? = some client) (hactive : client.txn.isActive = true) (key : Key) :
    s.told db t key = some (client.txn.writes.view db.merge key (s.records.value? key)) := by
  obtain ⟨after, hlookup, -⟩ := Database.lookup_memory hdb hq hactive key
  unfold told
  rw [hclient, Option.map_some, hlookup]

/-- A client without a buffered write of a key is told what is stored. -/
theorem told_stored (hdb : db.InMemory) (hq : s.Quiet) {client : Client}
    (hclient : s.clients[t]? = some client) (hactive : client.txn.isActive = true)
    (hfree : key ∉ client.txn.writes.keys) :
    s.told db t key = some (.ok (s.records.value? key)) := by
  rw [told_view hdb hq hclient hactive]
  unfold WriteBuffer.view
  rw [WriteBuffer.find?_eq_none_iff.mpr hfree]

/-- The stored value of a key that stays from one lookup to the commit is the same at a second
lookup in between. -/
theorem value?_second_lookup (hdb : db.InMemory) (hq : s.Quiet) (ho : s.Orderly)
    {first second : Client} {a : Tuple} {ts : Timestamp} {ys zs : List Call}
    (hfirst : s.clients[t]? = some first)
    (hsecond : (s.run db (.ask t (.lookup key) :: ys)).clients[t]? = some second)
    (hactive : second.txn.isActive = true) (hfree : key ∉ second.txn.writes.keys)
    (ha : s.records.tuple? key = some a)
    (hcommit : (t, ts) ∈
      (s.run db (.ask t (.lookup key) :: (ys ++ .ask t (.lookup key) :: zs))).commits)
    (hstays : ∀ part, part <+: ys ++ .ask t (.lookup key) :: zs →
      (s.run db (.ask t (.lookup key) :: part)).active t = true →
      (s.run db (.ask t (.lookup key) :: part)).records.tuple? key ≠ none) :
    (s.run db (.ask t (.lookup key) :: ys)).records.value? key = s.records.value? key := by
  have hq' := (step_cases hdb hq (.ask t (.lookup key))).quiet hq
  have hq3 := quiet_run hdb hq (.ask t (.lookup key) :: ys)
  have ho3 := orderly_run hdb hq ho (.ask t (.lookup key) :: ys)
  have hactive3 : (s.run db (.ask t (.lookup key) :: ys)).active t = true :=
    (active_of_client hsecond).trans hactive
  -- the first lookup is noted, and the note is still there at the second one
  obtain ⟨-, -, next, hnext, hstep, hnote⟩ : _ ∧ _ ∧ _ := by
    obtain ⟨_, hlast, hlead⟩ := keepsClient_run hdb hq (.ask t (.lookup key) :: ys) hfirst
    rw [hsecond] at hlast
    cases hlast
    exact lookup_notes hdb hq hfirst (hlead.active_of_active hactive)
      (fun hmem => hfree (hlead.writes hactive key hmem)) ha
  obtain ⟨_, hlast, hlead⟩ := keepsClient_run hdb hq' ys hnext
  rw [← run_cons, hsecond] at hlast
  cases hlast
  obtain ⟨b, hb⟩ := Option.ne_none_iff_exists'.mp (hstays ys (List.prefix_append _ _) hactive3)
  rw [← List.cons_append, run_append] at hcommit
  obtain ⟨before, after, last, held, decided, rfl, hat, hsame, hnote'⟩ :=
    lookup_to_commit hdb hq3 ho3 hsecond hactive hfree hb hcommit
  have hgood := (hat.run.good (hsame.reads hat.active _ (hlead.reads hactive _ hnote))).2
  have hwts := (hat.run.good hnote').1
  have hab : Records.LeadsTo key s.records (s.run db (.ask t (.lookup key) :: ys)).records := by
    apply leadsTo_run_of_present hdb hq
    intro part hpart
    rcases List.prefix_cons_iff.mp hpart with rfl | ⟨rest, rfl, hrest⟩
    · exact Option.ne_none_iff_exists'.mpr ⟨a, ha⟩
    · exact hstays rest (hrest.trans (List.prefix_append _ _))
        (active_earlier hdb hq hpart hfirst hactive3)
  have hbd : Records.LeadsTo key (s.run db (.ask t (.lookup key) :: ys)).records
      ((s.run db (.ask t (.lookup key) :: ys)).run db
        (.ask t (.lookup key) :: before)).records := by
    apply leadsTo_run_of_present hdb hq3
    intro part hpart
    rcases List.prefix_cons_iff.mp hpart with rfl | ⟨rest, rfl, hrest⟩
    · exact Option.ne_none_iff_exists'.mpr ⟨b, hb⟩
    · have hactive4 : ((s.run db (.ask t (.lookup key) :: ys)).run db
          (.ask t (.lookup key) :: before)).active t = true :=
        (active_of_client hat.before).trans hat.active
      have hthere := active_earlier hdb hq3 hpart hsecond hactive4
      rw [← run_append, List.cons_append] at hthere ⊢
      refine hstays _ ?_ hthere
      rw [List.prefix_append_right_inj, List.prefix_cons_inj]
      exact hrest.trans (List.prefix_append _ _)
  obtain ⟨b', hb', hleadAB⟩ := hab a ha
  rw [hb] at hb'
  cases hb'
  obtain ⟨d, hd, hleadBD⟩ := hbd b hb
  rw [Records.stampAt_of_tuple? hd] at hgood
  rw [Records.value?, Records.value?, ha, hb, Option.map_some, Option.map_some,
    hleadAB.same_of_good hleadBD (hq.sound.wellFormed ha) (hq3.sound.wellFormed hb) hwts hgood]

end Session

/-- Lookups of a key that a committed transaction made before any write of its own to it agree at
every level, if the key was neither removed nor newly inserted between the first of them and the
commit. Both are told what is stored. -/
theorem repeated_lookups_agree_while_the_key_stays {merge : MergeOperator} {config : Config}
    {state : State Records} (hopen : Database.openMemoryWith merge config = .ok (db, state))
    {xs ys zs : List Call} {t : Nat} {key : Key} {ts : Timestamp}
    (hcommit : (t, ts) ∈ ((Session.start state).run db
      (xs ++ .ask t (.lookup key) :: (ys ++ .ask t (.lookup key) :: zs))).commits)
    (hfirst : ((Session.start state).run db xs).active t = true)
    (hsecond : ((Session.start state).run db (xs ++ .ask t (.lookup key) :: ys)).active t = true)
    (hwrote : ∀ client,
      ((Session.start state).run db (xs ++ .ask t (.lookup key) :: ys)).clients[t]? = some client →
      ¬ client.Wrote key)
    (hstays : ∀ part, part <+: ys ++ .ask t (.lookup key) :: zs →
      ((Session.start state).run db (xs ++ .ask t (.lookup key) :: part)).active t = true →
      KeyMap.contains
          ((Session.start state).run db (xs ++ .ask t (.lookup key) :: part)).records key =
        KeyMap.contains ((Session.start state).run db xs).records key) :
    ((Session.start state).run db xs).told db t key =
        some (.ok (((Session.start state).run db xs).records.value? key)) ∧
      ((Session.start state).run db (xs ++ .ask t (.lookup key) :: ys)).told db t key =
        some (.ok (((Session.start state).run db xs).records.value? key)) := by
  obtain ⟨hdb, -, hshared⟩ := openMemoryWith_spec hopen
  have hq := Session.quiet_run hdb (Session.quiet_start hshared) xs
  have ho := Session.orderly_run hdb (Session.quiet_start hshared) (Session.orderly_start state) xs
  simp only [Session.run_append] at hcommit hsecond hwrote hstays ⊢
  generalize (Session.start state).run db xs = s at *
  have hq3 := Session.quiet_run hdb hq (.ask t (.lookup key) :: ys)
  have ho3 := Session.orderly_run hdb hq ho (.ask t (.lookup key) :: ys)
  obtain ⟨first, hclient, hlooks⟩ := Session.client_of_active hfirst
  obtain ⟨second, hclient', hactive⟩ := Session.client_of_active hsecond
  have hfree : key ∉ second.txn.writes.keys := fun hmem =>
    hwrote second hclient' (ho3.logged second (List.mem_of_getElem? hclient') key hmem)
  have hfree' : key ∉ first.txn.writes.keys := by
    obtain ⟨_, hlast, hlead⟩ :=
      Session.keepsClient_run hdb hq (.ask t (.lookup key) :: ys) hclient
    rw [hclient'] at hlast
    cases hlast
    exact fun hmem => hfree (hlead.writes hactive key hmem)
  have hsame : (s.run db (.ask t (.lookup key) :: ys)).records.value? key =
      s.records.value? key := by
    have hthere := hstays ys (List.prefix_append _ _) hsecond
    rw [hq.sound.contains_eq, hq3.sound.contains_eq] at hthere
    cases ha : s.records.tuple? key with
    | none =>
      rw [ha, Option.isSome_none, Option.isSome_eq_false_iff, Option.isNone_iff_eq_none] at hthere
      rw [Records.value?, Records.value?, ha, hthere]
    | some a =>
      refine Session.value?_second_lookup hdb hq ho hclient hclient' hactive hfree ha hcommit ?_
      intro part hpart hlive hgone
      have hkept := hstays part hpart hlive
      rw [hq.sound.contains_eq, (Session.quiet_run hdb hq _).sound.contains_eq, ha, hgone] at hkept
      cases hkept
  refine ⟨Session.told_stored hdb hq hclient hlooks hfree', ?_⟩
  rw [← hsame]
  exact Session.told_stored hdb hq3 hclient' hactive hfree

/-- Two lookups with a write of another key in between. -/
theorem lookups_around_another_write :
    let k : Key := ⟨[107]⟩
    let xs : List Call := [.begin .serializable, .ask 0 (.write k (.insert [49])), .commit 0,
      .begin .repeatableRead]
    let ys : List Call := [.begin .snapshot, .ask 2 (.write ⟨[108]⟩ (.insert [50])), .commit 2]
    ((Session.start State.standard).run Database.standard xs).told Database.standard 1 k =
        some (.ok (some [49])) ∧
      ((Session.start State.standard).run Database.standard
        (xs ++ .ask 1 (.lookup k) :: ys)).told Database.standard 1 k =
          some (.ok (some [49])) := by
  intro k xs ys
  refine @repeated_lookups_agree_while_the_key_stays Database.standard .replace Config.standard
    State.standard openMemoryWith_standard xs ys [.commit 1] 1 k 1 (by decide +kernel)
    (by decide +kernel) (by decide +kernel) ?_ ?_
  · intro client hclient hwrote
    have hlog : (((Session.start State.standard).run Database.standard
        (xs ++ .ask 1 (.lookup k) :: ys)).clients[1]?.map fun client =>
          client.log.map (·.request)) = some [.lookup k] := by decide +kernel
    rw [hclient, Option.map_some, Option.some.injEq] at hlog
    obtain ⟨message, hmem⟩ := hwrote.request
    rw [hlog] at hmem
    simp at hmem
  · intro part hpart _
    have hall : ∀ part ∈ (ys ++ [Call.ask 1 (.lookup k), .commit 1]).inits,
        KeyMap.contains ((Session.start State.standard).run Database.standard
            (xs ++ .ask 1 (.lookup k) :: part)).records k =
          KeyMap.contains ((Session.start State.standard).run Database.standard xs).records k := by
      decide +kernel
    exact hall part ((List.mem_inits _ _).mpr hpart)

/-- Without that condition lookups of a committed transaction may differ. A lookup that finds
nothing leaves no note, so a key may come or go before the second lookup; and a key that is
removed and inserted again may get the write time back that was read first. -/
theorem lookups_may_differ_when_the_key_comes_or_goes :
    let k : Key := ⟨[107]⟩
    let put (n : Nat) (v : UInt8) : List Call :=
      [.begin .serializable, .ask n (.write k (.insert [v])), .commit n]
    let remove (n : Nat) : List Call :=
      [.begin .serializable, .ask n (.write k .delete), .commit n]
    let differs (t : Nat) (xs ys zs : List Call) : Prop :=
      let look : Call := .ask t (.lookup k)
      let run := (Session.start State.standard).run Database.standard
      (∃ ts, (t, ts) ∈ (run (xs ++ look :: (ys ++ look :: zs))).commits) ∧
        (∀ call ∈ xs ++ look :: (ys ++ look :: zs), ∀ message,
          call ≠ .ask t (.write k message)) ∧
        (run xs).active t = true ∧ (run (xs ++ look :: ys)).active t = true ∧
        (run xs).told Database.standard t k ≠ (run (xs ++ look :: ys)).told Database.standard t k
    differs 0 [.begin .serializable] (put 1 49) [.commit 0] ∧
      differs 1 (put 0 49 ++ [.begin .serializable]) (remove 2) [.commit 1] ∧
      differs 1 (put 0 49 ++ [.begin .serializable]) (put 2 50)
        (remove 3 ++ put 4 51 ++ [.commit 1]) := by
  intro k put remove differs
  have htold : ∀ {a b : Option (Except Error (Option Bytes))},
      a.bind Except.toOption ≠ b.bind Except.toOption → a ≠ b := by
    rintro a b hne rfl
    exact hne rfl
  refine ⟨⟨⟨1, by decide +kernel⟩, by simp [put], by decide +kernel, by decide +kernel, ?_⟩,
    ⟨⟨1, by decide +kernel⟩, by simp [put, remove], by decide +kernel, by decide +kernel, ?_⟩,
    ⟨⟨2, by decide +kernel⟩, by simp [put, remove], by decide +kernel, by decide +kernel, ?_⟩⟩
  all_goals
    apply htold
    decide +kernel

end StampStore
