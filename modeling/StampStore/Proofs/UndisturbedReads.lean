-- Transactions whose reads nobody overwrites. A read is refused only if its key has
-- been written since: lookups of others, the read times that they raise and their
-- aborted commits change no write time. So such a transaction commits, unless a key
-- that it writes has no timestamp left.
import StampStore.Proofs.StampProgress

namespace StampStore

/-! ## Keys without a timestamp left -/

theorem Timestamp.eq_last_of_next? {t : Timestamp} (h : t.next? = none) : t = last := by
  have hnat := next?_eq_none_iff.mp h
  apply UInt32.toNat_inj.mp
  rw [hnat, last, UInt32.toNat_ofNat']
  decide

/-- The least of some keys that are stored with the last timestamp as their read time. -/
structure Records.FirstExhausted (records : Records) (keys : List Key) (key : Key) : Prop where
  mem : key ∈ keys
  last : (records.stampAt key).rts = Timestamp.last
  least : ∀ other ∈ keys, (records.stampAt other).rts = Timestamp.last → ¬ other < key

section OneCommit

variable {app : MergeOperator} {txn decided : Transaction} {records after : Records}
  {held : LockTable} {answer : Except Error Outcome} {key : Key}

theorem Records.FirstExhausted.unique {keys : List Key} {first second : Key}
    (h : records.FirstExhausted keys first) (h' : records.FirstExhausted keys second) :
    first = second :=
  Key.eq_of_not_lt (h'.least first h.mem h.last) (h.least second h'.mem h'.last)

/-- A search for a write time in key order stops at the first key that has none left. -/
theorem exhausted_of_timeAfter {keys : List Key} (hsorted : keys.Pairwise fun a b => a < b)
    {ts : Timestamp} {conflict : Conflict} (h : records.timeAfter keys ts = .error conflict) :
    ∃ key, conflict = .exhausted key ∧ records.FirstExhausted keys key := by
  induction keys generalizing ts with
  | nil => cases h
  | cons key keys ih =>
    obtain ⟨hbefore, hrest⟩ := List.pairwise_cons.mp hsorted
    unfold Records.timeAfter at h
    cases hnext : (records.stampAt key).rts.next? with
    | none =>
      rw [hnext] at h
      cases h
      refine ⟨key, rfl, List.mem_cons_self, Timestamp.eq_last_of_next? hnext, ?_⟩
      intro other hother _
      rcases List.mem_cons.mp hother with rfl | hother
      · exact Key.lt_irrefl _
      · exact Key.lt_asymm (hbefore other hother)
    | some next =>
      rw [hnext] at h
      obtain ⟨first, rfl, hfirst⟩ := ih hrest h
      refine ⟨first, rfl, List.mem_cons_of_mem key hfirst.mem, hfirst.last, ?_⟩
      intro other hother hlast
      rcases List.mem_cons.mp hother with rfl | hother
      · have hlt := Timestamp.lt_of_next? hnext
        rw [hlast] at hlt
        exact absurd (Timestamp.le_last next) (not_le.mpr hlt)
      · exact hfirst.least other hother hlast

/-- A commit whose reads are all current, and whose writes can be merged, goes through, unless a key
that it writes has no timestamp left; then it names the least such key. -/
theorem CommitRun.verdict_of_current (h : CommitRun app txn records held answer decided after)
    (hcurrent : ∀ entry ∈ txn.reads.entries,
      entry.tuple.stamp.wts = (records.stampAt entry.key).wts)
    (hholder : ∀ key, held.holder? key = if key ∈ txn.writes.keys then some txn.id else none)
    (hmerge : ∀ entry ∈ txn.writes.entries,
      ∃ value, entry.effect app (records.value? entry.key) = .ok value) :
    (∃ key, records.FirstExhausted txn.writes.keys key ∧
        answer = .ok (.aborted (.conflict (.exhausted key)))) ∨
      (∀ key ∈ txn.writes.keys, (records.stampAt key).rts ≠ Timestamp.last) ∧
        ∃ c, answer = .ok (.committed c) := by
  cases htime : records.timeAfter txn.ready.writes.keys txn.ready.commitWts with
  | error conflict =>
    left
    rw [Transaction.ready_writes] at htime
    obtain ⟨key, rfl, hfirst⟩ := exhausted_of_timeAfter txn.writes.sorted_ascending htime
    refine ⟨key, ⟨WriteBuffer.mem_keys_sorted.mp hfirst.mem, hfirst.last, fun other hother =>
      hfirst.least other (WriteBuffer.mem_keys_sorted.mpr hother)⟩, ?_⟩
    rw [← Transaction.ready_writes] at htime
    cases h with
    | exhausted htime' =>
      rw [htime] at htime'
      cases htime'
      rfl
    | refused htime' | stopped htime' | installed htime' =>
      rw [htime] at htime'
      cases htime'
  | ok ts =>
    right
    refine ⟨fun key hkey hlast => ?_, h.committed_of_good htime ?_ hmerge⟩
    · have hlt := rts_lt_of_timeAfter htime hkey
      rw [hlast] at hlt
      exact absurd (Timestamp.le_last ts) (not_le.mpr hlt)
    · apply firstFault_eq_none_of_good
      · rw [Transaction.readyAt_reads]
        exact fun entry hentry => Or.inr (hcurrent entry hentry)
      · rw [Transaction.readyAt_id]
        exact hholder

end OneCommit

/-! ## Reads of a run -/

variable {db : Database Records} {s s' : Session} {call : Call} {good : Bytes → Prop} {t : Nat}
  {key : Key}

/-- The key that a request looks up. -/
def Request.lookup? : Request → Option Key
  | .lookup key => some key
  | .write _ _ => none

namespace Session

/-- The keys that client `n` has looked up. -/
def lookedUp (s : Session) (n : Nat) : List Key := (s.requestsOf n).filterMap Request.lookup?

theorem lookedUp_of_client {client : Client} (h : s.clients[t]? = some client) :
    s.lookedUp t = client.log.filterMap fun exchange => exchange.request.lookup? := by
  unfold lookedUp requestsOf logOf
  rw [h, List.filterMap_map]
  rfl

theorem Step.lookedUp (h : Step db s call s') (hkey : key ∈ s.lookedUp t) : key ∈ s'.lookedUp t := by
  cases hclient : s.clients[t]? with
  | none => simp [Session.lookedUp, requestsOf, Session.logOf, hclient] at hkey
  | some client =>
    obtain ⟨next, hnext, hlead⟩ := h.keepsClient hclient
    rw [lookedUp_of_client hclient] at hkey
    rw [lookedUp_of_client hnext]
    obtain ⟨exchange, hmem, hlooked⟩ := List.mem_filterMap.mp hkey
    exact List.mem_filterMap.mpr ⟨exchange, hlead.said.subset hmem, hlooked⟩

/-- A transaction is not active after its commit, whatever the answer. -/
theorem inactive_after_commit (hdb : db.InMemory) (hq : s.Quiet) (n : Nat) :
    (s.step db (.commit n)).active n = false := by
  have hstep := step_cases hdb hq (.commit n)
  generalize s.step db (.commit n) = after at hstep
  cases hstep with
  | idle hcall hidle =>
    cases hcall
    exact hidle
  | committed hclient =>
    rw [active_of_client (by rw [getElem?_set_some hclient, if_pos rfl])]
    exact isActive_finish _ _

/-- A call changes the write time of a key only if it commits a write of it. -/
theorem Stamped.wts_kept (hs : s.Stamped good) (hdb : db.InMemory)
    (hclosed : db.merge.Closed good)
    (hfree : ∀ n, call = .commit n → ¬ s.CommitsWrite db n key) :
    ((s.step db call).records.stampAt key).wts = (s.records.stampAt key).wts := by
  rcases (step_cases hdb hs.quiet call).records_cases hclosed hs with
    hsame | ⟨n, client, -, -, -, rfl, hclient, hactive, -⟩
  · rw [hsame]
  · obtain ⟨answer, decided, held, hrun, -, htime⟩ := step_commit hdb hs.quiet hclient hactive
    have hbuffer := hs.mergeable client (List.mem_of_getElem? hclient)
    obtain ⟨outcome, rfl⟩ := outcome_of_mergeable hclosed hbuffer hs.values hrun
    cases outcome with
    | aborted reason => exact (aborted_frame hrun key).2
    | committed c =>
      have hkey : key ∉ client.txn.writes.keys := by
        intro hkey
        refine hfree n rfl ⟨client, hclient, hkey, ?_⟩
        rw [htime]
        rfl
      rw [stampAt_committed_kept hrun hkey]
      exact Records.wts_stampAt_refreshed _ _ _ _ _

/-- A call leaves every client alone that it is not for; a client may be new. -/
theorem Step.others (h : Step db s call s') (hcall : call.client? ≠ some t) {next : Client}
    (hnext : s'.clients[t]? = some next) :
    s.clients[t]? = some next ∨ ∃ id level, next = ⟨Transaction.start id level, [], false⟩ := by
  have hset : ∀ {n : Nat} {client after : Client}, s.clients[n]? = some client →
      some n ≠ some t → (s.clients.set n after)[t]? = some next → s.clients[t]? = some next := by
    intro n client after hclient hother hafter
    rwa [getElem?_set_some hclient, if_neg fun hn => hother (congrArg some hn)] at hafter
  cases h with
  | begun =>
    rcases List.mem_append.mp (List.mem_of_getElem? hnext) with hmem | hmem
    · by_cases hlt : t < s.clients.length
      · exact Or.inl (by rwa [List.getElem?_append_left hlt] at hnext)
      · rw [List.getElem?_append_right (Nat.not_lt.mp hlt)] at hnext
        exact Or.inr ⟨_, _, List.mem_singleton.mp (List.mem_of_getElem? hnext)⟩
    · exact Or.inr ⟨_, _, List.mem_singleton.mp hmem⟩
  | idle => exact Or.inl hnext
  | looked hclient => exact Or.inl (hset hclient hcall hnext)
  | refused hclient => exact Or.inl (hset hclient hcall hnext)
  | wrote hclient => exact Or.inl (hset hclient hcall hnext)
  | aborted hclient => exact Or.inl (hset hclient hcall hnext)
  | committed hclient => exact Or.inl (hset hclient hcall hnext)

/-- A read of an active client was noted before the call, or the call is the lookup that has noted
it, with the stamp that is stored. -/
theorem Step.reads_cases (h : Step db s call s') {next : Client}
    (hnext : s'.clients[t]? = some next) (hactive : next.txn.isActive = true) {entry : ReadEntry}
    (hentry : entry ∈ next.txn.reads.entries) :
    (∃ client, s.clients[t]? = some client ∧ client.txn.isActive = true ∧
        entry ∈ client.txn.reads.entries) ∨
      call = .ask t (.lookup entry.key) ∧ entry.key ∈ s'.lookedUp t ∧
        entry.tuple.stamp = s.records.stampAt entry.key := by
  by_cases hcall : call.client? = some t
  · cases h with
    | begun => cases hcall
    | idle => exact Or.inl ⟨next, hnext, hactive, hentry⟩
    | looked hclient hlive hlooked =>
      cases hcall
      rw [getElem?_set_some hclient, if_pos rfl] at hnext
      cases hnext
      rcases hlooked.1 with rfl | ⟨seen, rfl, hstamp⟩
      · exact Or.inl ⟨_, hclient, hlive, hentry⟩
      · rcases List.mem_append.mp hentry with hold | hnew
        · exact Or.inl ⟨_, hclient, hlive, hold⟩
        · rw [List.mem_singleton.mp hnew]
          refine Or.inr ⟨rfl, ?_, hstamp⟩
          rw [lookedUp_of_client (by rw [getElem?_set_some hclient, if_pos rfl])]
          simp [Request.lookup?]
    | refused hclient hlive =>
      cases hcall
      rw [getElem?_set_some hclient, if_pos rfl] at hnext
      cases hnext
      exact Or.inl ⟨_, hclient, hlive, hentry⟩
    | wrote hclient hlive hwrite =>
      cases hcall
      rw [getElem?_set_some hclient, if_pos rfl] at hnext
      cases hnext
      obtain ⟨writes, rfl, -⟩ := write_keys hwrite
      exact Or.inl ⟨_, hclient, hlive, hentry⟩
    | aborted hclient hlive =>
      cases hcall
      rw [getElem?_set_some hclient, if_pos rfl] at hnext
      cases hnext
      rw [Transaction.abort, if_pos hlive] at hactive
      cases hactive
    | committed hclient =>
      cases hcall
      rw [getElem?_set_some hclient, if_pos rfl] at hnext
      cases hnext
      rw [isActive_finish] at hactive
      cases hactive
  · rcases h.others hcall hnext with hold | ⟨id, level, rfl⟩
    · exact Or.inl ⟨next, hold, hactive, hentry⟩
    · cases hentry

/-- While client `t` is active, it has looked up the key of each of its reads, and the key still has
the write time that was read. -/
def ReadsCurrent (s : Session) (t : Nat) : Prop :=
  ∀ client, s.clients[t]? = some client → client.txn.isActive = true →
    ∀ entry ∈ client.txn.reads.entries, entry.key ∈ s.lookedUp t ∧
      entry.tuple.stamp.wts = (s.records.stampAt entry.key).wts

/-- In the calls from `s` on, no other client commits a write of a key that client `t` has looked up
before. -/
def Undisturbed (db : Database Records) (s : Session) (t : Nat) (calls : List Call) : Prop :=
  ∀ part n, part ++ [.commit n] <+: calls → n ≠ t →
    ∀ key ∈ (s.run db part).lookedUp t, ¬ (s.run db part).CommitsWrite db n key

theorem ReadsCurrent.step (h : s.ReadsCurrent t) (hdb : db.InMemory) (hclosed : db.merge.Closed good)
    (hs : s.Stamped good)
    (hfree : ∀ n, call = .commit n → n ≠ t → ∀ key ∈ s.lookedUp t, ¬ s.CommitsWrite db n key) :
    (s.step db call).ReadsCurrent t := by
  intro next hnext hactive entry hentry
  have hstep := step_cases hdb hs.quiet call
  rcases hstep.reads_cases hnext hactive hentry with
    ⟨client, hclient, hlive, hold⟩ | ⟨rfl, hlooked, hstamp⟩
  · obtain ⟨hlooked, hwts⟩ := h client hclient hlive entry hold
    refine ⟨hstep.lookedUp hlooked, ?_⟩
    rw [hwts, hs.wts_kept hdb hclosed]
    rintro n rfl
    refine hfree n rfl ?_ entry.key hlooked
    rintro rfl
    rw [← active_of_client hnext, inactive_after_commit hdb hs.quiet] at hactive
    cases hactive
  · refine ⟨hlooked, ?_⟩
    rw [hstamp, hs.wts_kept hdb hclosed]
    rintro n hcommit
    cases hcommit

/-- Undisturbed reads stay current. -/
theorem readsCurrent_run (hdb : db.InMemory) (hclosed : db.merge.Closed good) (hs : s.Stamped good)
    (h : s.ReadsCurrent t) {calls : List Call} (hfree : s.Undisturbed db t calls) :
    (s.run db calls).ReadsCurrent t := by
  induction calls using List.reverseRecOn with
  | nil => exact h
  | append_singleton calls call ih =>
    rw [run_append]
    refine (ih fun part n hpart => hfree part n (hpart.trans (List.prefix_append _ _))).step hdb
      hclosed (stamped_run hdb hclosed hs calls) ?_
    rintro n rfl
    exact hfree calls n (List.prefix_refl _)

end Session

/-- A transaction of any level whose reads nobody overwrites: from each of its lookups to its commit
no other transaction commits a write or a removal of the key. Whatever else the others do, its
commit goes through, unless a key that it writes is stored with the last timestamp as its read time.
Then the commit is aborted, and names the least such key. The store may start from any records that
keep the invariant, as an empty one does (`Session.stamped_start`). -/
theorem undisturbed_transaction_commits_unless_timestamps_are_exhausted (hdb : db.InMemory)
    (hclosed : db.merge.Closed good) {state : State Records}
    (hstart : (Session.start state).Stamped good) {calls : List Call} {client : Client}
    (hclient : ((Session.start state).run db calls).clients[t]? = some client)
    (hactive : client.txn.isActive = true)
    (hfree : (Session.start state).Undisturbed db t calls) :
    let s := (Session.start state).run db calls
    (∀ key, s.commitAnswer db t = some (.ok (.aborted (.conflict (.exhausted key)))) ↔
        s.records.FirstExhausted client.txn.writes.keys key) ∧
      ((∃ ts, s.commitAnswer db t = some (.ok (.committed ts))) ↔
        ∀ key ∈ client.txn.writes.keys, (s.records.stampAt key).rts ≠ Timestamp.last) := by
  intro s
  have hs : s.Stamped good := Session.stamped_run hdb hclosed hstart calls
  have hmem : client ∈ s.clients := List.mem_of_getElem? hclient
  have hcurrent : s.ReadsCurrent t := Session.readsCurrent_run hdb hclosed hstart
    (fun _ hnone => by cases hnone) hfree
  obtain ⟨answer, decided, held, hrun, hholder, hanswer⟩ :=
    Session.step_commit_answer hdb hs.quiet hclient hactive
  rw [hanswer]
  rcases hrun.verdict_of_current
      (fun entry hentry => (hcurrent client hclient hactive entry hentry).2) hholder
      (merges_of_mergeable hclosed (hs.mergeable client hmem) hs.values) with
    ⟨first, hfirst, rfl⟩ | ⟨hroom, ts, rfl⟩
  · refine ⟨fun key => ⟨fun h => ?_, fun hkey => ?_⟩, fun ⟨ts, h⟩ => ?_, fun hroom => ?_⟩
    · cases h
      exact hfirst
    · rw [hfirst.unique hkey]
      rfl
    · cases h
    · exact absurd hfirst.last (hroom first hfirst.mem)
  · refine ⟨fun key => ⟨fun h => ?_, fun hkey => ?_⟩, fun _ => hroom, fun _ => ⟨ts, rfl⟩⟩
    · cases h
    · exact absurd hkey.last (hroom key hkey.mem)

/-- Three keys, two of them known to be readable at all times. -/
def worn : Records :=
  ((KeyMap.empty.insert ⟨[106]⟩ (Tuple.make ⟨1, Timestamp.last⟩ [49]).bytes).insert ⟨[107]⟩
    (Tuple.make ⟨1, Timestamp.last⟩ [50]).bytes).insert ⟨[108]⟩ (Tuple.make ⟨1, 1⟩ [51]).bytes

theorem stamped_worn :
    (Session.start (State.initial worn .serializable)).Stamped fun _ => True where
  quiet := by
    refine ⟨rfl, ?_⟩
    exact ((Records.sound_empty.insert _ (by decide)).insert _ (by decide)).insert _ (by decide)
  dated key t ht := by
    have hrecords : (Session.start (State.initial worn .serializable)).records = worn := rfl
    rw [hrecords, worn, Records.tuple?_insert, Records.tuple?_insert, Records.tuple?_insert] at ht
    split_ifs at ht
    · cases ht
      decide
    · cases ht
      decide
    · cases ht
      decide
    · cases ht
  values _ _ _ := trivial
  mergeable _ hclient := absurd hclient List.not_mem_nil

/-- Others read the key that was looked up, and fail to overwrite it. The transaction that writes it
commits, and the one that writes two worn keys as well is told the first of them. -/
theorem undisturbed_reader_commits_and_worn_key_is_named :
    let j : Key := ⟨[106]⟩
    let k : Key := ⟨[107]⟩
    let l : Key := ⟨[108]⟩
    let calls : List Call := [.begin .serializable, .ask 0 (.lookup l), .begin .snapshot,
      .ask 1 (.lookup l), .ask 1 (.lookup k), .ask 1 (.write ⟨[109]⟩ (.insert [])), .commit 1,
      .begin .serializable, .ask 2 (.write l .delete), .ask 2 (.write k (.insert [])), .commit 2,
      .begin .repeatableRead, .ask 3 (.lookup l), .ask 3 (.write l (.update [])),
      .ask 3 (.write k (.insert [])), .ask 3 (.write j .delete), .ask 0 (.write l (.insert []))]
    let s := (Session.start (State.initial worn .serializable)).run Database.standard calls
    s.commits.map (·.1) = [1] ∧
      (∃ ts, s.commitAnswer Database.standard 0 = some (.ok (.committed ts))) ∧
      s.commitAnswer Database.standard 3 =
        some (.ok (.aborted (.conflict (.exhausted j)))) := by
  intro j k l calls s
  have hfree : ∀ t ∈ [0, 3],
      (Session.start (State.initial worn .serializable)).Undisturbed Database.standard t calls := by
    intro t ht part n hpart hne key hkey
    have hcall : .commit n ∈ calls := hpart.subset (List.mem_append_right part (by simp))
    have hn : n ∈ [1, 2] := by simpa [calls] using hcall
    have hall : ∀ t ∈ [0, 3], ∀ part ∈ calls.inits, ∀ n ∈ [1, 2], part ++ [.commit n] ∈ calls.inits →
        ∀ key ∈ ((Session.start (State.initial worn .serializable)).run Database.standard
          part).lookedUp t,
        ¬ ((Session.start (State.initial worn .serializable)).run Database.standard
          part).CommitsWrite Database.standard n key := by
      decide +kernel
    exact hall t ht part ((List.mem_inits _ _).mpr ((List.prefix_append _ _).trans hpart)) n hn
      ((List.mem_inits _ _).mpr hpart) key hkey
  obtain ⟨first, hfirst, hactive⟩ :=
    Session.client_of_active (show s.active 0 = true by decide +kernel)
  obtain ⟨last, hlast, hactive'⟩ :=
    Session.client_of_active (show s.active 3 = true by decide +kernel)
  have hkeys : s.clients[0]?.map (·.txn.writes.keys) = some [l] := by decide +kernel
  have hkeys' : s.clients[3]?.map (·.txn.writes.keys) = some [l, k, j] := by decide +kernel
  rw [hfirst, Option.map_some, Option.some.injEq] at hkeys
  rw [hlast, Option.map_some, Option.some.injEq] at hkeys'
  have hdb : Database.standard.InMemory := rfl
  have hclosed : Database.standard.merge.Closed fun _ => True := MergeOperator.closed_replace
  obtain ⟨-, hcommits⟩ := undisturbed_transaction_commits_unless_timestamps_are_exhausted hdb
    hclosed stamped_worn hfirst hactive (hfree 0 (by simp))
  obtain ⟨hexhausted, -⟩ := undisturbed_transaction_commits_unless_timestamps_are_exhausted hdb
    hclosed stamped_worn hlast hactive' (hfree 3 (by simp))
  refine ⟨by decide +kernel, hcommits.mpr ?_, (hexhausted j).mpr ⟨?_, ?_, ?_⟩⟩
  · rw [hkeys]
    decide +kernel
  · rw [hkeys']
    decide
  · decide +kernel
  · rw [hkeys']
    decide +kernel

end StampStore
