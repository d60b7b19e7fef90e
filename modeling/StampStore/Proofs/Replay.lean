-- Replaying a history: each transaction runs from its begin to its commit before
-- the next one begins. Nothing changes while it runs, so it is told what its
-- history says, and it commits no later than it did.
import StampStore.Proofs.Histories
import StampStore.Proofs.Runs

namespace StampStore

variable {db : Database Records} {s s' : Session} {n : Nat}

/-! ## One request -/

/-- What a request leaves of a client that has buffered no removal. -/
structure Client.Asked (merge : MergeOperator) (records : Records) (client : Client)
    (request : Request) (next : Client) : Prop where
  active : next.txn.isActive = true
  isolation : next.txn.isolation = client.txn.isolation
  commitWts : next.txn.commitWts = client.txn.commitWts
  writes : next.txn.writes = client.txn.writes.after merge request
  log : next.log =
    client.log ++ [⟨request, client.txn.writes.answer merge records.value? request⟩]
  kept : ∀ entry ∈ client.txn.reads.entries, entry ∈ next.txn.reads.entries
  noted : ∀ entry ∈ next.txn.reads.entries, entry ∈ client.txn.reads.entries ∨
    (request = .lookup entry.key ∧ entry.tuple.stamp = records.stampAt entry.key)
  seen : ∀ key, request = .lookup key → client.txn.asksStorage key = true →
    ∀ t value, records.tuple? key = some t →
      client.txn.writes.view merge key (records.value? key) = .ok value →
      ⟨key, t⟩ ∈ next.txn.reads.entries
  found : next.missed = false → client.missed = false ∧
    ∀ key, request = .lookup key → client.txn.asksStorage key = true →
      KeyMap.contains records key = true

theorem Client.asked_lookup {merge : MergeOperator} {records : Records} {client : Client}
    {key : Key} {after : Transaction} (hactive : client.txn.isActive = true)
    (h : client.txn.Looked merge records key after) :
    client.Asked merge records (.lookup key)
      ⟨after,
        client.log ++ [⟨.lookup key,
          .found (client.txn.writes.view merge key (records.value? key))⟩],
        client.missed || (client.txn.asksStorage key && !KeyMap.contains records key)⟩ := by
  obtain ⟨hstatus, hiso, hwrites, hkept⟩ := h.spec
  refine ⟨?_, hiso, ?_, hwrites, rfl, hkept, ?_, ?_, ?_⟩
  · unfold Transaction.isActive at hactive ⊢
    rw [hstatus]
    exact hactive
  · rcases h.1 with rfl | ⟨t, rfl, -⟩ <;> rfl
  · intro entry hentry
    rcases h.1 with rfl | ⟨t, rfl, ht⟩
    · exact Or.inl hentry
    · rcases List.mem_append.mp hentry with hentry | hentry
      · exact Or.inl hentry
      · rw [List.mem_singleton] at hentry
        subst hentry
        exact Or.inr ⟨rfl, ht⟩
  · rintro k hk hasks t value ht hview
    cases hk
    simp only [h.2 hasks t value ht hview]
    exact List.mem_append_right _ (List.mem_singleton.mpr rfl)
  · intro hmissed
    rw [Bool.or_eq_false_iff] at hmissed
    refine ⟨hmissed.1, ?_⟩
    rintro k hk hasks
    cases hk
    simpa [hasks] using hmissed.2

theorem Session.Step.asked {request : Request} (h : Session.Step db s (.ask n request) s')
    {client : Client} (hclient : s.clients[n]? = some client)
    (hactive : client.txn.isActive = true)
    (hkeep : ∀ entry ∈ client.txn.writes.entries, entry.op ≠ .delete) :
    ∃ next, s' = { s with clients := s.clients.set n next } ∧
      client.Asked db.merge s.records request next := by
  cases h with
  | idle hcall hidle =>
    cases hcall
    rw [active_of_client hclient, hactive] at hidle
    cases hidle
  | looked hclient' _ hlooked =>
    rw [hclient] at hclient'
    cases hclient'
    exact ⟨_, rfl, Client.asked_lookup hactive hlooked⟩
  | @refused _ _ key message failure hclient' _ hwrite =>
    rw [hclient] at hclient'
    cases hclient'
    rw [write_eq_receive hactive hkeep] at hwrite
    refine ⟨_, rfl, hactive, rfl, rfl, ?_, ?_, fun _ he => he, fun _ he => Or.inl he, ?_, ?_⟩
    all_goals
      cases hreceive : client.txn.writes.receive db.merge key message with
      | ok writes =>
        rw [hreceive] at hwrite
        cases hwrite
      | error e =>
        rw [hreceive] at hwrite
        cases hwrite
        simp [WriteBuffer.after, WriteBuffer.answer, hreceive, Except.map]
  | @wrote _ _ key message txn hclient' _ hwrite =>
    rw [hclient] at hclient'
    cases hclient'
    rw [write_eq_receive hactive hkeep] at hwrite
    cases hreceive : client.txn.writes.receive db.merge key message with
    | error e =>
      rw [hreceive] at hwrite
      cases hwrite
    | ok writes =>
      rw [hreceive] at hwrite
      cases hwrite
      refine ⟨_, rfl, hactive, rfl, rfl, ?_, ?_, fun _ he => he, fun _ he => Or.inl he, ?_, ?_⟩
      all_goals
        simp [WriteBuffer.after, WriteBuffer.answer, hreceive, Except.map]

/-! ## One commit -/

section OneCommit

variable {app : MergeOperator} {good : Bytes → Prop} {txn decided : Transaction}
  {records after : Records} {held : LockTable} {answer : Except Error Outcome} {key : Key}

/-- Every stored value is good. -/
def Records.Good (good : Bytes → Prop) (records : Records) : Prop :=
  ∀ key value, records.value? key = some value → good value

theorem WriteBuffer.find?_of_mem {buffer : WriteBuffer} {entry : WriteEntry}
    (h : entry ∈ buffer.entries) : buffer.find? entry.key = some entry := by
  have hnodup := buffer.distinct
  unfold WriteBuffer.find?
  generalize buffer.entries = entries at h hnodup
  induction entries with
  | nil => cases h
  | cons first entries ih =>
    rw [List.map_cons, List.nodup_cons] at hnodup
    by_cases hkey : first.key = entry.key
    · rcases List.mem_cons.mp h with rfl | h
      · simp
      · exact absurd (List.mem_map_of_mem h) (hkey ▸ hnodup.1)
    · rw [List.find?_cons_of_neg (by simpa using hkey)]
      rcases List.mem_cons.mp h with rfl | h
      · exact absurd rfl hkey
      · exact ih h hnodup.2

/-- A commit that goes through leaves what the buffer makes of the values. -/
theorem value?_committed {c : Timestamp}
    (h : CommitRun app txn records held (.ok (.committed c)) decided after) (key : Key) :
    after.value? key = txn.writes.onto app records.value? key := by
  obtain ⟨ts, -, rfl, -, hinst, -⟩ := h.committed
  rw [Transaction.readyAt_writes] at hinst
  by_cases hkey : key ∈ txn.writes.keys
  · obtain ⟨entry, hentry, rfl⟩ := List.mem_map.mp hkey
    obtain ⟨value, heffect, htuple⟩ := hinst.written entry (WriteBuffer.mem_sorted.mpr hentry)
    rw [value?_checked] at heffect
    unfold WriteBuffer.onto WriteBuffer.view
    rw [WriteBuffer.find?_of_mem hentry]
    simp only [heffect]
    rw [Records.value?, htuple]
    cases value <;> simp
  · rw [onto_of_not_mem hkey, Records.value?, h.kept hkey, ← Records.value?, value?_checked]

/-- Mergeable writes can be merged into good values. -/
theorem merges_of_mergeable (hclosed : app.Closed good) (hwrites : txn.writes.Mergeable good)
    (hrecords : records.Good good) :
    ∀ entry ∈ txn.writes.entries,
      ∃ value, entry.effect app (records.value? entry.key) = .ok value := by
  intro entry hentry
  obtain ⟨value, hok, -⟩ :=
    effect_of_mergeable hclosed (hwrites entry hentry) (hrecords entry.key)
  exact ⟨value, hok⟩

/-- A mergeable buffer over good values is never stopped on the way. -/
theorem outcome_of_mergeable (hclosed : app.Closed good) (hwrites : txn.writes.Mergeable good)
    (hrecords : records.Good good) (h : CommitRun app txn records held answer decided after) :
    ∃ outcome, answer = .ok outcome := by
  cases h with
  | exhausted => exact ⟨_, rfl⟩
  | refused => exact ⟨_, rfl⟩
  | installed => exact ⟨_, rfl⟩
  | stopped _ _ hentry heffect =>
    rw [Transaction.readyAt_writes] at hentry
    obtain ⟨value, hok⟩ := merges_of_mergeable hclosed hwrites hrecords _
      (WriteBuffer.mem_sorted.mp (List.mem_of_getElem? hentry))
    rw [hok] at heffect
    cases heffect

theorem good_committed (hclosed : app.Closed good) (hwrites : txn.writes.Mergeable good)
    (hrecords : records.Good good) {c : Timestamp}
    (h : CommitRun app txn records held (.ok (.committed c)) decided after) :
    after.Good good := by
  intro key value hvalue
  rw [value?_committed h] at hvalue
  obtain ⟨shown, hshown, hgood⟩ := view_of_mergeable hclosed hwrites key (hrecords key)
  unfold WriteBuffer.onto at hvalue
  simp only [hshown] at hvalue
  exact hgood value hvalue

/-- A key that is written has the commit time as its stamp. -/
theorem stampAt_committed_written (hwrites : txn.writes.Good good) {c : Timestamp}
    (h : CommitRun app txn records held (.ok (.committed c)) decided after)
    (hkey : key ∈ txn.writes.keys) : after.stampAt key = Stamp.committedAt c := by
  obtain ⟨entry, hentry, rfl⟩ := List.mem_map.mp hkey
  obtain ⟨v, htuple⟩ := h.written hentry (hwrites entry hentry).1
  rw [Records.stampAt_of_tuple? htuple, Tuple.stamp_make]

/-- A key that was checked may have its read time raised, if it was read. -/
theorem stampAt_checked (txn : Transaction) (records : Records) (held : LockTable) (key : Key) :
    (txn.checked records held).stampAt key = records.stampAt key ∨
      ((∃ entry ∈ txn.reads.entries, entry.key = key) ∧
        (txn.checked records held).stampAt key =
          (records.stampAt key).raiseRts txn.validationTime) := by
  rcases tuple?_checked_or txn records held key with hsame | ⟨hread, hraised⟩
  · left
    rw [Records.stampAt, Records.stamp?, hsame]
    rfl
  · cases ht : records.tuple? key with
    | none =>
      left
      rw [ht] at hraised
      rw [Records.stampAt_of_absent hraised, Records.stampAt_of_absent ht]
    | some t =>
      rw [ht, Option.map_some] at hraised
      refine Or.inr ⟨hread, ?_⟩
      rw [Records.stampAt_of_tuple? hraised, Records.stampAt_of_tuple? ht]
      exact Tuple.stamp_setStamp t _

theorem stampAt_committed_kept {c : Timestamp}
    (h : CommitRun app txn records held (.ok (.committed c)) decided after)
    (hkey : key ∉ txn.writes.keys) :
    after.stampAt key = (decided.checked records held).stampAt key := by
  rw [Records.stampAt, Records.stamp?, h.kept hkey]
  rfl

/-- A serializable transaction commits at the time its reads are checked at. -/
theorem validationTime_serializable (hlevel : txn.isolation = .serializable) {c : Timestamp}
    (h : CommitRun app txn records held (.ok (.committed c)) decided after) :
    decided.validationTime = c := by
  obtain ⟨ts, -, rfl, -, -, hc⟩ := h.committed
  have htime : (txn.readyAt ts).validationTime = ts :=
    Transaction.validationTime_of_ne_snapshot (by simp [hlevel]) ts
  rw [htime, ite_self] at hc
  rw [htime, hc]

/-- A transaction whose reads are all still current commits, at the latest at a time that their
read times have not passed and that those under its written keys have not reached. -/
theorem commits_of_current (hclosed : app.Closed good) (hsound : records.Sound)
    (hrecords : records.Good good) (hwrites : txn.writes.Good good)
    (hlevel : txn.isolation = .serializable) (hzero : txn.commitWts = 0)
    (hholder : ∀ key, held.holder? key = if key ∈ txn.writes.keys then some txn.id else none)
    (h : CommitRun app txn records held answer decided after) {bound : Timestamp}
    (hcurrent : ∀ entry ∈ txn.reads.entries, entry.tuple.stamp = records.stampAt entry.key ∧
      (records.stampAt entry.key).rts ≤ bound)
    (hfree : ∀ key ∈ txn.writes.keys, (records.stampAt key).rts < bound) :
    ∃ c, answer = .ok (.committed c) ∧ c ≤ bound := by
  have hstart : txn.ready.commitWts ≤ bound := by
    rw [Transaction.commitWts_ready, hlevel, hzero]
    refine max_le (Transaction.maxWts_le ?_) (Timestamp.zero_le bound)
    intro entry hentry
    obtain ⟨hstamp, hle⟩ := hcurrent entry hentry
    rw [hstamp]
    exact le_trans (wts_stampAt_le_rts hsound entry.key) hle
  have hkeys : ∀ key ∈ txn.ready.writes.keys, (records.stampAt key).rts < bound := by
    intro key hkey
    rw [Transaction.ready_writes] at hkey
    exact hfree key (WriteBuffer.mem_keys_sorted.mp hkey)
  obtain ⟨time, htime', hle⟩ := Records.timeAfter_bounded hstart hkeys
  have hgood : (txn.readyAt time).firstFault records held = none := by
    apply firstFault_eq_none_of_good
    · rw [Transaction.readyAt_reads]
      exact fun entry hentry => Or.inr (congrArg Stamp.wts (hcurrent entry hentry).1)
    · rw [Transaction.readyAt_id]
      exact hholder
  obtain ⟨c, rfl⟩ :=
    h.committed_of_good htime' hgood
      (merges_of_mergeable hclosed hwrites.mergeable hrecords)
  refine ⟨c, rfl, ?_⟩
  have hvalidation := validationTime_serializable hlevel h
  obtain ⟨ts, htime, rfl, -, -, -⟩ := h.committed
  rw [htime'] at htime
  cases htime
  rw [Transaction.validationTime_of_ne_snapshot (by simp [hlevel])] at hvalidation
  exact hvalidation ▸ hle

end OneCommit

/-! ## One transaction -/

/-- The calls of a client that is alone. -/
def alone (n : Nat) (requests : List Request) : List Call :=
  .begin .serializable :: (requests.map (.ask n) ++ [.commit n])

/-- The calls of several clients, one after another; the first has number `n`. -/
def serially : Nat → List (List Request) → List Call
  | _, [] => []
  | n, requests :: rest => alone n requests ++ serially (n + 1) rest

/-- The request is no removal. -/
def Request.keepsKeys : Request → Prop
  | .lookup _ => True
  | .write _ message => message ≠ .delete

/-- A client whose requests were all made over the same records. -/
structure Client.Lone (merge : MergeOperator) (good : Bytes → Prop) (records : Records)
    (requests : List Request) (client : Client) : Prop where
  active : client.txn.isActive = true
  level : client.txn.isolation = .serializable
  unstamped : client.txn.commitWts = 0
  writes : client.txn.writes = buffered merge requests
  good : client.txn.writes.Good good
  log : client.log = transcript merge records.value? WriteBuffer.empty requests
  reads : ∀ entry ∈ client.txn.reads.entries,
    entry.tuple.stamp = records.stampAt entry.key ∧ Request.lookup entry.key ∈ requests

section OneTransaction

variable {good : Bytes → Prop} {client : Client} {done requests : List Request}

theorem good_after {merge : MergeOperator} (hclosed : merge.Closed good) {buffer : WriteBuffer}
    (hgood : buffer.Good good) {request : Request} (hkeep : request.keepsKeys) :
    (buffer.after merge request).Good good := by
  cases request with
  | lookup key => exact hgood
  | write key message =>
    cases hwrite : buffer.scribe.write merge key message with
    | error failure =>
      simp only [WriteBuffer.after, WriteBuffer.receive, hwrite, Except.map]
      exact hgood
    | ok after =>
      simp only [WriteBuffer.after, WriteBuffer.receive, hwrite, Except.map]
      exact good_write hclosed hwrite hkeep hgood

theorem Client.Lone.asked (h : client.Lone db.merge good s.records done)
    (hclosed : db.merge.Closed good) {request : Request} (hkeep : request.keepsKeys)
    {next : Client} (hasked : client.Asked db.merge s.records request next) :
    next.Lone db.merge good s.records (done ++ [request]) where
  active := hasked.active
  level := hasked.isolation.trans h.level
  unstamped := hasked.commitWts.trans h.unstamped
  writes := by
    rw [hasked.writes, h.writes, buffered, buffered, List.foldl_append]
    rfl
  good := by
    rw [hasked.writes]
    exact good_after hclosed h.good hkeep
  log := by
    rw [hasked.log, h.log, transcript_append, h.writes]
    rfl
  reads := by
    intro entry hentry
    rcases hasked.noted entry hentry with hold | ⟨rfl, hstamp⟩
    · obtain ⟨hstamp, hmem⟩ := h.reads entry hold
      exact ⟨hstamp, List.mem_append_left _ hmem⟩
    · exact ⟨hstamp, List.mem_append_right _ (List.mem_singleton.mpr rfl)⟩

/-- While a client is alone, its requests change nothing but the client. -/
theorem lone_asks (hdb : db.InMemory) (hclosed : db.merge.Closed good) (hq : s.Quiet)
    (hclient : s.clients[n]? = some client) (h : client.Lone db.merge good s.records done)
    (hkeep : ∀ request ∈ requests, request.keepsKeys) :
    ∃ next, s.run db (requests.map (.ask n)) = { s with clients := s.clients.set n next } ∧
      next.Lone db.merge good s.records (done ++ requests) := by
  induction requests generalizing s client done with
  | nil =>
    refine ⟨client, ?_, by rwa [List.append_nil]⟩
    rw [set_same hclient]
    rfl
  | cons request requests ih =>
    have hstep := Session.step_cases hdb hq (.ask n request)
    obtain ⟨next, hnext, hasked⟩ :=
      hstep.asked hclient h.active fun entry hentry => (h.good entry hentry).1
    have hlone := h.asked hclosed (hkeep request List.mem_cons_self) hasked
    have hq' := hstep.quiet hq
    rw [List.map_cons, Session.run_cons]
    rw [hnext] at hq' ⊢
    have hclient' : (s.clients.set n next)[n]? = some next := by
      rw [getElem?_set_some hclient, if_pos rfl]
    obtain ⟨last, hrun, hlast⟩ := ih hq' hclient' hlone
      fun r hr => hkeep r (List.mem_cons_of_mem request hr)
    refine ⟨last, ?_, by rwa [List.append_assoc] at hlast⟩
    rw [hrun, List.set_set]

/-- A client that is alone commits, at the latest at a time that no read time under its keys has
passed and that those under the keys it writes have not reached. -/
theorem lone_commit (hdb : db.InMemory) (hclosed : db.merge.Closed good) (hq : s.Quiet)
    (hrecords : s.records.Good good) (hclient : s.clients[n]? = some client)
    (h : client.Lone db.merge good s.records requests) {bound : Timestamp}
    (hreads : ∀ key, Request.lookup key ∈ requests → (s.records.stampAt key).rts ≤ bound)
    (hwrites : ∀ key ∈ client.txn.writes.keys, (s.records.stampAt key).rts < bound) :
    ∃ ts finished held decided, (s.step db (.commit n)).commits = s.commits ++ [(n, ts)] ∧
      (s.step db (.commit n)).clients = s.clients.set n { client with txn := finished } ∧
      CommitRun db.merge client.txn s.records held (.ok (.committed ts)) decided
        (s.step db (.commit n)).records ∧
      decided.validationTime = ts ∧ decided.reads = client.txn.reads ∧ ts ≤ bound := by
  have hstep := Session.step_cases hdb hq (.commit n)
  generalize s.step db (.commit n) = s' at hstep ⊢
  cases hstep with
  | idle hcall hidle =>
    cases hcall
    rw [Session.active_of_client hclient, h.active] at hidle
    cases hidle
  | @committed _ client' state held answer decided after hclient' _ hholder hrun hshared =>
    rw [hclient] at hclient'
    cases hclient'
    have hcurrent : ∀ entry ∈ client.txn.reads.entries,
        entry.tuple.stamp = s.records.stampAt entry.key ∧
          (s.records.stampAt entry.key).rts ≤ bound := by
      intro entry hentry
      obtain ⟨hstamp, hmem⟩ := h.reads entry hentry
      exact ⟨hstamp, hreads entry.key hmem⟩
    obtain ⟨c, rfl, hle⟩ := commits_of_current hclosed hq.sound hrecords h.good h.level
      h.unstamped hholder hrun hcurrent hwrites
    refine ⟨c, _, held, decided, rfl, rfl, ?_, ?_, ?_, hle⟩
    · unfold Session.records
      rw [hshared]
      exact hrun
    · exact validationTime_serializable h.level hrun
    · obtain ⟨ts, -, rfl, -⟩ := hrun.committed
      exact Transaction.readyAt_reads _ ts

end OneTransaction

/-! ## A whole history -/

/-- From `s` to `s'` a transaction of the past has run again: it has said what it said, and it has
committed no later than it did. -/
structure Session.Replays (merge : MergeOperator) (good : Bytes → Prop) (s : Session) (deed : Deed)
    (s' : Session) : Prop where
  quiet : s'.Quiet
  good : s'.records.Good good
  said : ∃ client, s'.clients = s.clients ++ [client] ∧ client.log = deed.log
  commits : ∃ ts, s'.commits = s.commits ++ [(s.clients.length, ts)]
  values : s'.records.value? = (deed.writes merge).onto merge s.records.value?
  reached : ∀ key, (s'.records.stampAt key).rts ≤ (s.records.stampAt key).rts ∨
    ((s'.records.stampAt key).rts ≤ deed.time ∧ deed.Touches merge key)

/-- The store has not got past the times at which the transaction has touched its keys. -/
def Deed.Fits (merge : MergeOperator) (deed : Deed) (records : Records) : Prop :=
  ∀ key, (deed.Touches merge key → (records.stampAt key).rts ≤ deed.time) ∧
    (key ∈ (deed.writes merge).keys → (records.stampAt key).rts < deed.time)

section WholeHistory

variable {good : Bytes → Prop} {deed : Deed}

theorem begin_spec (hdb : db.InMemory) (hq : s.Quiet) (level : Isolation) :
    ∃ id, (s.step db (.begin level)).clients =
        s.clients ++ [⟨Transaction.start id level, [], false⟩] ∧
      (s.step db (.begin level)).commits = s.commits ∧
      (s.step db (.begin level)).records = s.records := by
  have hstep := Session.step_cases hdb hq (.begin level)
  generalize s.step db (.begin level) = s' at hstep ⊢
  cases hstep with
  | idle hcall => cases hcall
  | @begun _ id state hshared =>
    refine ⟨id, rfl, rfl, ?_⟩
    unfold Session.records
    rw [hshared]

theorem lone_start (merge : MergeOperator) (good : Bytes → Prop) (records : Records)
    (id : TxnId) :
    (Client.mk (Transaction.start id .serializable) [] false).Lone merge good records [] where
  active := rfl
  level := rfl
  unstamped := rfl
  writes := rfl
  good := WriteBuffer.good_empty good
  log := rfl
  reads := fun _ h => absurd h List.not_mem_nil

/-- What the commit of a client that is alone leaves of a read time. -/
theorem rts_lone_commit {client : Client} {requests : List Request} {records after : Records}
    {held : LockTable} {decided : Transaction} {ts bound : Timestamp}
    (h : client.Lone db.merge good records requests)
    (hrun : CommitRun db.merge client.txn records held (.ok (.committed ts)) decided after)
    (htime : decided.validationTime = ts) (hreads : decided.reads = client.txn.reads)
    (hle : ts ≤ bound) (key : Key) :
    (after.stampAt key).rts ≤ (records.stampAt key).rts ∨
      ((after.stampAt key).rts ≤ bound ∧
        (Request.lookup key ∈ requests ∨ key ∈ client.txn.writes.keys)) := by
  by_cases hkey : key ∈ client.txn.writes.keys
  · rw [stampAt_committed_written h.good hrun hkey]
    exact Or.inr ⟨hle, Or.inr hkey⟩
  · rw [stampAt_committed_kept hrun hkey]
    rcases stampAt_checked decided records held key with hsame | ⟨⟨entry, hentry, rfl⟩, hraised⟩
    · rw [hsame]
      exact Or.inl (le_refl _)
    · rw [hreads] at hentry
      rw [hraised, htime]
      rcases le_total ts (records.stampAt entry.key).rts with hpast | hpast
      · left
        exact max_le (le_refl _) hpast
      · right
        exact ⟨max_le (le_trans hpast hle) hle, Or.inl (h.reads entry hentry).2⟩

theorem replay_one (hdb : db.InMemory) (hclosed : db.merge.Closed good) (hq : s.Quiet)
    (hrecords : s.records.Good good)
    (hlog : deed.log = transcript db.merge s.records.value? WriteBuffer.empty deed.requests)
    (hkeep : ∀ request ∈ deed.requests, request.keepsKeys) (hfits : deed.Fits db.merge s.records) :
    s.Replays db.merge good deed (s.run db (alone s.clients.length deed.requests)) := by
  obtain ⟨id, hclients, hcommits, hsame⟩ := begin_spec hdb hq .serializable
  have hq1 := (Session.step_cases hdb hq (.begin .serializable)).quiet hq
  unfold alone
  rw [Session.run_cons, Session.run_append]
  generalize s.step db (.begin .serializable) = s1 at hclients hcommits hsame hq1 ⊢
  have hclient : s1.clients[s.clients.length]? =
      some ⟨Transaction.start id .serializable, [], false⟩ := by
    rw [hclients, List.getElem?_concat_length]
  obtain ⟨asked, hasks, hlone⟩ := lone_asks hdb hclosed hq1 hclient
    (lone_start db.merge good s1.records id) hkeep
  have hq2 := Session.quiet_run hdb hq1 (deed.requests.map (.ask s.clients.length))
  rw [hasks] at hq2 ⊢
  rw [List.nil_append] at hlone
  generalize hs2 : { s1 with clients := s1.clients.set s.clients.length asked } = s2 at hq2 ⊢
  have hrecords2 : s2.records = s.records := by
    rw [← hsame, ← hs2]
    rfl
  have hclient2 : s2.clients[s.clients.length]? = some asked := by
    rw [← hs2]
    exact (getElem?_set_some hclient s.clients.length).trans (if_pos rfl)
  have hlone2 : asked.Lone db.merge good s2.records deed.requests := by
    rw [hrecords2, ← hsame]
    exact hlone
  have hwrites : asked.txn.writes = deed.writes db.merge := hlone2.writes
  have hlook : ∀ key, Request.lookup key ∈ deed.requests →
      (s2.records.stampAt key).rts ≤ deed.time := by
    intro key hkey
    rw [hrecords2]
    exact (hfits key).1 (Or.inl hkey)
  have hfree : ∀ key ∈ asked.txn.writes.keys, (s2.records.stampAt key).rts < deed.time := by
    intro key hkey
    rw [hrecords2]
    exact (hfits key).2 (hwrites ▸ hkey)
  rw [← hrecords2] at hrecords
  obtain ⟨ts, finished, held, decided, hcommits', hclients', hrun, htime, hreads, hle⟩ :=
    lone_commit hdb hclosed hq2 hrecords hclient2 hlone2 hlook hfree
  have hq3 := (Session.step_cases hdb hq2 (.commit s.clients.length)).quiet hq2
  rw [Session.run_cons]
  refine ⟨hq3, good_committed hclosed hlone2.good.mergeable hrecords hrun, ?_, ?_, ?_, ?_⟩
  · refine ⟨{ asked with txn := finished }, ?_, ?_⟩
    · refine hclients'.trans ?_
      rw [← hs2, List.set_set, hclients, List.set_append_right _ _ (le_refl _), Nat.sub_self]
      rfl
    · rw [hlog, ← hrecords2]
      exact hlone2.log
  · refine ⟨ts, hcommits'.trans ?_⟩
    rw [← hs2, hcommits]
  · funext key
    refine (value?_committed hrun key).trans ?_
    rw [hwrites, hrecords2]
  · intro key
    rw [← hrecords2]
    rcases rts_lone_commit hlone2 hrun htime hreads hle key with hkept | ⟨hnew, htouched⟩
    · exact Or.inl hkept
    · rw [hwrites] at htouched
      exact Or.inr ⟨hnew, htouched⟩

/-- An ordered past in which a transaction comes strictly after all earlier ones that touch a key
it writes. -/
structure Serial (merge : MergeOperator) (past : List Deed) : Prop where
  ordered : Ordered past
  strict : past.Pairwise fun a b =>
    ∀ key ∈ (b.writes merge).keys, a.Touches merge key → a.time < b.time
  keeps : ∀ deed ∈ past, ∀ request ∈ deed.requests, request.keepsKeys

/-- A past that is explained by what is stored runs again as it was. -/
theorem replay_all (hdb : db.InMemory) (hclosed : db.merge.Closed good) (hq : s.Quiet)
    (hrecords : s.records.Good good) {past : List Deed} (hserial : Serial db.merge past)
    (hexplained : Explained db.merge s.records.value? past)
    (hfits : ∀ deed ∈ past, deed.Fits db.merge s.records) :
    (s.run db (serially s.clients.length (past.map (·.requests)))).clients.map (·.log) =
        s.clients.map (·.log) ++ past.map (·.log) ∧
      (s.run db (serially s.clients.length (past.map (·.requests)))).commits.map (·.1) =
        s.commits.map (·.1) ++ List.range' s.clients.length past.length ∧
      (s.run db (serially s.clients.length (past.map (·.requests)))).records.value? =
        valuesAfter db.merge s.records.value? past := by
  induction past generalizing s with
  | nil => exact ⟨by simp [serially, Session.run], by simp [serially, Session.run], rfl⟩
  | cons deed past ih =>
    obtain ⟨hlog, hrest⟩ := hexplained
    have hfirst := replay_one hdb hclosed hq hrecords hlog
      (hserial.keeps deed List.mem_cons_self) (hfits deed List.mem_cons_self)
    rw [List.map_cons, serially, Session.run_append]
    generalize s.run db (alone s.clients.length deed.requests) = s' at hfirst ⊢
    obtain ⟨client, hclients, hsaid⟩ := hfirst.said
    obtain ⟨ts, hcommits⟩ := hfirst.commits
    have hlength : s'.clients.length = s.clients.length + 1 := by
      rw [hclients, List.length_append, List.length_singleton]
    have hserial' : Serial db.merge past :=
      ⟨(List.pairwise_cons.mp hserial.ordered).2, (List.pairwise_cons.mp hserial.strict).2,
        fun d hd => hserial.keeps d (List.mem_cons_of_mem deed hd)⟩
    have hexplained' : Explained db.merge s'.records.value? past := by
      rw [hfirst.values]
      exact hrest
    have hfits' : ∀ d ∈ past, d.Fits db.merge s'.records := by
      intro d hd key
      obtain ⟨htouch, hwrite⟩ := hfits d (List.mem_cons_of_mem deed hd) key
      rcases hfirst.reached key with hle | ⟨hle, htouched⟩
      · exact ⟨fun h => le_trans hle (htouch h), fun h => lt_of_le_of_lt hle (hwrite h)⟩
      · refine ⟨fun _ => le_trans hle ?_, fun h => lt_of_le_of_lt hle ?_⟩
        · exact (List.pairwise_cons.mp hserial.ordered).1 d hd
        · exact (List.pairwise_cons.mp hserial.strict).1 d hd key h htouched
    rw [← hlength]
    obtain ⟨hlogs, hnumbers, hvalues⟩ :=
      ih hfirst.quiet hfirst.good hserial' hexplained' hfits'
    refine ⟨?_, ?_, ?_⟩
    · rw [hlogs, hclients, List.map_append, List.append_assoc, List.map_cons, List.map_nil, hsaid,
        List.singleton_append, List.map_cons]
    · rw [hnumbers, hcommits, hlength, List.map_append, List.append_assoc, List.length_cons,
        List.range'_succ]
      rfl
    · rw [hvalues, hfirst.values]
      rfl

end WholeHistory

end StampStore
