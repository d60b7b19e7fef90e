-- Serializable transactions that remove nothing, in any order of their calls. The
-- committed ones, put in the order of their commit times, are a history that each
-- of them has seen its own part of: what it was told is what it would have been
-- told alone at its place, and the history ends with what is stored.
import StampStore.Proofs.Replay
import Mathlib.Data.List.Induction

namespace StampStore

variable {db : Database Records} {s s' : Session} {call : Call} {merge : MergeOperator}
  {good : Bytes → Prop}

/-! ## The order of commits -/

/-- Commits in the order of their times. Of two commits at one time the one that was called first
comes first. -/
def serialOrder (commits : List (Nat × Timestamp)) : List (Nat × Timestamp) :=
  commits.foldl (fun order c => placeBy Prod.snd c order) []

theorem serialOrder_concat (commits : List (Nat × Timestamp)) (c : Nat × Timestamp) :
    serialOrder (commits ++ [c]) = placeBy Prod.snd c (serialOrder commits) := List.foldl_append

theorem serialOrder_perm (commits : List (Nat × Timestamp)) :
    (serialOrder commits).Perm commits := by
  induction commits using List.reverseRecOn with
  | nil => exact List.Perm.nil
  | append_singleton commits c ih =>
    rw [serialOrder_concat]
    refine List.perm_middle.trans ?_
    rw [List.takeWhile_append_dropWhile]
    exact (ih.cons c).trans (List.perm_append_singleton c commits).symm

theorem serialOrder_sorted (commits : List (Nat × Timestamp)) :
    (serialOrder commits).Pairwise fun c d => c.2 ≤ d.2 := by
  induction commits using List.reverseRecOn with
  | nil => exact List.Pairwise.nil
  | append_singleton commits c ih =>
    rw [serialOrder_concat]
    exact pairwise_placeBy ih ih (fun _ _ h => h) fun _ _ h => le_of_lt h

/-- Commits at one time stay in the order of their calls. -/
theorem serialOrder_stable (commits : List (Nat × Timestamp)) (ts : Timestamp) :
    (serialOrder commits).filter (fun c => decide (c.2 = ts)) =
      commits.filter fun c => decide (c.2 = ts) := by
  induction commits using List.reverseRecOn with
  | nil => rfl
  | append_singleton commits c ih =>
    rw [serialOrder_concat, filter_placeBy (serialOrder_sorted commits), List.filter_append,
      List.filter_append, ih]

theorem mem_serialOrder {commits : List (Nat × Timestamp)} {c : Nat × Timestamp} :
    c ∈ serialOrder commits ↔ c ∈ commits := (serialOrder_perm commits).mem_iff

namespace Session

/-- What client `n` has said and heard. -/
def logOf (s : Session) (n : Nat) : List Exchange :=
  match s.clients[n]? with
  | none => []
  | some client => client.log

/-- What client `n` has asked. -/
def requestsOf (s : Session) (n : Nat) : List Request := (s.logOf n).map (·.request)

/-- The committed transactions in their order. -/
def past (s : Session) : List Deed :=
  (serialOrder s.commits).map fun c => ⟨c.2, s.logOf c.1⟩

theorem past_of_same (hcommits : s'.commits = s.commits)
    (hlogs : ∀ c ∈ s.commits, s'.logOf c.1 = s.logOf c.1) : s'.past = s.past := by
  unfold past
  rw [hcommits]
  apply List.map_congr_left
  intro c hc
  rw [hlogs c (mem_serialOrder.mp hc)]

theorem past_of_commit {n : Nat} {ts : Timestamp} (hcommits : s'.commits = s.commits ++ [(n, ts)])
    (hlogs : ∀ c ∈ s.commits, s'.logOf c.1 = s.logOf c.1) :
    s'.past = place ⟨ts, s'.logOf n⟩ s.past := by
  have hsame : (serialOrder s.commits).map (fun c => (⟨c.2, s'.logOf c.1⟩ : Deed)) = s.past := by
    apply List.map_congr_left
    intro c hc
    rw [hlogs c (mem_serialOrder.mp hc)]
  rw [← hsame, past, hcommits, serialOrder_concat]
  exact map_placeBy fun _ => rfl

/-- A client that has committed says nothing any more. -/
theorem Step.logOf (h : Step db s call s') (ho : s.Orderly) {c : Nat × Timestamp}
    (hc : c ∈ s.commits) : s'.logOf c.1 = s.logOf c.1 := by
  obtain ⟨old, hold, hfinished⟩ := ho.finished c hc
  obtain ⟨new, hnew, hlead⟩ := h.keepsClient hold
  unfold Session.logOf
  rw [hold, hnew, hlead.finished hfinished]

end Session

/-! ## What a client has seen so far -/

namespace Client

/-- What the client has asked. -/
def requests (client : Client) : List Request := client.log.map (·.request)

/-- `seen` are the stored versions that the client has been told of. Over any values that agree
with them it would have been told the same. Each of them is the value of its key in the history at
every time that it is known to be readable at. -/
structure Reads (merge : MergeOperator) (past : List Deed) (records : Records) (client : Client)
    (seen : List ReadEntry) : Prop where
  noted : ∀ entry ∈ seen, entry ∈ client.txn.reads.entries
  said : ∀ V : Values, (∀ entry ∈ seen, V entry.key = some entry.tuple.value) →
    client.log = transcript merge V WriteBuffer.empty client.requests
  covered : ∀ key, Request.lookup key ∈ client.requests →
    key ∈ client.txn.writes.keys ∨ ∃ entry ∈ seen, entry.key = key
  readable : ∀ entry ∈ seen, ∀ c, entry.tuple.stamp.wts ≤ c → c ≤ entry.tuple.stamp.rts →
    valuesAt merge past c entry.key = some entry.tuple.value
  stored : ∀ entry ∈ seen, entry.tuple.WellFormed ∧
    ∃ t, records.tuple? entry.key = some t ∧ entry.tuple.LeadsTo t

/-- What holds of a client while its transaction is active. -/
structure Tracked (merge : MergeOperator) (good : Bytes → Prop) (past : List Deed)
    (records : Records) (client : Client) : Prop where
  level : client.txn.isolation = .serializable
  writes : client.txn.writes = buffered merge client.requests
  good : client.txn.writes.Good good
  keeps : ∀ request ∈ client.requests, request.keepsKeys
  reads : client.missed = false → ∃ seen, client.Reads merge past records seen

variable {client next : Client} {past past' : List Deed} {records records' : Records}

/-- What a client has seen stays true when versions lead on and the history changes only past the
stored read times. -/
theorem Reads.mono {seen : List ReadEntry} (h : client.Reads merge past records seen)
    (hsound : records.Sound)
    (hvalues : ∀ key c, c ≤ (records.stampAt key).rts →
      valuesAt merge past' c key = valuesAt merge past c key)
    (hleads : ∀ key, Records.LeadsTo key records records') :
    client.Reads merge past' records' seen where
  noted := h.noted
  said := h.said
  covered := h.covered
  readable := by
    intro entry hentry c hwts hrts
    obtain ⟨-, t, ht, hlead⟩ := h.stored entry hentry
    rw [hvalues]
    · exact h.readable entry hentry c hwts hrts
    · rw [Records.stampAt_of_tuple? ht]
      exact le_trans hrts (hlead.rts_le (hsound.wellFormed ht))
  stored := by
    intro entry hentry
    obtain ⟨hformed, t, ht, hlead⟩ := h.stored entry hentry
    obtain ⟨t', ht', hlead'⟩ := hleads entry.key t ht
    exact ⟨hformed, t', ht', hlead.trans hlead' (hsound.wellFormed ht)⟩

theorem Tracked.mono (h : client.Tracked merge good past records) (hsound : records.Sound)
    (hvalues : ∀ key c, c ≤ (records.stampAt key).rts →
      valuesAt merge past' c key = valuesAt merge past c key)
    (hleads : ∀ key, Records.LeadsTo key records records') :
    client.Tracked merge good past' records' where
  level := h.level
  writes := h.writes
  good := h.good
  keeps := h.keeps
  reads := by
    intro hfound
    obtain ⟨seen, hseen⟩ := h.reads hfound
    exact ⟨seen, hseen.mono hsound hvalues hleads⟩

theorem tracked_start (merge : MergeOperator) (good : Bytes → Prop) (past : List Deed)
    (records : Records) (id : TxnId) :
    (Client.mk (Transaction.start id .serializable) [] false).Tracked merge good past records where
  level := rfl
  writes := rfl
  good := WriteBuffer.good_empty good
  keeps := fun _ h => absurd h List.not_mem_nil
  reads := fun _ => ⟨[], fun _ h => absurd h List.not_mem_nil, fun _ _ => rfl,
    fun _ h => absurd h List.not_mem_nil, fun _ h => absurd h List.not_mem_nil,
    fun _ h => absurd h List.not_mem_nil⟩

section OneRequest

variable {request : Request}

theorem requests_asked (hasked : client.Asked merge records request next) :
    next.requests = client.requests ++ [request] := by
  unfold requests
  rw [hasked.log, List.map_append]
  rfl

theorem mem_requests_asked (hasked : client.Asked merge records request next) {r : Request}
    (h : r ∈ next.requests) : r ∈ client.requests ∨ r = request := by
  rw [requests_asked hasked] at h
  rcases List.mem_append.mp h with h | h
  · exact Or.inl h
  · exact Or.inr (List.mem_singleton.mp h)

/-- What was said is still explained when the new request is answered as it was. -/
theorem said_asked (hwrites : client.txn.writes = buffered merge client.requests)
    (hasked : client.Asked merge records request next) {V : Values}
    (hsaid : client.log = transcript merge V WriteBuffer.empty client.requests)
    (hanswer : client.txn.writes.answer merge records.value? request =
      client.txn.writes.answer merge V request) :
    next.log = transcript merge V WriteBuffer.empty next.requests := by
  rw [requests_asked hasked, transcript_append, ← hsaid, hasked.log, hanswer, hwrites]
  rfl

/-- What was covered before a request is covered after it. -/
theorem Reads.covered_asked {seen : List ReadEntry} (h : client.Reads merge past records seen)
    (hasked : client.Asked merge records request next) {key : Key}
    (hkey : Request.lookup key ∈ client.requests) :
    key ∈ next.txn.writes.keys ∨ ∃ entry ∈ seen, entry.key = key := by
  rcases h.covered key hkey with hmem | hentry
  · left
    rw [hasked.writes]
    exact mem_keys_after hmem request
  · exact Or.inr hentry

/-- A request that is answered over all values alike adds nothing to what was seen. -/
theorem Reads.unseen {seen : List ReadEntry} (h : client.Reads merge past records seen)
    (hwrites : client.txn.writes = buffered merge client.requests)
    (hasked : client.Asked merge records request next)
    (hsame : ∀ V : Values, client.txn.writes.answer merge records.value? request =
      client.txn.writes.answer merge V request)
    (hown : ∀ key, request = .lookup key → key ∈ next.txn.writes.keys) :
    next.Reads merge past records seen where
  noted := fun entry hentry => hasked.kept entry (h.noted entry hentry)
  said := fun V hV => said_asked hwrites hasked (h.said V hV) (hsame V)
  covered := by
    intro key hkey
    rcases mem_requests_asked hasked hkey with hold | hnew
    · exact h.covered_asked hasked hold
    · exact Or.inl (hown key hnew.symm)
  readable := h.readable
  stored := h.stored

/-- A lookup that finds its key in storage has seen one more version. -/
theorem Reads.seen {key : Key} {t : Tuple} {seen : List ReadEntry}
    (h : client.Reads merge past records seen)
    (hwrites : client.txn.writes = buffered merge client.requests)
    (hasked : client.Asked merge records (.lookup key) next) (hsound : records.Sound)
    (hcurrent : ∀ c, (records.stampAt key).wts ≤ c →
      valuesAt merge past c key = records.value? key)
    (ht : records.tuple? key = some t) (hnote : ⟨key, t⟩ ∈ next.txn.reads.entries) :
    next.Reads merge past records (seen ++ [⟨key, t⟩]) := by
  have hvalue : records.value? key = some t.value := by rw [Records.value?, ht]; rfl
  have hcases : ∀ {entry : ReadEntry}, entry ∈ seen ++ [⟨key, t⟩] →
      entry ∈ seen ∨ entry = ⟨key, t⟩ := by
    intro entry hentry
    rcases List.mem_append.mp hentry with hentry | hentry
    · exact Or.inl hentry
    · exact Or.inr (List.mem_singleton.mp hentry)
  have hlast : (⟨key, t⟩ : ReadEntry) ∈ seen ++ [⟨key, t⟩] :=
    List.mem_append_right _ (List.mem_singleton.mpr rfl)
  refine ⟨?_, ?_, ?_, ?_, ?_⟩
  · intro entry hentry
    rcases hcases hentry with hold | rfl
    · exact hasked.kept entry (h.noted entry hold)
    · exact hnote
  · intro V hV
    apply said_asked hwrites hasked (h.said V fun e he => hV e (List.mem_append_left _ he))
    have hsame : V key = some t.value := hV _ hlast
    rw [WriteBuffer.answer, WriteBuffer.answer, hsame, hvalue]
  · intro k hk
    rcases mem_requests_asked hasked hk with hold | hnew
    · rcases h.covered_asked hasked hold with hmem | ⟨entry, hentry, heq⟩
      · exact Or.inl hmem
      · exact Or.inr ⟨entry, List.mem_append_left _ hentry, heq⟩
    · cases hnew
      exact Or.inr ⟨_, hlast, rfl⟩
  · intro entry hentry c hwts hrts
    rcases hcases hentry with hold | rfl
    · exact h.readable entry hold c hwts hrts
    · rw [hcurrent, hvalue]
      rw [Records.stampAt_of_tuple? ht]
      exact hwts
  · intro entry hentry
    rcases hcases hentry with hold | rfl
    · exact h.stored entry hold
    · exact ⟨hsound.wellFormed ht, t, ht, t.leadsTo_refl⟩

/-- A request that only looks at what is stored keeps the client tracked. -/
theorem Tracked.asked (h : client.Tracked merge good past records) (hclosed : merge.Closed good)
    (hrecords : records.Good good) (hsound : records.Sound)
    (hcurrent : ∀ key c, (records.stampAt key).wts ≤ c →
      valuesAt merge past c key = records.value? key)
    (hkeep : request.keepsKeys) (hasked : client.Asked merge records request next) :
    next.Tracked merge good past records := by
  refine ⟨hasked.isolation.trans h.level, ?_, ?_, ?_, ?_⟩
  · rw [hasked.writes, h.writes, requests_asked hasked, buffered, buffered, List.foldl_append]
    rfl
  · rw [hasked.writes]
    exact good_after hclosed h.good hkeep
  · intro r hr
    rcases mem_requests_asked hasked hr with hold | rfl
    · exact h.keeps r hold
    · exact hkeep
  · intro hmissed
    obtain ⟨hbefore, hfound⟩ := hasked.found hmissed
    obtain ⟨seen, hseen⟩ := h.reads hbefore
    cases request with
    | write key message => exact ⟨seen, hseen.unseen h.writes hasked (fun _ => rfl) fun _ hk => by cases hk⟩
    | lookup key =>
      cases hasks : client.txn.asksStorage key with
      | false =>
        refine ⟨seen, hseen.unseen h.writes hasked ?_ ?_⟩
        · exact fun V => congrArg Answer.found (view_of_hidden hasks merge _ _)
        · intro k hk
          cases hk
          rw [hasked.writes]
          exact mem_keys_after (mem_keys_of_hidden hasks) _
      | true =>
        -- the stored version is one more that the client has seen
        have hthere := hfound key rfl hasks
        rw [hsound.contains_eq] at hthere
        obtain ⟨t, ht⟩ := Option.isSome_iff_exists.mp hthere
        obtain ⟨shown, hshown, -⟩ :=
          view_of_mergeable hclosed h.good.mergeable key (hrecords key)
        have hnote := hasked.seen key rfl hasks t shown ht hshown
        exact ⟨_, hseen.seen h.writes hasked hsound (hcurrent key) ht hnote⟩

end OneRequest

end Client

/-! ## The invariant -/

/-- The committed transactions are a serial history that explains all that they were told and all
that is stored, and that no read time has fallen behind. -/
structure History (merge : MergeOperator) (good : Bytes → Prop) (past : List Deed)
    (records : Records) : Prop where
  serial : Serial merge past
  explained : Explained merge (fun _ => none) past
  current : ∀ key c, (records.stampAt key).wts ≤ c →
    valuesAt merge past c key = records.value? key
  guarded : ∀ deed ∈ past, ∀ key, deed.Touches merge key →
    deed.time ≤ (records.stampAt key).rts
  positive : ∀ deed ∈ past, ∀ key ∈ (deed.writes merge).keys, 0 < deed.time
  good : records.Good good

/-- Read times that are raised leave the history of a store as it is. -/
theorem History.mono {past : List Deed} {records records' : Records}
    (h : History merge good past records)
    (hvalues : ∀ key, records'.value? key = records.value? key)
    (hwts : ∀ key, (records'.stampAt key).wts = (records.stampAt key).wts)
    (hrts : ∀ key, (records.stampAt key).rts ≤ (records'.stampAt key).rts) :
    History merge good past records' where
  serial := h.serial
  explained := h.explained
  current := by
    intro key c hc
    rw [hwts] at hc
    rw [hvalues]
    exact h.current key c hc
  guarded := fun deed hdeed key htouch => le_trans (h.guarded deed hdeed key htouch) (hrts key)
  positive := h.positive
  good := by
    intro key value hvalue
    rw [hvalues] at hvalue
    exact h.good key value hvalue

/-! ## A commit -/

section OneCommit

variable {past : List Deed} {records after : Records} {held : LockTable} {decided : Transaction}
  {client : Client} {c : Timestamp}

/-- What a transaction is told is what stands at its commit time. -/
theorem History.said (h : History merge good past records)
    (ht : client.Tracked merge good past records) (hfound : client.missed = false)
    (hrun : CommitRun merge client.txn records held (.ok (.committed c)) decided after) :
    client.log = transcript merge (valuesAt merge past c) WriteBuffer.empty client.requests := by
  obtain ⟨seen, hseen⟩ := ht.reads hfound
  apply hseen.said
  intro entry hentry
  obtain ⟨hwts, hgood⟩ := hrun.good (hseen.noted entry hentry)
  rw [validationTime_serializable ht.level hrun] at hwts hgood
  rcases hgood with hcovered | hsame
  · exact hseen.readable entry hentry c hwts hcovered
  · -- the version that was read is still stored, and nothing is written after it
    obtain ⟨hformed, t, htuple, hlead⟩ := hseen.stored entry hentry
    rw [Records.stampAt_of_tuple? htuple] at hsame
    rw [h.current, Records.value?, htuple, Option.map_some, (hlead.same hformed hsame.symm).1]
    rw [Records.stampAt_of_tuple? htuple, ← hsame]
    exact hwts

/-- Nobody who comes later has touched a key that is written. -/
theorem History.untouched (h : History merge good past records)
    (hrun : CommitRun merge client.txn records held (.ok (.committed c)) decided after)
    {key : Key} (hkey : key ∈ client.txn.writes.keys) {d : Deed} (hd : d ∈ past)
    (hlate : c < d.time) : ¬ d.Touches merge key := by
  intro htouch
  have hle := h.guarded d hd key htouch
  exact absurd (lt_of_le_of_lt hle (hrun.rts_lt hkey)) (not_lt.mpr (le_of_lt hlate))

/-- A commit changes the values of the history only past the read times of their keys. -/
theorem History.values_kept (h : History merge good past records)
    (ht : client.Tracked merge good past records)
    (hrun : CommitRun merge client.txn records held (.ok (.committed c)) decided after)
    {key : Key} {time : Timestamp} (hle : time ≤ (records.stampAt key).rts) :
    valuesAt merge (place ⟨c, client.log⟩ past) time key = valuesAt merge past time key := by
  by_cases hkey : key ∈ client.txn.writes.keys
  · exact congrFun (valuesAt_place_of_lt (lt_of_le_of_lt hle (hrun.rts_lt hkey))) key
  · apply valuesAt_place_other h.serial.ordered
    rw [ht.writes] at hkey
    exact hkey

/-- A commit leaves no read time behind its own time under a key that the client has touched. -/
theorem rts_own (ht : client.Tracked merge good past records) (hfound : client.missed = false)
    (hsound : records.Sound) (hafter : after.Sound)
    (hrun : CommitRun merge client.txn records held (.ok (.committed c)) decided after) {key : Key}
    (htouch : Deed.Touches merge ⟨c, client.log⟩ key) : c ≤ (after.stampAt key).rts := by
  by_cases hkey : key ∈ client.txn.writes.keys
  · rw [stampAt_committed_written ht.good hrun hkey]
    exact le_refl c
  · obtain ⟨seen, hseen⟩ := ht.reads hfound
    obtain ⟨entry, hentry, rfl⟩ : ∃ entry ∈ seen, entry.key = key := by
      rcases htouch with hlook | hwrite
      · exact (hseen.covered key hlook).resolve_left hkey
      · exact absurd (ht.writes ▸ hwrite) hkey
    obtain ⟨-, t, htuple, hlead⟩ := hseen.stored entry hentry
    have hext : client.txn.isolation.extendsReads = true := by rw [ht.level]; rfl
    obtain ⟨left, hleft, hlead', hgood⟩ :=
      hrun.guarded hext (hseen.noted entry hentry) hkey htuple
    rw [validationTime_serializable ht.level hrun] at hgood
    rw [Records.stampAt_of_tuple? hleft]
    rcases hgood with hcovered | ⟨-, hraised⟩
    · have hold := hlead.rts_le (hsound.wellFormed htuple)
      exact le_trans hcovered (le_trans hold (hlead'.rts_le (hafter.wellFormed hleft)))
    · exact hraised

/-- After a commit the history still ends with what is stored. -/
theorem History.current_after (h : History merge good past records)
    (hsound : records.Sound) (ht : client.Tracked merge good past records)
    (hrun : CommitRun merge client.txn records held (.ok (.committed c)) decided after)
    {key : Key} {time : Timestamp} (htime : (after.stampAt key).wts ≤ time) :
    valuesAt merge (place ⟨c, client.log⟩ past) time key = after.value? key := by
  have hwrites : Deed.writes merge ⟨c, client.log⟩ = client.txn.writes := ht.writes.symm
  rw [value?_committed hrun]
  by_cases hkey : key ∈ client.txn.writes.keys
  · rw [stampAt_committed_written ht.good hrun hkey] at htime
    rw [valuesAt_place_written h.serial.ordered (fun d hd => h.untouched hrun hkey hd) htime,
      hwrites]
    apply onto_congr
    apply h.current
    exact le_trans (wts_stampAt_le_rts hsound key) (le_of_lt (hrun.rts_lt hkey))
  · rw [onto_of_not_mem hkey, valuesAt_place_other h.serial.ordered (by rwa [hwrites])]
    apply h.current
    rw [stampAt_committed_kept hrun hkey] at htime
    unfold Transaction.checked at htime
    rwa [Records.wts_stampAt_refreshed] at htime

/-- A commit that removes nothing leads on from what was stored. -/
theorem leadsTo_of_good {answer : Except Error Outcome} (hgood : client.txn.writes.Good good)
    (hrun : CommitRun merge client.txn records held answer decided after) (key : Key) :
    Records.LeadsTo key records after := by
  rcases hrun.leadsTo key with hlead | ⟨-, entry, hentry, hop⟩
  · exact hlead
  · exact absurd hop (hgood entry hentry).1

/-- The transaction that commits becomes part of the history. -/
theorem History.commit (h : History merge good past records) (hclosed : merge.Closed good)
    (hsound : records.Sound) (ht : client.Tracked merge good past records)
    (hfound : client.missed = false)
    (hrun : CommitRun merge client.txn records held (.ok (.committed c)) decided after) :
    History merge good (place ⟨c, client.log⟩ past) after := by
  have hafter : after.Sound := hrun.sound hsound
  have hwrites : Deed.writes merge ⟨c, client.log⟩ = client.txn.writes := ht.writes.symm
  refine ⟨⟨ordered_place h.serial.ordered, ?_, ?_⟩, ?_, ?_, ?_, ?_, ?_⟩
  · apply pairwise_placeBy h.serial.ordered h.serial.strict
    · intro d hd _ key hkey htouch
      rw [hwrites] at hkey
      exact lt_of_le_of_lt (h.guarded d hd key htouch) (hrun.rts_lt hkey)
    · exact fun d _ hlate _ _ _ => hlate
  · intro d hd
    rcases mem_place.mp hd with rfl | hd
    · exact ht.keeps
    · exact h.serial.keeps d hd
  · apply explained_place h.serial.ordered h.explained (h.said ht hfound hrun)
    intro d hd hlate key hkey
    rw [hwrites] at hkey
    exact h.untouched hrun hkey hd hlate
  · exact fun key time htime => h.current_after hsound ht hrun htime
  · intro d hd key htouch
    rcases mem_place.mp hd with rfl | hd
    · exact rts_own ht hfound hsound hafter hrun htouch
    · have hrts := rts_stampAt_le hafter (leadsTo_of_good ht.good hrun key)
      exact le_trans (h.guarded d hd key htouch) hrts
  · intro d hd key hkey
    rcases mem_place.mp hd with rfl | hd
    · rw [hwrites] at hkey
      exact lt_of_le_of_lt (Timestamp.zero_le _) (hrun.rts_lt hkey)
    · exact h.positive d hd key hkey
  · exact good_committed hclosed ht.good.mergeable h.good hrun

end OneCommit

end StampStore
