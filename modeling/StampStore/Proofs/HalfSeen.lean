-- Readers that are served while a commit is under way. A reader that commits
-- afterwards has seen the whole commit or nothing of it, unless the commit has
-- raised the read time of a key that it was about to write: until the write, the
-- old version of that key passes for one that is still good at the commit time.
import StampStore.Proofs.Moments
import StampStore.Proofs.Replay

namespace StampStore

/-! ## A reader -/

/-- What a commit installs under a key: its time and the value. The read time may still be raised
afterwards. -/
def Tuple.version (t : Tuple) : Timestamp × Bytes := (t.stamp.wts, t.value)

/-- The version that is stored under a key. -/
def Records.version? (records : Records) (key : Key) : Option (Timestamp × Bytes) :=
  (records.tuple? key).map (·.version)

/-- The lookups of a plan in their order. A plan names for each moment the keys that are looked up
at it. -/
def visits (moments : List (Shared Records)) (plan : List (List Key)) :
    List (Shared Records × Key) :=
  (moments.zip plan).flatMap fun stop => stop.2.map fun key => (stop.1, key)

namespace Transaction

/-- Looks keys up one after another, each at its own moment. -/
def lookAll (merge : MergeOperator) (txn : Transaction) (stops : List (Shared Records × Key)) :
    Transaction :=
  stops.foldl (fun txn stop => (txn.read (Engine.memory merge.tuple) merge stop.2 stop.1).txn) txn

/-- A serializable transaction that has looked up the keys of a plan and written nothing. -/
def reader (merge : MergeOperator) (id : TxnId) (moments : List (Shared Records))
    (plan : List (List Key)) : Transaction :=
  (start id .serializable).lookAll merge (visits moments plan)

/-- All versions that the reader was given for the keys are those that `records` hold. -/
def SawOnly (txn : Transaction) (keys : List Key) (records : Records) : Prop :=
  ∀ entry ∈ txn.reads.entries, entry.key ∈ keys →
    some entry.tuple.version = records.version? entry.key

instance (txn : Transaction) (keys : List Key) (records : Records) :
    Decidable (txn.SawOnly keys records) :=
  inferInstanceAs (Decidable (∀ entry ∈ txn.reads.entries, entry.key ∈ keys →
    some entry.tuple.version = records.version? entry.key))

/-- What a lookup notes; a key that is not found leaves no note. -/
def note? (stop : Shared Records × Key) : Option ReadEntry :=
  (stop.1.stored.tuple? stop.2).map fun t => ⟨stop.2, t⟩

variable {txn : Transaction}

/-- A transaction that has written nothing reads what is stored, and notes it. -/
theorem read_unwritten (merge : MergeOperator) {moment : Shared Records} (h : moment.stored.Sound)
    (hactive : txn.isActive = true) (hwrites : txn.writes = WriteBuffer.empty) (key : Key) :
    (txn.read (Engine.memory merge.tuple) merge key moment).answer =
        .ok (moment.stored.value? key) ∧
      (txn.read (Engine.memory merge.tuple) merge key moment).txn =
        { txn with reads := ⟨txn.reads.entries ++ (note? (moment, key)).toList⟩ } := by
  obtain ⟨records, locks⟩ := moment
  have hfind : txn.writes.find? key = none := by rw [hwrites]; rfl
  unfold read note?
  simp only [hactive, hfind, if_true]
  rw [readStored_memory h]
  cases ht : records.tuple? key with
  | none => simp [Records.value?, ht]
  | some t => simp [Records.value?, ht, withPending, noteRead, ReadLog.push]

theorem lookAll_unwritten (merge : MergeOperator) (hactive : txn.isActive = true)
    (hwrites : txn.writes = WriteBuffer.empty) {stops : List (Shared Records × Key)}
    (h : ∀ stop ∈ stops, stop.1.stored.Sound) :
    txn.lookAll merge stops =
      { txn with reads := ⟨txn.reads.entries ++ stops.filterMap note?⟩ } := by
  induction stops generalizing txn with
  | nil => simp [lookAll]
  | cons stop stops ih =>
    obtain ⟨-, hread⟩ := read_unwritten merge (h stop List.mem_cons_self) hactive hwrites stop.2
    generalize hnext : ({ txn with
      reads := ⟨txn.reads.entries ++ (note? stop).toList⟩ } : Transaction) = next at hread
    have hactive' : next.isActive = true := by
      rw [← hnext]
      exact hactive
    have hwrites' : next.writes = WriteBuffer.empty := by
      rw [← hnext]
      exact hwrites
    unfold lookAll at ih ⊢
    rw [List.foldl_cons, hread, ih hactive' hwrites' fun s hs => h s (List.mem_cons_of_mem stop hs),
      ← hnext]
    cases hnote : note? stop <;> simp [hnote]

end Transaction

/-! ## The stops of a plan -/

theorem mem_of_mem_visits {moments : List (Shared Records)} {plan : List (List Key)}
    {stop : Shared Records × Key} (h : stop ∈ visits moments plan) : stop.1 ∈ moments := by
  unfold visits at h
  obtain ⟨⟨m, keys⟩, hm, hstop⟩ := List.mem_flatMap.mp h
  obtain ⟨key, -, rfl⟩ := List.mem_map.mp hstop
  exact (List.of_mem_zip hm).1

theorem visits_append {xs ys : List (Shared Records)} {plan rest : List (List Key)}
    (h : xs.length = plan.length) :
    visits (xs ++ ys) (plan ++ rest) = visits xs plan ++ visits ys rest := by
  unfold visits
  rw [List.zip_append h, List.flatMap_append]

theorem visits_silent (xs : List (Shared Records)) : visits xs (xs.map fun _ => []) = [] := by
  induction xs with
  | nil => rfl
  | cons m xs ih => exact ih

namespace Transaction

theorem reader_eq (merge : MergeOperator) (id : TxnId) {moments : List (Shared Records)}
    (h : ∀ m ∈ moments, m.stored.Sound) (plan : List (List Key)) :
    reader merge id moments plan =
      { start id .serializable with reads := ⟨(visits moments plan).filterMap note?⟩ } :=
  lookAll_unwritten merge rfl rfl fun _ hstop => h _ (mem_of_mem_visits hstop)

/-- A reader has noted only what was stored at one of the moments. -/
theorem stored_of_mem_reader {merge : MergeOperator} {id : TxnId} {moments : List (Shared Records)}
    (h : ∀ m ∈ moments, m.stored.Sound) {plan : List (List Key)} {entry : ReadEntry}
    (hentry : entry ∈ (reader merge id moments plan).reads.entries) :
    ∃ m ∈ moments, m.stored.tuple? entry.key = some entry.tuple := by
  rw [reader_eq merge id h] at hentry
  obtain ⟨stop, hstop, hnote⟩ := List.mem_filterMap.mp hentry
  unfold note? at hnote
  obtain ⟨t, ht, rfl⟩ := Option.map_eq_some_iff.mp hnote
  exact ⟨stop.1, mem_of_mem_visits hstop, ht⟩

end Transaction

/-- A plan that looks a key up twice: at a moment of its choice, and at the last one. -/
theorem exists_plan_twice {more : List (Shared Records)} {m : Shared Records} (hm : m ∈ more)
    (last : Shared Records) (key : Key) :
    ∃ plan, visits (more ++ [last]) plan = [(m, key), (last, key)] := by
  obtain ⟨xs, ys, rfl⟩ := List.append_of_mem hm
  refine ⟨xs.map (fun _ => []) ++ ([key] :: ys.map fun _ => []) ++ [[key]], ?_⟩
  have hlength : (xs ++ m :: ys).length =
      (xs.map (fun _ => []) ++ ([key] :: ys.map fun _ => [])).length := by simp
  have hmiddle : visits (m :: ys) ([key] :: ys.map fun _ => []) = [(m, key)] :=
    congrArg ((m, key) :: ·) (visits_silent ys)
  rw [visits_append hlength, visits_append (by simp), visits_silent, hmiddle]
  rfl

/-! ## The keys that a commit writes -/

section OneCommit

variable {merge : MergeOperator} {txn : Transaction} {before after : Records} {held : LockTable}
  {c ts : Timestamp} {key : Key}

/-- What a commit makes of a key that was there, and that it writes and does not remove. -/
theorem written_key (hsound : before.Sound)
    (hrun : CommitRun merge txn before held (.ok (.committed c)) (txn.readyAt ts) after)
    (hkeep : ∀ entry ∈ txn.writes.entries, entry.op ≠ .delete)
    (hkey : key ∈ txn.writes.keys) (hthere : before.tuple? key ≠ none) :
    ∃ old new, before.tuple? key = some old ∧ after.tuple? key = some new ∧
      old.stamp.wts ≤ old.stamp.rts ∧ old.stamp.rts < c ∧ new.stamp = Stamp.committedAt c := by
  obtain ⟨old, hold⟩ := Option.ne_none_iff_exists'.mp hthere
  have hlt := hrun.rts_lt hkey
  rw [Records.stampAt_of_tuple? hold] at hlt
  obtain ⟨entry, hentry, rfl⟩ := List.mem_map.mp hkey
  obtain ⟨v, htuple⟩ := hrun.written hentry (hkeep entry hentry)
  exact ⟨old, _, hold, htuple, hsound.wellFormed hold, hlt, Tuple.stamp_make _ v⟩

theorem extendsReads_readyAt (hlevel : txn.isolation = .serializable) (ts : Timestamp) :
    (txn.readyAt ts).isolation.extendsReads = true := by
  rw [Transaction.readyAt_isolation, hlevel]
  rfl

/-- Between the checks and the writes the old version under a key that was read is known to be
readable up to the commit time. -/
theorem raised_before_writes (hlevel : txn.isolation = .serializable)
    (hrun : CommitRun merge txn before held (.ok (.committed c)) (txn.readyAt ts) after)
    {entry : ReadEntry} (hentry : entry ∈ txn.reads.entries) (hlate : entry.tuple.stamp.rts < c) :
    ((txn.readyAt ts).checked before held).tuple? entry.key =
      (before.tuple? entry.key).map (·.raise c) := by
  obtain ⟨-, -, -, hgood, -⟩ := hrun.committed
  have htime := validationTime_serializable hlevel hrun
  have hmine : entry ∈ (txn.readyAt ts).reads.entries := by
    rw [Transaction.readyAt_reads]
    exact hentry
  rw [tuple?_checked_of_read hgood (extendsReads_readyAt hlevel ts) hmine (htime.symm ▸ hlate),
    htime]

/-- On the way of a commit a written key has its old version, whose read time may have been raised
to the commit time if the transaction had read the key itself, or it has its new version. -/
theorem Transaction.Passes.tuple? {records : Records}
    (h : (txn.readyAt ts).Passes merge before held records) (hlevel : txn.isolation = .serializable)
    (hrun : CommitRun merge txn before held (.ok (.committed c)) (txn.readyAt ts) after)
    (key : Key) :
    records.tuple? key = before.tuple? key ∨ records.tuple? key = after.tuple? key ∨
      (records.tuple? key = (before.tuple? key).map (·.raise c) ∧
        ∃ entry ∈ txn.reads.entries, entry.key = key ∧ entry.tuple.stamp.rts < c) := by
  have hraised : ∀ {entries : List ReadEntry}, (∀ entry ∈ entries, entry ∈ txn.reads.entries) →
      (before.refreshed (txn.readyAt ts).validationTime true entries).tuple? key =
          before.tuple? key ∨
        ((before.refreshed (txn.readyAt ts).validationTime true entries).tuple? key =
            (before.tuple? key).map (·.raise c) ∧
          ∃ entry ∈ txn.reads.entries, entry.key = key ∧ entry.tuple.stamp.rts < c) := by
    intro entries hentries
    rw [validationTime_serializable hlevel hrun, Records.tuple?_refreshed]
    split
    · rename_i hread
      obtain ⟨-, entry, hentry, hkey, hlate⟩ := hread
      exact Or.inr ⟨rfl, entry, hentries entry hentry, hkey, hlate⟩
    · exact Or.inl rfl
  have hext := extendsReads_readyAt hlevel ts
  cases h with
  | checking n =>
    rw [hext, Transaction.readyAt_reads]
    rcases hraised fun entry hentry => List.mem_of_mem_take hentry with hold | hnew
    · exact Or.inl hold
    · exact Or.inr (Or.inr hnew)
  | @writing n _ hpart =>
    obtain ⟨time, -, hready, -, hfull, -⟩ := hrun.committed
    have htime : (txn.readyAt ts).commitWts = time := congrArg Transaction.commitWts hready
    rw [← htime] at hfull
    by_cases hkey : key ∈ ((txn.readyAt ts).writes.entries.take n).map (·.key)
    · -- the key has been written already, and as the whole commit writes it
      obtain ⟨entry, hentry, rfl⟩ := List.mem_map.mp hkey
      obtain ⟨value, heffect, htuple⟩ := hpart.written entry hentry
      obtain ⟨value', heffect', htuple'⟩ := hfull.written entry (List.mem_of_mem_take hentry)
      rw [heffect] at heffect'
      cases heffect'
      exact Or.inr (Or.inl (htuple.trans htuple'.symm))
    · rw [hpart.kept key hkey]
      unfold Transaction.checked
      rw [hext, Transaction.readyAt_reads]
      rcases hraised fun entry hentry => (List.takeWhile_sublist _).mem hentry with hold | hnew
      · exact Or.inl hold
      · exact Or.inr (Or.inr hnew)

theorem Transaction.Passes.sound {records : Records}
    (h : (txn.readyAt ts).Passes merge before held records) (hsound : before.Sound) :
    records.Sound := by
  cases h with
  | checking n => exact hsound.refreshed _ _ _
  | writing hinst => exact hinst.sound

/-- A transaction that writes nothing commits if each of its reads is known to be good at the time
of every other. -/
theorem commits_of_covered {records : Records} (hsound : records.Sound)
    (hactive : txn.isActive = true) (hlevel : txn.isolation = .serializable)
    (hwrites : txn.writes = WriteBuffer.empty) (hzero : txn.commitWts = 0)
    (hcovered : ∀ entry ∈ txn.reads.entries, ∀ other ∈ txn.reads.entries,
      other.tuple.stamp.wts ≤ entry.tuple.stamp.rts) :
    ∃ t, (txn.commit (Engine.memory merge.tuple) [] ⟨records, LockTable.empty⟩).answer =
      .ok (.committed t) := by
  have hkeys : txn.ready.writes = WriteBuffer.empty := by
    rw [Transaction.ready_writes, hwrites]
    rfl
  obtain ⟨held, hlock, -, hholder⟩ := LockTable.lockWaiting_free txn.id []
    txn.ready.writes.distinct (fun key _ => (rfl : LockTable.empty.holder? key = none))
  obtain ⟨answer, decided, left, hrun, hcommit⟩ := commit_memory merge hsound hactive hlock
  rw [hcommit]
  have htime : records.timeAfter txn.ready.writes.keys txn.ready.commitWts =
      .ok txn.reads.maxWts := by
    rw [hkeys, Transaction.commitWts_ready, hlevel, hzero]
    exact congrArg Except.ok (max_eq_left (Timestamp.zero_le _))
  have hgood : (txn.readyAt txn.reads.maxWts).firstFault records held = none := by
    apply firstFault_eq_none_of_good
    · rw [Transaction.readyAt_reads,
        Transaction.validationTime_of_ne_snapshot (by simp [hlevel])]
      exact fun entry hentry => Or.inl (Transaction.maxWts_le (hcovered entry hentry))
    · rw [Transaction.readyAt_id]
      exact hholder
  obtain ⟨t, rfl⟩ := hrun.committed_of_good htime hgood (by simp [hwrites, WriteBuffer.empty])
  exact ⟨t, rfl⟩

/-! ## Half-seen commits -/

/-- Whatever a reader looks up at the moments of the commit, if it commits after the commit has
returned it has seen all of what the commit has written, or nothing of it. -/
def Transaction.NeverHalfSeen (merge : MergeOperator) (txn : Transaction) (before : Records) :
    Prop :=
  let after := (txn.commit (Engine.memory merge.tuple) [] ⟨before, LockTable.empty⟩).shared
  ∀ (id : TxnId) (plan : List (List Key)) (t : Timestamp),
    let reader := Transaction.reader merge id (txn.moments merge before) plan
    (reader.commit (Engine.memory merge.tuple) [] after).answer = .ok (.committed t) →
      reader.SawOnly txn.writes.keys before ∨ reader.SawOnly txn.writes.keys after.stored

/-- The keys that a commit writes had old versions, and have new ones from the commit time on. -/
def Replaced (keys : List Key) (c : Timestamp) (before after : Records) : Prop :=
  ∀ key ∈ keys, ∃ old new, before.tuple? key = some old ∧ after.tuple? key = some new ∧
    old.stamp.wts ≤ old.stamp.rts ∧ old.stamp.rts < c ∧ new.stamp = Stamp.committedAt c

theorem version?_of_tuple? {records : Records} {t : Tuple} (h : records.tuple? key = some t) :
    records.version? key = some t.version := by
  rw [Records.version?, h]
  rfl

/-- A reader that was given old versions as they were, or new ones, sees the whole commit or
nothing of it. -/
theorem seen_whole {keys : List Key} (hkeys : Replaced keys c before after)
    {reader decided : Transaction} {t : Timestamp} {left : Records}
    (hseen : ∀ entry ∈ reader.reads.entries, entry.key ∈ keys →
      before.tuple? entry.key = some entry.tuple ∨ after.tuple? entry.key = some entry.tuple)
    (hrun : CommitRun merge reader after held (.ok (.committed t)) decided left) :
    reader.SawOnly keys before ∨ reader.SawOnly keys after := by
  by_cases hnew : ∃ entry ∈ reader.reads.entries, entry.key ∈ keys ∧
      before.tuple? entry.key ≠ some entry.tuple
  · -- one new version moves the reader to the commit time, which no old version reaches
    obtain ⟨latest, hlatest, hmine, hchanged⟩ := hnew
    have htime : c ≤ decided.validationTime := by
      obtain ⟨-, new, -, htuple, -, -, hstamp⟩ := hkeys latest.key hmine
      rcases hseen latest hlatest hmine with hsame | hsame
      · exact absurd hsame hchanged
      · rw [htuple] at hsame
        cases hsame
        have hwts := (hrun.good hlatest).1
        rwa [hstamp] at hwts
    right
    intro entry hentry hkey
    obtain ⟨old, new, hold, htuple, hformed, hlt, hstamp⟩ := hkeys entry.key hkey
    rcases hseen entry hentry hkey with hsame | hsame
    · exfalso
      rw [hold] at hsame
      cases hsame
      rcases (hrun.good hentry).2 with hcovered | hstored
      · exact absurd (lt_of_le_of_lt (le_trans htime hcovered) hlt) (lt_irrefl _)
      · rw [Records.stampAt_of_tuple? htuple, hstamp] at hstored
        rw [hstored] at hformed
        exact absurd (lt_of_le_of_lt hformed hlt) (lt_irrefl _)
    · exact (version?_of_tuple? hsame).symm
  · left
    intro entry hentry hkey
    refine (version?_of_tuple? ?_).symm
    by_contra hne
    exact hnew ⟨entry, hentry, hkey, hne⟩

/-- A reader that was given the old version of a key with its read time raised to the commit time,
and afterwards the new one, can commit. -/
theorem half_seen (merge : MergeOperator) {keys : List Key}
    (hkeys : Replaced keys c before after) (hkey : key ∈ keys) (hafter : after.Sound)
    {old new : Tuple} (hold : before.tuple? key = some old)
    (hnew : after.tuple? key = some new) {reader : Transaction} {id : TxnId}
    (hreader : reader = { Transaction.start id .serializable with
      reads := ⟨[⟨key, old.raise c⟩, ⟨key, new⟩]⟩ }) :
    (∃ t, (reader.commit (Engine.memory merge.tuple) [] ⟨after, LockTable.empty⟩).answer =
        .ok (.committed t)) ∧
      ¬ reader.SawOnly keys before ∧ ¬ reader.SawOnly keys after := by
  obtain ⟨old', new', hold', hnew', hformed, hlt, hstamp⟩ := hkeys key hkey
  rw [hold] at hold'
  rw [hnew] at hnew'
  cases hold'
  cases hnew'
  have hne : old.stamp.wts ≠ c := ne_of_lt (lt_of_le_of_lt hformed hlt)
  have hfirst : (⟨key, old.raise c⟩ : ReadEntry) ∈ reader.reads.entries := by
    rw [hreader]
    exact List.mem_cons_self
  have hsecond : (⟨key, new⟩ : ReadEntry) ∈ reader.reads.entries := by
    rw [hreader]
    exact List.mem_cons_of_mem _ (List.mem_singleton.mpr rfl)
  refine ⟨?_, ?_, ?_⟩
  · apply commits_of_covered hafter
    · rw [hreader]
      rfl
    · rw [hreader]
      rfl
    · rw [hreader]
      rfl
    · rw [hreader]
      rfl
    · -- both versions are known to be good at the commit time, and neither is later
      have hgood : ∀ entry ∈ reader.reads.entries,
          entry.tuple.stamp.wts ≤ c ∧ c ≤ entry.tuple.stamp.rts := by
        intro entry hentry
        rw [hreader] at hentry
        rcases List.mem_cons.mp hentry with rfl | hentry
        · rw [Tuple.wts_raise, Tuple.rts_raise]
          exact ⟨le_trans hformed (le_of_lt hlt), le_max_right _ _⟩
        · rw [List.mem_singleton.mp hentry, hstamp]
          exact ⟨le_refl c, le_refl c⟩
      exact fun entry hentry other hother => le_trans (hgood other hother).1 (hgood entry hentry).2
  · intro hsaw
    have hversion := hsaw _ hsecond hkey
    rw [version?_of_tuple? hold, Tuple.version, Tuple.version, hstamp] at hversion
    have hwts := congrArg Prod.fst (Option.some.inj hversion)
    exact hne hwts.symm
  · intro hsaw
    have hversion := hsaw _ hfirst hkey
    rw [version?_of_tuple? hnew, Tuple.version, Tuple.version, hstamp, Tuple.wts_raise] at hversion
    have hwts := congrArg Prod.fst (Option.some.inj hversion)
    exact hne hwts

/-- A serializable commit that removes nothing and writes only keys that are there is never half
seen exactly if it has no key to write whose read time its own checks raise: if what it has read
under each of them is known to be good at its commit time anyway. -/
theorem commit_is_never_half_seen_iff_it_refreshes_no_key_it_writes (hsound : before.Sound)
    (hlevel : txn.isolation = .serializable)
    (hkeep : ∀ entry ∈ txn.writes.entries, entry.op ≠ .delete)
    (hthere : ∀ key ∈ txn.writes.keys, KeyMap.contains before key = true)
    (hcommit : (txn.commit (Engine.memory merge.tuple) [] ⟨before, LockTable.empty⟩).answer =
      .ok (.committed c)) :
    txn.NeverHalfSeen merge before ↔
      ∀ entry ∈ txn.reads.entries, entry.key ∈ txn.writes.keys → c ≤ entry.tuple.stamp.rts := by
  obtain ⟨held, ts, after, more, hrun, hshared, hmoments, hpass, hwindow⟩ :=
    Transaction.moments_of_commit hsound hcommit
  have hafter : after.Sound := hrun.sound hsound
  have hsounds : ∀ m ∈ txn.moments merge before, m.stored.Sound := by
    intro m hm
    rw [hmoments] at hm
    rcases List.mem_append.mp hm with hm | hm
    · exact (hpass m hm).sound hsound
    · rw [List.mem_singleton.mp hm]
      exact hafter
  have hkeys : Replaced txn.writes.keys c before after := by
    intro key hkey
    apply written_key hsound hrun hkeep hkey
    have hmem := hthere key hkey
    rw [hsound.contains_eq] at hmem
    exact Option.isSome_iff_ne_none.mp hmem
  unfold Transaction.NeverHalfSeen
  simp only [hshared]
  constructor
  · intro hnever entry hentry hkey
    by_contra hlate
    rw [not_le] at hlate
    obtain ⟨old, new, hold, hnew, -⟩ := hkeys entry.key hkey
    obtain ⟨m, hm, hstored⟩ := hwindow (WriteBuffer.isEmpty_of_mem_keys hkey)
    obtain ⟨plan, hplan⟩ := exists_plan_twice hm ⟨after, LockTable.empty⟩ entry.key
    have hraised : m.stored.tuple? entry.key = some (old.raise c) := by
      rw [hstored, raised_before_writes hlevel hrun hentry hlate, hold]
      rfl
    have hreader : Transaction.reader merge 0 (txn.moments merge before) plan =
        { Transaction.start 0 .serializable with
          reads := ⟨[⟨entry.key, old.raise c⟩, ⟨entry.key, new⟩]⟩ } := by
      rw [Transaction.reader_eq merge 0 hsounds, hmoments, hplan]
      simp [Transaction.note?, hraised, hnew]
    obtain ⟨⟨t, hcommits⟩, hbefore, hafter'⟩ :=
      half_seen merge hkeys hkey hafter hold hnew hreader
    rcases hnever 0 plan t hcommits with hsaw | hsaw
    · exact hbefore hsaw
    · exact hafter' hsaw
  · intro hblind id plan t hcommits
    obtain ⟨held', ts', left, -, hrun', -⟩ := Transaction.moments_of_commit hafter hcommits
    refine seen_whole hkeys ?_ hrun'
    intro entry hentry hkey
    obtain ⟨m, hm, htuple⟩ := Transaction.stored_of_mem_reader hsounds hentry
    rw [hmoments] at hm
    rcases List.mem_append.mp hm with hm | hm
    · rcases (hpass m hm).tuple? hlevel hrun entry.key with
        hold | hnew | ⟨-, other, hother, heq, hlate⟩
      · exact Or.inl (hold ▸ htuple)
      · exact Or.inr (hnew ▸ htuple)
      · exact absurd (hblind other hother (heq ▸ hkey)) (not_le.mpr hlate)
    · rw [List.mem_singleton.mp hm] at htuple
      exact Or.inr htuple

end OneCommit

/-- Two keys as their first commit has left them. -/
def twoKeys : Records :=
  (KeyMap.empty.insert ⟨[120]⟩ (Tuple.make ⟨1, 1⟩ [49]).bytes).insert ⟨[121]⟩
    (Tuple.make ⟨1, 1⟩ [50]).bytes

theorem sound_twoKeys : twoKeys.Sound :=
  (Records.sound_empty.insert _ (Tuple.wellFormed_make_committedAt 1 [49])).insert _
    (Tuple.wellFormed_make_committedAt 1 [50])

/-- A transaction that writes both keys. -/
def writesBoth (reads : ReadLog) : Transaction :=
  { Transaction.start 1 .serializable with
    reads
    writes := ⟨[⟨⟨[120]⟩, .insert, Tuple.unstamped [51]⟩, ⟨⟨[121]⟩, .insert, Tuple.unstamped [52]⟩],
      by decide⟩ }

/-- Both keys written without a look at them. -/
theorem blind_commit_is_never_half_seen :
    commitTime? ((writesBoth ReadLog.empty).commit (Engine.memory MergeOperator.replace.tuple) []
      ⟨twoKeys, LockTable.empty⟩).answer = some 2 ∧
    (writesBoth ReadLog.empty).NeverHalfSeen .replace twoKeys := by
  have htime : commitTime? ((writesBoth ReadLog.empty).commit
      (Engine.memory MergeOperator.replace.tuple) [] ⟨twoKeys, LockTable.empty⟩).answer =
        some 2 := by
    decide +kernel
  refine ⟨htime, ?_⟩
  rw [commit_is_never_half_seen_iff_it_refreshes_no_key_it_writes sound_twoKeys rfl (by decide)
    (by decide +kernel) (answer_of_commitTime? htime)]
  exact fun _ h => absurd h List.not_mem_nil

/-- A reader commits with the old version of one key, looked up before the writes, and with the new
version of the other. The writer had looked the first key up itself. -/
theorem reader_commits_with_half_of_a_commit :
    let looked := (Transaction.start 1 .serializable).lookAll .replace
      [(⟨twoKeys, LockTable.empty⟩, ⟨[120]⟩)]
    let txn := writesBoth looked.reads
    let after := (txn.commit (Engine.memory MergeOperator.replace.tuple) []
      ⟨twoKeys, LockTable.empty⟩).shared
    let reader := Transaction.reader .replace 2 (txn.moments .replace twoKeys)
      [[], [], [], [], [⟨[120]⟩], [], [⟨[121]⟩]]
    commitTime? (txn.commit (Engine.memory MergeOperator.replace.tuple) []
        ⟨twoKeys, LockTable.empty⟩).answer = some 2 ∧
      commitTime? (reader.commit (Engine.memory MergeOperator.replace.tuple) [] after).answer =
        some 2 ∧
      ¬ reader.SawOnly txn.writes.keys twoKeys ∧ ¬ reader.SawOnly txn.writes.keys after.stored := by
  decide +kernel

end StampStore
