-- Whole commits over records in memory. A commit finds no write time, or a read
-- that is no longer good, or a write that cannot be merged, or it installs all
-- its writes. In each case the versions of a key only lead on, except where the
-- commit removes the key.
import StampStore.Proofs.Locking
import StampStore.Proofs.Memory
import Mathlib.Data.List.TakeWhile

namespace StampStore

variable {app : MergeOperator} {txn : Transaction} {records : Records} {held : LockTable}

/-! ## The transaction during its commit -/

namespace Transaction

/-- The transaction as its commit begins: its writes stand in key order, and the times that the
commit starts from are chosen. -/
def ready (txn : Transaction) : Transaction :=
  { txn with status := .validating, writes := txn.writes.sorted }.chooseReadTime

/-- The transaction once its commit has chosen the write time `ts`. -/
def readyAt (txn : Transaction) (ts : Timestamp) : Transaction := { txn.ready with commitWts := ts }

/-- The conflict that the checks of the reads stop at. -/
def firstFault (txn : Transaction) (records : Records) (held : LockTable) : Option Conflict :=
  txn.reads.entries.findSome? (ReadEntry.fault? records held txn.id txn.validationTime)

/-- The records once the reads before the first conflict have been checked. -/
def checked (txn : Transaction) (records : Records) (held : LockTable) : Records :=
  records.refreshed txn.validationTime txn.isolation.extendsReads
    (txn.reads.entries.takeWhile fun entry =>
      (entry.fault? records held txn.id txn.validationTime).isNone)

@[simp] theorem ready_id (txn : Transaction) : txn.ready.id = txn.id := by
  unfold ready chooseReadTime
  split <;> rfl

@[simp] theorem ready_isolation (txn : Transaction) : txn.ready.isolation = txn.isolation := by
  unfold ready chooseReadTime
  split <;> rfl

@[simp] theorem ready_reads (txn : Transaction) : txn.ready.reads = txn.reads := by
  unfold ready chooseReadTime
  split <;> rfl

@[simp] theorem ready_writes (txn : Transaction) : txn.ready.writes = txn.writes.sorted := by
  unfold ready chooseReadTime
  split <;> rfl

@[simp] theorem readyAt_id (txn : Transaction) (ts : Timestamp) : (txn.readyAt ts).id = txn.id :=
  ready_id txn

@[simp] theorem readyAt_isolation (txn : Transaction) (ts : Timestamp) :
    (txn.readyAt ts).isolation = txn.isolation := ready_isolation txn

@[simp] theorem readyAt_reads (txn : Transaction) (ts : Timestamp) :
    (txn.readyAt ts).reads = txn.reads := ready_reads txn

@[simp] theorem readyAt_writes (txn : Transaction) (ts : Timestamp) :
    (txn.readyAt ts).writes = txn.writes.sorted := ready_writes txn

/-! ## The time of a commit -/

theorem le_maxWts {log : ReadLog} {entry : ReadEntry} (h : entry ∈ log.entries) :
    entry.tuple.stamp.wts ≤ log.maxWts := by
  have hfold : ∀ (entries : List ReadEntry) (ts : Timestamp),
      ts ≤ entries.foldl (fun ts entry => max ts entry.tuple.stamp.wts) ts ∧
        ∀ e ∈ entries,
          e.tuple.stamp.wts ≤ entries.foldl (fun ts entry => max ts entry.tuple.stamp.wts) ts := by
    intro entries
    induction entries with
    | nil => exact fun ts => ⟨le_refl _, by simp⟩
    | cons e entries ih =>
      intro ts
      obtain ⟨hle, hall⟩ := ih (max ts e.tuple.stamp.wts)
      refine ⟨le_trans (le_max_left _ _) hle, ?_⟩
      intro e' he'
      rcases List.mem_cons.mp he' with rfl | he'
      · exact le_trans (le_max_right _ _) hle
      · exact hall e' he'
  exact (hfold log.entries 0).2 entry h

theorem maxWts_le {log : ReadLog} {bound : Timestamp}
    (h : ∀ entry ∈ log.entries, entry.tuple.stamp.wts ≤ bound) : log.maxWts ≤ bound := by
  have hfold : ∀ (entries : List ReadEntry) (ts : Timestamp), ts ≤ bound →
      (∀ e ∈ entries, e.tuple.stamp.wts ≤ bound) →
      entries.foldl (fun ts entry => max ts entry.tuple.stamp.wts) ts ≤ bound := by
    intro entries
    induction entries with
    | nil => exact fun ts hts _ => hts
    | cons e entries ih =>
      intro ts hts hall
      exact ih _ (max_le hts (hall e List.mem_cons_self))
        fun e' he' => hall e' (List.mem_cons_of_mem e he')
  exact hfold log.entries 0 (Timestamp.zero_le bound) h

theorem commitWts_ready (txn : Transaction) :
    txn.ready.commitWts =
      if txn.isolation.collapses then max txn.reads.maxWts txn.commitWts else txn.commitWts := by
  unfold ready chooseReadTime
  split <;> rfl

theorem commitRts_ready (txn : Transaction) :
    txn.ready.commitRts =
      if txn.isolation.collapses then max txn.reads.maxWts txn.commitWts
      else txn.reads.maxWts := by
  unfold ready chooseReadTime
  split <;> rfl

theorem validationTime_readyAt (txn : Transaction) (ts : Timestamp) :
    (txn.readyAt ts).validationTime =
      if txn.isolation.validatesAtReadTime then txn.ready.commitRts else ts := by
  unfold validationTime
  rw [readyAt_isolation]
  rfl

theorem validationTime_of_snapshot (h : txn.isolation = .snapshot) (ts : Timestamp) :
    (txn.readyAt ts).validationTime = txn.reads.maxWts := by
  rw [validationTime_readyAt, commitRts_ready, h]
  rfl

theorem validationTime_of_ne_snapshot (h : txn.isolation ≠ .snapshot) (ts : Timestamp) :
    (txn.readyAt ts).validationTime = ts := by
  rw [validationTime_readyAt]
  cases hlevel : txn.isolation with
  | snapshot => exact absurd hlevel h
  | serializable => rfl
  | repeatableRead => rfl

/-- The reads are checked at a time that none of them was written after. -/
theorem wts_le_validationTime {ts : Timestamp} {entry : ReadEntry}
    (hle : txn.ready.commitWts ≤ ts) (h : entry ∈ txn.reads.entries) :
    entry.tuple.stamp.wts ≤ (txn.readyAt ts).validationTime := by
  have hmax := le_maxWts h
  rw [validationTime_readyAt, commitRts_ready]
  rw [commitWts_ready] at hle
  revert hle
  cases txn.isolation with
  | snapshot => exact fun _ => hmax
  | serializable => exact le_trans (le_trans hmax (le_max_left _ _))
  | repeatableRead => exact le_trans (le_trans hmax (le_max_left _ _))

end Transaction

/-! ## The ways of a commit -/

/-- How a commit over `records` goes once the locks are `held`: its answer, the transaction before
it is finished, and the records it leaves. -/
inductive CommitRun (app : MergeOperator) (txn : Transaction) (records : Records)
    (held : LockTable) : Except Error Outcome → Transaction → Records → Prop where
  | exhausted {conflict : Conflict}
      (htime : records.timeAfter txn.ready.writes.keys txn.ready.commitWts = .error conflict) :
      CommitRun app txn records held (.ok (.aborted (.conflict conflict))) txn.ready records
  | refused {ts : Timestamp} {conflict : Conflict}
      (htime : records.timeAfter txn.ready.writes.keys txn.ready.commitWts = .ok ts)
      (hfault : (txn.readyAt ts).firstFault records held = some conflict) :
      CommitRun app txn records held (.ok (.aborted (.conflict conflict))) (txn.readyAt ts)
        ((txn.readyAt ts).checked records held)
  | stopped {ts : Timestamp} {n : Nat} {entry : WriteEntry} {e : Error} {after : Records}
      (htime : records.timeAfter txn.ready.writes.keys txn.ready.commitWts = .ok ts)
      (hgood : (txn.readyAt ts).firstFault records held = none)
      (hentry : (txn.readyAt ts).writes.entries[n]? = some entry)
      (heffect : entry.effect app (records.value? entry.key) = .error e)
      (hinst : ((txn.readyAt ts).checked records held).Installed app ts
        ((txn.readyAt ts).writes.entries.take n) after) :
      CommitRun app txn records held
        (.error (.incompleteCommit txn.id n (txn.readyAt ts).writes.length e)) (txn.readyAt ts)
        after
  | installed {ts : Timestamp} {after : Records}
      (htime : records.timeAfter txn.ready.writes.keys txn.ready.commitWts = .ok ts)
      (hgood : (txn.readyAt ts).firstFault records held = none)
      (hinst : ((txn.readyAt ts).checked records held).Installed app ts
        (txn.readyAt ts).writes.entries after) :
      CommitRun app txn records held
        (.ok (.committed
          (if (txn.readyAt ts).writes.isEmpty then (txn.readyAt ts).validationTime else ts)))
        (txn.readyAt ts) after

theorem value?_checked (txn : Transaction) (records : Records) (held : LockTable) (key : Key) :
    (txn.checked records held).value? key = records.value? key :=
  Records.value?_refreshed _ _ _ _ _

theorem sound_checked (h : records.Sound) (txn : Transaction) (held : LockTable) :
    (txn.checked records held).Sound := h.refreshed _ _ _

/-- The checks of a transaction's reads, at the time that they are made at. -/
theorem validateReads_memory (app : MergeOperator) (held : LockTable) (h : records.Whole)
    (txn : Transaction) :
    txn.validateReads (Engine.memory app.tuple) txn.validationTime ⟨records, held⟩ =
      (.ok (txn.firstFault records held), ⟨txn.checked records held, held⟩) :=
  checkReads_memory app held h _ _ _ _

theorem underLocks_memory (app : MergeOperator) (held : LockTable) (h : records.Sound)
    (txn : Transaction) :
    ∃ answer decided after, CommitRun app txn records held answer decided after ∧
      txn.ready.underLocks (Engine.memory app.tuple) ⟨records, held⟩ =
        ⟨answer, decided, ⟨after, held⟩⟩ := by
  unfold Transaction.underLocks Transaction.chooseWriteTime
  rw [timeAfter_memory h.whole]
  cases htime : records.timeAfter txn.ready.writes.keys txn.ready.commitWts with
  | error conflict => exact ⟨_, _, _, .exhausted htime, rfl⟩
  | ok ts =>
    have hat : ({ txn.ready with commitWts := ts } : Transaction) = txn.readyAt ts := rfl
    simp only [hat]
    rw [validateReads_memory app held h.whole]
    cases hfault : (txn.readyAt ts).firstFault records held with
    | some conflict => exact ⟨_, _, _, .refused htime hfault, rfl⟩
    | none =>
      have hsound := sound_checked h (txn.readyAt ts) held
      obtain ⟨n, after, hinst, hcase⟩ := installAll_memory app held hsound ts
        (txn.readyAt ts).writes.distinct 0
      unfold Transaction.writeAll
      rcases hcase with ⟨hn, hrun⟩ | ⟨entry, e, hentry, heffect, hrun⟩
      · rw [hn, List.take_length] at hinst
        refine ⟨_, _, _, .installed htime hfault hinst, ?_⟩
        simp only
        rw [show (txn.readyAt ts).commitWts = ts from rfl, hrun]
      · rw [value?_checked] at heffect
        refine ⟨_, _, _, .stopped htime hfault hentry heffect hinst, ?_⟩
        simp only
        rw [show (txn.readyAt ts).commitWts = ts from rfl, hrun]
        simp

/-- A commit of an active transaction that gets its locks runs under them and gives them up. -/
theorem commit_of_locked {σ : Type} (engine : Engine σ) (hactive : txn.isActive = true)
    {stored after : σ} {locks left : LockTable} {rounds : List LockTable.Releases} {retries : Nat}
    (hlock : LockTable.lockWaiting txn.ready.writes.keys txn.id rounds locks =
      some (held, retries))
    {answer : Except Error Outcome} {decided : Transaction}
    (hunder : txn.ready.underLocks engine ⟨stored, held⟩ = ⟨answer, decided, ⟨after, left⟩⟩) :
    txn.commit engine rounds ⟨stored, locks⟩ =
      ⟨answer.mapError .error, decided.finish (Transaction.finalStatus answer),
        ⟨after, left.releaseAll txn.ready.writes.keys txn.id⟩, retries⟩ := by
  unfold Transaction.commit
  rw [if_pos hactive]
  have hready : { txn with status := .validating, writes := txn.writes.sorted }.chooseReadTime =
      txn.ready := rfl
  simp only [hready]
  rw [hlock]
  simp only
  rw [hunder]

/-- A commit of an active transaction that never gets its locks does nothing. -/
theorem commit_of_blocked {σ : Type} (engine : Engine σ) (hactive : txn.isActive = true)
    {shared : Shared σ} {rounds : List LockTable.Releases}
    (hlock : LockTable.lockWaiting txn.ready.writes.keys txn.id rounds shared.locks = none) :
    txn.commit engine rounds shared = ⟨.error .blocked, txn, shared, 0⟩ := by
  unfold Transaction.commit
  rw [if_pos hactive]
  have hready : { txn with status := .validating, writes := txn.writes.sorted }.chooseReadTime =
      txn.ready := rfl
  simp only [hready]
  rw [hlock]

/-- A commit of an active transaction that gets its locks goes one of the four ways, and gives
the locks up again. -/
theorem commit_memory (app : MergeOperator) (h : records.Sound) (hactive : txn.isActive = true)
    {locks : LockTable} {rounds : List LockTable.Releases} {retries : Nat}
    (hlock : LockTable.lockWaiting txn.ready.writes.keys txn.id rounds locks =
      some (held, retries)) :
    ∃ answer decided after, CommitRun app txn records held answer decided after ∧
      txn.commit (Engine.memory app.tuple) rounds ⟨records, locks⟩ =
        ⟨answer.mapError .error, decided.finish (Transaction.finalStatus answer),
          ⟨after, held.releaseAll txn.ready.writes.keys txn.id⟩, retries⟩ := by
  obtain ⟨answer, decided, after, hrun, hunder⟩ := underLocks_memory app held h txn
  exact ⟨answer, decided, after, hrun, commit_of_locked _ hactive hlock hunder⟩

/-! ## What a commit keeps -/

section CommitLaws

variable {answer : Except Error Outcome} {decided : Transaction} {after : Records} {key : Key}

theorem rts_lt_of_timeAfter {ts : Timestamp}
    (htime : records.timeAfter txn.ready.writes.keys txn.ready.commitWts = .ok ts)
    (hkey : key ∈ txn.writes.keys) : (records.stampAt key).rts < ts := by
  rw [Transaction.ready_writes] at htime
  exact (Records.timeAfter_spec htime).2 key (WriteBuffer.mem_keys_sorted.mpr hkey)

theorem leadsTo_checked (txn : Transaction) (records : Records) (held : LockTable) (key : Key) :
    Records.LeadsTo key records (txn.checked records held) :=
  Records.leadsTo_refreshed _ _ _ _ _

/-- Writes past the read times under their keys lead on from what was there, or remove it. -/
theorem leadsTo_installed {ts : Timestamp} {entries : List WriteEntry} (key : Key)
    (htime : records.timeAfter txn.ready.writes.keys txn.ready.commitWts = .ok ts)
    (hinst : ((txn.readyAt ts).checked records held).Installed app ts entries after)
    (hmine : ∀ entry ∈ entries, entry ∈ txn.writes.entries) :
    Records.LeadsTo key records after ∨
      (after.tuple? key = none ∧ ∃ entry ∈ txn.writes.entries, entry.op = .delete) := by
  by_cases hkey : key ∈ entries.map (·.key)
  · obtain ⟨entry, hentry, rfl⟩ := List.mem_map.mp hkey
    obtain ⟨value, heffect, htuple⟩ := hinst.written entry hentry
    cases value with
    | none =>
      refine Or.inr ⟨htuple, entry, hmine entry hentry, ?_⟩
      by_contra hop
      obtain ⟨v, hv⟩ := effect_some hop heffect
      cases hv
    | some v =>
      left
      intro t ht
      refine ⟨_, htuple, Or.inr ?_⟩
      rw [Tuple.stamp_make, ← Records.stampAt_of_tuple? ht]
      exact rts_lt_of_timeAfter htime (List.mem_map_of_mem (hmine entry hentry))
  · left
    intro t ht
    obtain ⟨t', ht', hlead⟩ := leadsTo_checked (txn.readyAt ts) records held key t ht
    exact ⟨t', (hinst.kept key hkey).trans ht', hlead⟩

namespace CommitRun

theorem sound (h : CommitRun app txn records held answer decided after) (hsound : records.Sound) :
    after.Sound := by
  cases h with
  | exhausted => exact hsound
  | refused => exact sound_checked hsound _ held
  | stopped _ _ _ _ hinst => exact hinst.sound
  | installed _ _ hinst => exact hinst.sound

theorem isolation (h : CommitRun app txn records held answer decided after) :
    decided.isolation = txn.isolation := by
  cases h with
  | exhausted => exact txn.ready_isolation
  | refused => exact txn.readyAt_isolation _
  | stopped => exact txn.readyAt_isolation _
  | installed => exact txn.readyAt_isolation _

/-- A commit leads on from what was stored under a key, or removes it. -/
theorem leadsTo (h : CommitRun app txn records held answer decided after) (key : Key) :
    Records.LeadsTo key records after ∨
      (after.tuple? key = none ∧ ∃ entry ∈ txn.writes.entries, entry.op = .delete) := by
  cases h with
  | exhausted => exact Or.inl (Records.leadsTo_of_tuple?_eq rfl)
  | refused => exact Or.inl (leadsTo_checked _ records held key)
  | stopped htime _ _ _ hinst =>
    apply leadsTo_installed key htime hinst
    intro entry hentry
    rw [Transaction.readyAt_writes] at hentry
    exact WriteBuffer.mem_sorted.mp (List.mem_of_mem_take hentry)
  | installed htime _ hinst =>
    apply leadsTo_installed key htime hinst
    intro entry hentry
    rw [Transaction.readyAt_writes] at hentry
    exact WriteBuffer.mem_sorted.mp hentry

/-- What a commit that answers with a time has done. -/
theorem committed {c : Timestamp}
    (h : CommitRun app txn records held (.ok (.committed c)) decided after) :
    ∃ ts, records.timeAfter txn.ready.writes.keys txn.ready.commitWts = .ok ts ∧
      decided = txn.readyAt ts ∧ decided.firstFault records held = none ∧
      (decided.checked records held).Installed app ts decided.writes.entries after ∧
      c = if txn.writes.isEmpty then decided.validationTime else ts := by
  cases h with
  | installed htime hgood hinst =>
    refine ⟨_, htime, rfl, hgood, hinst, ?_⟩
    rw [Transaction.readyAt_writes, WriteBuffer.isEmpty_sorted]

end CommitRun

/-- The reads of a transaction that commits are good at its validation time. -/
theorem good_of_firstFault_eq_none (h : txn.firstFault records held = none) {entry : ReadEntry}
    (hentry : entry ∈ txn.reads.entries) :
    txn.validationTime ≤ entry.tuple.stamp.rts ∨
      entry.tuple.stamp.wts = (records.stampAt entry.key).wts :=
  good_of_fault?_eq_none (List.findSome?_eq_none_iff.mp h entry hentry)

/-- Good reads stop no commit, if only the keys it writes are locked. -/
theorem firstFault_eq_none_of_good {keys : List Key}
    (hgood : ∀ entry ∈ txn.reads.entries, txn.validationTime ≤ entry.tuple.stamp.rts ∨
      entry.tuple.stamp.wts = (records.stampAt entry.key).wts)
    (hholder : ∀ key, held.holder? key = if key ∈ keys then some txn.id else none) :
    txn.firstFault records held = none := by
  refine List.findSome?_eq_none_iff.mpr fun entry hentry => ?_
  apply fault?_eq_none_of_good (hgood entry hentry)
  rw [hholder]
  split
  · exact Or.inr rfl
  · exact Or.inl rfl

/-- The records once all reads have been found good. -/
theorem checked_eq_of_good (h : txn.firstFault records held = none) :
    txn.checked records held =
      records.refreshed txn.validationTime txn.isolation.extendsReads txn.reads.entries := by
  have hall : ∀ entry ∈ txn.reads.entries,
      (entry.fault? records held txn.id txn.validationTime).isNone = true := by
    intro entry hentry
    rw [List.findSome?_eq_none_iff.mp h entry hentry]
    rfl
  unfold Transaction.checked
  rw [List.takeWhile_eq_self_iff.mpr hall]

/-- The checks leave a version as it is, or raise its read time if its key was read. -/
theorem tuple?_checked_or (txn : Transaction) (records : Records) (held : LockTable) (key : Key) :
    (txn.checked records held).tuple? key = records.tuple? key ∨
      ((∃ entry ∈ txn.reads.entries, entry.key = key) ∧
        (txn.checked records held).tuple? key =
          (records.tuple? key).map (·.raise txn.validationTime)) := by
  unfold Transaction.checked
  rw [Records.tuple?_refreshed]
  split
  · rename_i hraised
    obtain ⟨-, entry, hentry, hkey, -⟩ := hraised
    exact Or.inr ⟨⟨entry, (List.takeWhile_sublist _).mem hentry, hkey⟩, rfl⟩
  · exact Or.inl rfl

/-- Where reads are extended, the stored version of a key that was read is known to be readable
up to the validation time, unless the one that was read is. -/
theorem tuple?_checked_of_read (h : txn.firstFault records held = none)
    (hext : txn.isolation.extendsReads = true) {entry : ReadEntry}
    (hentry : entry ∈ txn.reads.entries) (hlate : entry.tuple.stamp.rts < txn.validationTime) :
    (txn.checked records held).tuple? entry.key =
      (records.tuple? entry.key).map (·.raise txn.validationTime) := by
  rw [checked_eq_of_good h, Records.tuple?_refreshed, if_pos]
  exact ⟨hext, entry, hentry, rfl, hlate⟩

namespace CommitRun

variable {c : Timestamp} {entry : ReadEntry}

/-- No read was written after the validation time, and each is readable at it or still stored. -/
theorem good (h : CommitRun app txn records held (.ok (.committed c)) decided after)
    (hentry : entry ∈ txn.reads.entries) :
    entry.tuple.stamp.wts ≤ decided.validationTime ∧
      (decided.validationTime ≤ entry.tuple.stamp.rts ∨
        entry.tuple.stamp.wts = (records.stampAt entry.key).wts) := by
  obtain ⟨time, htime, rfl, hgood, -, -⟩ := h.committed
  refine ⟨Transaction.wts_le_validationTime (Records.timeAfter_spec htime).1 hentry, ?_⟩
  apply good_of_firstFault_eq_none hgood
  rw [Transaction.readyAt_reads]
  exact hentry

/-- A key that is not written stays as the checks have left it. -/
theorem kept (h : CommitRun app txn records held (.ok (.committed c)) decided after)
    (hkey : key ∉ txn.writes.keys) :
    after.tuple? key = (decided.checked records held).tuple? key := by
  obtain ⟨ts, -, rfl, -, hinst, -⟩ := h.committed
  apply hinst.kept
  rw [Transaction.readyAt_writes]
  exact fun hmem => hkey (WriteBuffer.mem_keys_sorted.mp hmem)

/-- After the commit the version that was read is known to be readable at the validation time,
if the level extends reads and the transaction has not written the key itself. -/
theorem guarded (h : CommitRun app txn records held (.ok (.committed c)) decided after)
    (hext : txn.isolation.extendsReads = true) (hentry : entry ∈ txn.reads.entries)
    (hfree : entry.key ∉ txn.writes.keys) {stored : Tuple}
    (hstored : records.tuple? entry.key = some stored) :
    ∃ left, after.tuple? entry.key = some left ∧ stored.LeadsTo left ∧
      (decided.validationTime ≤ entry.tuple.stamp.rts ∨
        (left.stamp.wts = entry.tuple.stamp.wts ∧ decided.validationTime ≤ left.stamp.rts)) := by
  obtain ⟨-, hread⟩ := h.good hentry
  have hkept := h.kept hfree
  obtain ⟨time, htime, rfl, hgood, -, -⟩ := h.committed
  rcases le_or_gt (txn.readyAt time).validationTime entry.tuple.stamp.rts with hle | hlate
  · obtain ⟨left, hleft, hlead⟩ := leadsTo_checked (txn.readyAt time) records held entry.key stored
      hstored
    exact ⟨left, hkept.trans hleft, hlead, Or.inl hle⟩
  · have hraised := tuple?_checked_of_read hgood (by rwa [Transaction.readyAt_isolation])
      (by rwa [Transaction.readyAt_reads]) hlate
    rw [hstored, Option.map_some, ← hkept] at hraised
    refine ⟨_, hraised, stored.leadsTo_raise _, Or.inr ⟨?_, by simp⟩⟩
    rcases hread with hle | hsame
    · exact absurd hlate (not_lt.mpr hle)
    · rw [Tuple.wts_raise, hsame, Records.stampAt_of_tuple? hstored]

/-- A transaction that writes commits at the time that its writes are stamped with. -/
theorem committed_writer (h : CommitRun app txn records held (.ok (.committed c)) decided after)
    (hkey : key ∈ txn.writes.keys) :
    records.timeAfter txn.ready.writes.keys txn.ready.commitWts = .ok c ∧ decided = txn.readyAt c ∧
      (decided.checked records held).Installed app c decided.writes.entries after := by
  obtain ⟨ts, htime, hready, -, hinst, hc⟩ := h.committed
  rw [WriteBuffer.isEmpty_of_mem_keys hkey] at hc
  simp only [Bool.false_eq_true, if_false] at hc
  subst hc
  exact ⟨htime, hready, hinst⟩

/-- A transaction that writes commits after every read time under its keys. -/
theorem rts_lt (h : CommitRun app txn records held (.ok (.committed c)) decided after)
    (hkey : key ∈ txn.writes.keys) : (records.stampAt key).rts < c :=
  rts_lt_of_timeAfter (h.committed_writer hkey).1 hkey

/-- A key that is written and not removed has a new version. -/
theorem written (h : CommitRun app txn records held (.ok (.committed c)) decided after)
    {entry : WriteEntry} (hentry : entry ∈ txn.writes.entries) (hkeep : entry.op ≠ .delete) :
    ∃ v, after.tuple? entry.key = some (Tuple.make (Stamp.committedAt c) v) := by
  obtain ⟨-, rfl, hinst⟩ := h.committed_writer (List.mem_map_of_mem hentry)
  rw [Transaction.readyAt_writes] at hinst
  obtain ⟨value, heffect, htuple⟩ := hinst.written entry (WriteBuffer.mem_sorted.mpr hentry)
  obtain ⟨v, rfl⟩ := effect_some hkeep heffect
  exact ⟨v, htuple⟩

end CommitRun

end CommitLaws

/-! ## Commits that are refused, and commits that are not -/

section Verdict

variable {answer : Except Error Outcome} {decided : Transaction} {after : Records}
  {entry : ReadEntry}

/-- A commit that answers with an abort has only raised read times. -/
theorem aborted_frame {reason : AbortReason}
    (h : CommitRun app txn records held (.ok (.aborted reason)) decided after) (key : Key) :
    after.value? key = records.value? key ∧
      (after.stampAt key).wts = (records.stampAt key).wts := by
  cases h with
  | exhausted => exact ⟨rfl, rfl⟩
  | refused => exact ⟨value?_checked _ _ _ _, Records.wts_stampAt_refreshed _ _ _ _ _⟩

namespace CommitRun

/-- A commit that answers with an abort leaves every version as it was. -/
theorem sameVersions {reason : AbortReason} (hsound : records.Sound)
    (h : CommitRun app txn records held (.ok (.aborted reason)) decided after) :
    records.SameVersions after where
  present key := by
    have hvalue := congrArg Option.isSome (aborted_frame h key).1
    unfold Records.value? at hvalue
    rw [Option.isSome_map, Option.isSome_map] at hvalue
    rw [(h.sound hsound).contains_eq, hsound.contains_eq, hvalue]
  value key := (aborted_frame h key).1
  wts key := (aborted_frame h key).2

/-- A commit is refused for a read whose key has another write time by now, if the read was not
known to be good up to the time it is checked at. -/
theorem refused_of_stale (h : CommitRun app txn records held answer decided after)
    (hentry : entry ∈ txn.reads.entries)
    (hstale : entry.tuple.stamp.wts ≠ (records.stampAt entry.key).wts)
    (hlate : ∀ ts, records.timeAfter txn.ready.writes.keys txn.ready.commitWts = .ok ts →
      entry.tuple.stamp.rts < (txn.readyAt ts).validationTime) :
    ∃ reason, answer = .ok (.aborted reason) := by
  have hfault : ∀ ts, records.timeAfter txn.ready.writes.keys txn.ready.commitWts = .ok ts →
      (txn.readyAt ts).firstFault records held ≠ none := by
    intro ts htime hgood
    have hmine : entry ∈ (txn.readyAt ts).reads.entries := by
      rw [Transaction.readyAt_reads]
      exact hentry
    rcases good_of_firstFault_eq_none hgood hmine with hcovered | hsame
    · exact absurd (hlate ts htime) (not_lt.mpr hcovered)
    · exact hstale hsame
  cases h with
  | exhausted => exact ⟨_, rfl⟩
  | refused => exact ⟨_, rfl⟩
  | stopped htime hgood => exact absurd hgood (hfault _ htime)
  | installed htime hgood => exact absurd hgood (hfault _ htime)

/-- Where reads are checked at the write time, a commit is refused for a read of a key that it
writes, if the stored version was written after every time that the one it has read was known to be
readable at. -/
theorem refused_of_overwritten (h : CommitRun app txn records held answer decided after)
    (hsound : records.Sound) (hlevel : txn.isolation ≠ .snapshot) {key : Key} {seen : Tuple}
    (hseen : ⟨key, seen⟩ ∈ txn.reads.entries) (hwell : seen.WellFormed)
    (hkey : key ∈ txn.writes.keys) (hlt : seen.stamp.rts < (records.stampAt key).wts) :
    ∃ reason, answer = .ok (.aborted reason) := by
  refine h.refused_of_stale hseen (ne_of_lt (lt_of_le_of_lt hwell hlt)) fun ts htime => ?_
  rw [Transaction.validationTime_of_ne_snapshot hlevel]
  calc seen.stamp.rts
      < (records.stampAt key).wts := hlt
    _ ≤ (records.stampAt key).rts := wts_stampAt_le_rts hsound key
    _ < ts := rts_lt_of_timeAfter htime hkey

/-- A commit goes through if it finds a write time, all its reads are good then, and all its writes
can be merged. -/
theorem committed_of_good (h : CommitRun app txn records held answer decided after) {ts : Timestamp}
    (htime : records.timeAfter txn.ready.writes.keys txn.ready.commitWts = .ok ts)
    (hgood : (txn.readyAt ts).firstFault records held = none)
    (hmerge : ∀ entry ∈ txn.writes.entries,
      ∃ value, entry.effect app (records.value? entry.key) = .ok value) :
    ∃ c, answer = .ok (.committed c) := by
  cases h with
  | exhausted hnone =>
    rw [htime] at hnone
    cases hnone
  | refused htime' hfault =>
    rw [htime] at htime'
    cases htime'
    rw [hgood] at hfault
    cases hfault
  | stopped _ _ hentry heffect =>
    rw [Transaction.readyAt_writes] at hentry
    obtain ⟨value, hok⟩ := hmerge _ (WriteBuffer.mem_sorted.mp (List.mem_of_getElem? hentry))
    rw [heffect] at hok
    cases hok
  | installed => exact ⟨_, rfl⟩

end CommitRun

end Verdict

end StampStore
