-- What a commit that goes through leaves behind. Its write time is one past the latest
-- read time under the keys that it writes, and where the level ties the two it is not
-- before the latest write time that was read. Its writes stand under that time, the read
-- times that its checks have raised stay raised, and every other record is as it was.
import StampStore.Proofs.PartialWrites
import StampStore.Proofs.ReadChecks
import Mathlib.Data.List.Perm.Basic

namespace StampStore

/-! ## The latest of some times -/

/-- The latest of some times, zero if there is none. -/
def latest (times : List Nat) : Nat := times.foldr max 0

@[simp] theorem latest_nil : latest [] = 0 := rfl

@[simp] theorem latest_cons (time : Nat) (times : List Nat) :
    latest (time :: times) = max time (latest times) := rfl

theorem latest_of_perm {a b : List Nat} (h : a.Perm b) : latest a = latest b := h.foldr_eq 0

theorem Timestamp.toNat_max (a b : Timestamp) : (max a b).toNat = max a.toNat b.toNat := by
  rcases le_total a b with h | h
  · rw [max_eq_right h, max_eq_right (UInt32.le_iff_toNat_le.mp h)]
  · rw [max_eq_left h, max_eq_left (UInt32.le_iff_toNat_le.mp h)]

/-- The latest write time that was read. -/
theorem toNat_maxWts (log : ReadLog) :
    log.maxWts.toNat = latest (log.entries.map fun entry => entry.tuple.stamp.wts.toNat) := by
  have hfold : ∀ (entries : List ReadEntry) (ts : Timestamp),
      (entries.foldl (fun ts entry => max ts entry.tuple.stamp.wts) ts).toNat =
        max ts.toNat (latest (entries.map fun entry => entry.tuple.stamp.wts.toNat)) := by
    intro entries
    induction entries with
    | nil => exact fun ts => (max_eq_left (Nat.zero_le _)).symm
    | cons entry entries ih =>
      intro ts
      rw [List.foldl_cons, ih, Timestamp.toNat_max, List.map_cons, latest_cons, max_assoc]
  exact (hfold log.entries 0).trans (max_eq_right (Nat.zero_le _))

/-- The write time that is found is the latest of the first one and those right after the read times
under the keys. -/
theorem Records.toNat_timeAfter {records : Records} {keys : List Key} {ts time : Timestamp}
    (h : records.timeAfter keys ts = .ok time) :
    time.toNat =
      latest (ts.toNat :: keys.map fun key => (records.stampAt key).rts.toNat + 1) := by
  induction keys generalizing ts with
  | nil =>
    cases h
    exact (max_eq_left (Nat.zero_le _)).symm
  | cons key keys ih =>
    unfold timeAfter at h
    cases hnext : (records.stampAt key).rts.next? with
    | none =>
      rw [hnext] at h
      cases h
    | some next =>
      rw [hnext] at h
      rw [ih h, List.map_cons, latest_cons, latest_cons, latest_cons, Timestamp.toNat_max,
        Timestamp.next?_eq_some_iff.mp hnext, max_assoc]

/-! ## Commits that go through -/

/-- A commit that answers with a time has found nothing wrong before its writes, and has made them
all. -/
theorem Transaction.commit_went_through {σ : Type} {engine : Engine σ} {txn : Transaction}
    (hactive : txn.isActive = true) {rounds : List LockTable.Releases} {shared : Shared σ}
    {c : Timestamp}
    (hanswer : (txn.commit engine rounds shared).answer = .ok (.committed c)) :
    ∃ held decided before after,
      txn.ready.prepare engine { shared with locks := held } = ⟨.ok none, decided, before⟩ ∧
      engine.installAll decided.commitWts decided.writes.entries 0 before = (none, after) ∧
      (txn.commit engine rounds shared).txn = decided.finish .committed ∧
      (txn.commit engine rounds shared).shared.stored = after.stored ∧
      c = if decided.writes.isEmpty then decided.validationTime else decided.commitWts := by
  cases hlock : LockTable.lockWaiting txn.ready.writes.keys txn.id rounds shared.locks with
  | none =>
    rw [commit_of_blocked engine hactive hlock] at hanswer
    cases hanswer
  | some locked =>
    obtain ⟨held, retries⟩ := locked
    have hunder := txn.ready.underLocks_eq engine { shared with locks := held }
    rcases hprepare : txn.ready.prepare engine { shared with locks := held } with
      ⟨answer, decided, before⟩
    rw [hprepare] at hunder
    rcases answer with e | _ | conflict
    · rw [commit_of_locked engine hactive hlock hunder] at hanswer
      cases hanswer
    · simp only [writeAll] at hunder
      rcases hinstall : engine.installAll decided.commitWts decided.writes.entries 0 before with
        ⟨stop, after⟩
      rw [hinstall] at hunder
      have hcommit := commit_of_locked engine hactive hlock
        (show txn.ready.underLocks engine ⟨shared.stored, held⟩ = _ from hunder)
      cases stop with
      | some stop =>
        rw [hcommit] at hanswer
        cases hanswer
      | none =>
        rw [hcommit] at hanswer ⊢
        cases hanswer
        exact ⟨held, decided, before, after, hprepare, hinstall, rfl, rfl, rfl⟩
    · rw [commit_of_locked engine hactive hlock hunder] at hanswer
      cases hanswer

section Memory

variable {app : MergeOperator} {records : Records} {held : LockTable} {ts : Timestamp}

/-- Writes to different keys that meet no error have been written. -/
theorem applied_of_installAll {entries : List WriteEntry} {done : Nat}
    {before after : Shared Records} (hdistinct : (entries.map (·.key)).Nodup)
    (h : (Engine.memory app.tuple).installAll ts entries done before = (none, after)) :
    before.stored.Applied app ts entries after.stored := by
  induction entries generalizing done before with
  | nil =>
    cases h
    exact ⟨by simp, fun _ _ => rfl⟩
  | cons entry entries ih =>
    rw [List.map_cons, List.nodup_cons] at hdistinct
    obtain ⟨hkey, hrest⟩ := hdistinct
    unfold Engine.installAll at h
    rcases install_memory_cases app ts entry before with
      ⟨e, hrefused⟩ | ⟨value, next, heffect, hmade, hnext⟩
    · rw [hrefused] at h
      cases h
    · rw [hmade] at h
      exact (ih hrest h).cons heffect hnext hkey

namespace Transaction

variable {txn : Transaction}

/-- The part of a commit before its writes, over whole records. -/
theorem prepare_memory (app : MergeOperator) (held : LockTable) (h : records.Whole)
    (txn : Transaction) :
    txn.ready.prepare (Engine.memory app.tuple) ⟨records, held⟩ =
      match records.timeAfter txn.ready.writes.keys txn.ready.commitWts with
      | .error conflict => ⟨.ok (some conflict), txn.ready, ⟨records, held⟩⟩
      | .ok ts => ⟨.ok ((txn.readyAt ts).firstFault records held), txn.readyAt ts,
          ⟨(txn.readyAt ts).checked records held, held⟩⟩ := by
  unfold prepare chooseWriteTime
  rw [timeAfter_memory h]
  cases records.timeAfter txn.ready.writes.keys txn.ready.commitWts with
  | error conflict => rfl
  | ok ts =>
    have hat : ({ txn.ready with commitWts := ts } : Transaction) = txn.readyAt ts := rfl
    simp only [hat]
    rw [validateReads_memory app held h]

/-- Over whole records a commit that answers with a time has chosen its write time, has found all its
reads good, and has made its writes over what the checks have left. -/
theorem commit_applied (hactive : txn.isActive = true) (h : records.Whole) {locks : LockTable}
    {rounds : List LockTable.Releases} {c : Timestamp}
    (hanswer : (txn.commit (Engine.memory app.tuple) rounds ⟨records, locks⟩).answer =
      .ok (.committed c)) :
    ∃ held ts,
      let left := txn.commit (Engine.memory app.tuple) rounds ⟨records, locks⟩
      records.timeAfter txn.ready.writes.keys txn.ready.commitWts = .ok ts ∧
      (txn.readyAt ts).firstFault records held = none ∧
      ((txn.readyAt ts).checked records held).Applied app ts txn.writes.sorted.entries
        left.shared.stored ∧
      left.txn = (txn.readyAt ts).finish .committed ∧
      c = if txn.writes.isEmpty then (txn.readyAt ts).validationTime else ts := by
  obtain ⟨held, decided, before, after, hprepare, hinstall, htxn, hstored, hc⟩ :=
    commit_went_through hactive hanswer
  rw [prepare_memory app held h] at hprepare
  cases htime : records.timeAfter txn.ready.writes.keys txn.ready.commitWts with
  | error conflict =>
    rw [htime] at hprepare
    cases hprepare
  | ok ts =>
    rw [htime] at hprepare
    obtain ⟨hfault, rfl, rfl⟩ := Turn.mk.inj hprepare
    have happlied := applied_of_installAll (txn.readyAt ts).writes.distinct hinstall
    rw [← hstored, readyAt_writes] at happlied
    rw [readyAt_writes, WriteBuffer.isEmpty_sorted] at hc
    exact ⟨held, ts, rfl, Except.ok.inj hfault, happlied, htxn, hc⟩

end Transaction

end Memory

/-! ## The effect of a commit -/

/-- The latest write time that the transaction has read, zero if it has read nothing. -/
def Transaction.latestSeen (txn : Transaction) : Nat :=
  latest (txn.reads.entries.map fun entry => entry.tuple.stamp.wts.toNat)

/-- The transaction has committed at `c`, over the records `before`, and this is what is `left`. -/
structure Transaction.Effect (app : MergeOperator) (txn : Transaction) (before : Records)
    (c : Timestamp) (left : Committed Records) : Prop where
  /-- The write time is past the read times under the written keys and, where the level ties the two,
  not before the latest write time that was read. Before its commit a transaction has write time
  zero, unless a search for one has been made for it already. -/
  writeTime : left.txn.commitWts.toNat =
    latest (txn.commitWts.toNat :: (if txn.isolation.collapses then txn.latestSeen else 0) ::
      txn.writes.keys.map fun key => (before.stampAt key).rts.toNat + 1)
  checkTime : left.txn.validationTime.toNat =
    if txn.isolation = .snapshot then txn.latestSeen else left.txn.commitWts.toNat
  commitTime : c = if txn.writes.isEmpty then left.txn.validationTime else left.txn.commitWts
  /-- A transaction that writes nothing commits at the latest write time that it has read. -/
  readTime : txn.commitWts = 0 → txn.writes.isEmpty = true → c.toNat = txn.latestSeen
  inserted : ∀ entry ∈ txn.writes.entries, entry.op = .insert →
    left.shared.stored.get? entry.key =
      some (Tuple.make ⟨left.txn.commitWts, left.txn.commitWts⟩ entry.tuple.value).bytes
  updated : ∀ entry ∈ txn.writes.entries, entry.op = .update →
    ∃ merged, app.apply entry.key (before.value? entry.key) entry.tuple.value = .ok merged ∧
      left.shared.stored.get? entry.key =
        some (Tuple.make ⟨left.txn.commitWts, left.txn.commitWts⟩ merged).bytes
  deleted : ∀ entry ∈ txn.writes.entries, entry.op = .delete →
    left.shared.stored.get? entry.key = none
  /-- Under any other key at most a read time has been raised: that of a key which was read, where the
  level extends reads and the read was not known to be good at the time of the checks. -/
  unwritten : ∀ key, key ∉ txn.writes.keys → left.shared.stored.get? key =
    if txn.isolation.extendsReads = true ∧ ∃ entry ∈ txn.reads.entries,
        entry.key = key ∧ entry.tuple.stamp.rts < left.txn.validationTime then
      (before.tuple? key).map fun t =>
        (Tuple.make ⟨t.stamp.wts, max t.stamp.rts left.txn.validationTime⟩ t.value).bytes
    else before.get? key

section Effect

variable {txn : Transaction} {records : Records} {ts : Timestamp}

/-- A delta that has an effect has been merged with the value there. -/
theorem effect_of_update {app : MergeOperator} {entry : WriteEntry} {base value : Option Bytes}
    (hop : entry.op = .update) (h : entry.effect app base = .ok value) :
    ∃ merged, app.apply entry.key base entry.tuple.value = .ok merged ∧ value = some merged := by
  simp only [WriteEntry.effect, hop] at h
  cases hmerge : app.apply entry.key base entry.tuple.value with
  | error e =>
    rw [hmerge] at h
    cases h
  | ok merged =>
    rw [hmerge] at h
    cases h
    exact ⟨merged, rfl, rfl⟩

theorem toNat_commitWts (h : records.timeAfter txn.ready.writes.keys txn.ready.commitWts = .ok ts) :
    ts.toNat =
      latest (txn.commitWts.toNat :: (if txn.isolation.collapses then txn.latestSeen else 0) ::
        txn.writes.keys.map fun key => (records.stampAt key).rts.toNat + 1) := by
  have hkeys : latest (txn.writes.sorted.keys.map fun key => (records.stampAt key).rts.toNat + 1) =
      latest (txn.writes.keys.map fun key => (records.stampAt key).rts.toNat + 1) :=
    latest_of_perm ((txn.writes.sorted_perm.map (·.key)).map _)
  rw [Records.toNat_timeAfter h, Transaction.ready_writes, latest_cons, hkeys, latest_cons,
    latest_cons, Transaction.commitWts_ready]
  split
  · rw [Timestamp.toNat_max, toNat_maxWts, ← Transaction.latestSeen, max_comm txn.latestSeen,
      max_assoc]
  · rw [Nat.zero_max]

theorem toNat_validationTime (txn : Transaction) (ts : Timestamp) :
    (txn.readyAt ts).validationTime.toNat =
      if txn.isolation = .snapshot then txn.latestSeen else ts.toNat := by
  split
  · rename_i hlevel
    rw [Transaction.validationTime_of_snapshot hlevel, toNat_maxWts]
    rfl
  · rename_i hlevel
    rw [Transaction.validationTime_of_ne_snapshot hlevel]

/-- Without writes the reads are checked at the latest write time among them. -/
theorem toNat_validationTime_of_readOnly
    (h : records.timeAfter txn.ready.writes.keys txn.ready.commitWts = .ok ts)
    (hzero : txn.commitWts = 0) (hempty : txn.writes.isEmpty = true) :
    (txn.readyAt ts).validationTime.toNat = txn.latestSeen := by
  rw [toNat_validationTime]
  split
  · rfl
  · rename_i hlevel
    have hcollapses : txn.isolation.collapses = true := by
      cases hiso : txn.isolation with
      | snapshot => exact absurd hiso hlevel
      | serializable => rfl
      | repeatableRead => rfl
    have hkeys : txn.writes.keys = [] := by
      rw [WriteBuffer.keys, List.isEmpty_iff.mp hempty, List.map_nil]
    rw [toNat_commitWts h, hzero, hkeys, if_pos hcollapses]
    simp

end Effect

/-- Whole records, any locks, and an active transaction with any reads and writes, at any level. If
its commit goes through, it has its effect. -/
theorem commit_has_its_effect (app : MergeOperator) {txn : Transaction}
    (hactive : txn.isActive = true) (rounds : List LockTable.Releases) {records : Records}
    (h : records.Whole) (locks : LockTable) {c : Timestamp}
    (hanswer : (txn.commit (Engine.memory app.tuple) rounds ⟨records, locks⟩).answer =
      .ok (.committed c)) :
    txn.Effect app records c (txn.commit (Engine.memory app.tuple) rounds ⟨records, locks⟩) := by
  obtain ⟨held, ts, htime, hgood, happlied, hleft, hc⟩ :=
    Transaction.commit_applied hactive h hanswer
  generalize txn.commit (Engine.memory app.tuple) rounds ⟨records, locks⟩ = left at happlied hleft ⊢
  have hwts : left.txn.commitWts = ts := congrArg Transaction.commitWts hleft
  have hcheck : left.txn.validationTime = (txn.readyAt ts).validationTime := by
    rw [hleft]
    rfl
  have heffect : ∀ entry ∈ txn.writes.entries, ∃ value,
      entry.effect app (records.value? entry.key) = .ok value ∧
        left.shared.stored.get? entry.key =
          value.map fun v => (Tuple.make (Stamp.committedAt ts) v).bytes := by
    intro entry hentry
    obtain ⟨value, hvalue, hget⟩ := happlied.written entry (WriteBuffer.mem_sorted.mpr hentry)
    rw [value?_checked] at hvalue
    exact ⟨value, hvalue, hget⟩
  constructor
  case writeTime => rw [hwts, toNat_commitWts htime]
  case checkTime => rw [hcheck, hwts, toNat_validationTime]
  case commitTime => rw [hc, hcheck, hwts]
  case readTime =>
    intro hzero hempty
    rw [hc, if_pos hempty, toNat_validationTime_of_readOnly htime hzero hempty]
  case inserted =>
    intro entry hentry hop
    obtain ⟨value, hvalue, hget⟩ := heffect entry hentry
    rw [WriteEntry.effect, hop] at hvalue
    cases hvalue
    rw [hget, hwts]
    rfl
  case updated =>
    intro entry hentry hop
    obtain ⟨value, hvalue, hget⟩ := heffect entry hentry
    obtain ⟨merged, hmerge, rfl⟩ := effect_of_update hop hvalue
    refine ⟨merged, hmerge, ?_⟩
    rw [hget, hwts]
    rfl
  case deleted =>
    intro entry hentry hop
    obtain ⟨value, hvalue, hget⟩ := heffect entry hentry
    rw [WriteEntry.effect, hop] at hvalue
    cases hvalue
    rw [hget]
    rfl
  case unwritten =>
    intro key hkey
    have hkept := happlied.kept key fun hmem => hkey (WriteBuffer.mem_keys_sorted.mp hmem)
    rw [hkept, checked_eq_of_good hgood, h.get?_refreshed, hcheck,
      Transaction.readyAt_isolation, Transaction.readyAt_reads]

/-- A commit that waits for a lock, then inserts, merges and removes at time 6, a write time that it
has read. Of its reads one was noted twice and is extended, one is of a key that it writes itself, and
one was known to be good at that time. Nothing happens to the other record. -/
theorem mixed_commit_has_its_effect :
    let a : Key := ⟨[97]⟩
    let b : Key := ⟨[98]⟩
    let c : Key := ⟨[99]⟩
    let d : Key := ⟨[100]⟩
    let e : Key := ⟨[101]⟩
    let f : Key := ⟨[102]⟩
    let tuple (wts rts : Timestamp) (value : Bytes) : Tuple := Tuple.make ⟨wts, rts⟩ value
    let records : Records := ((((KeyMap.empty.insert a (tuple 1 2 [49]).bytes).insert b
      (tuple 3 4 [50]).bytes).insert c (tuple 2 2 [51]).bytes).insert d
      (tuple 1 1 [52]).bytes).insert e (tuple 6 9 [53]).bytes
    let txn : Transaction := { Transaction.start 7 .serializable with
      reads := ⟨[⟨d, tuple 1 1 [52]⟩, ⟨b, tuple 3 3 [50]⟩, ⟨d, tuple 1 1 [52]⟩,
        ⟨e, tuple 6 9 [53]⟩]⟩
      writes := ⟨[⟨f, .insert, Tuple.unstamped [54]⟩, ⟨b, .update, Tuple.unstamped [55]⟩,
        ⟨c, .delete, Tuple.unstamped []⟩], by decide⟩ }
    let left := txn.commit (Engine.memory MergeOperator.append.tuple) [[(b, 9)]]
      ⟨records, ⟨KeyMap.empty.insert b 9⟩⟩
    let after := left.shared.stored
    records.Whole ∧ left.answer = .ok (.committed 6) ∧
      txn.Effect MergeOperator.append records 6 left ∧
      after.get? a = some (tuple 1 2 [49]).bytes ∧ after.get? b = some (tuple 6 6 [50, 55]).bytes ∧
      after.get? c = none ∧ after.get? d = some (tuple 1 6 [52]).bytes ∧
      after.get? e = some (tuple 6 9 [53]).bytes ∧ after.get? f = some (tuple 6 6 [54]).bytes := by
  intro a b c d e f tuple records txn left after
  have hwhole : records.Whole :=
    ((((Records.sound_empty.whole.insert a _).insert b _).insert c _).insert d _).insert e _
  have hanswer : left.answer = .ok (.committed 6) := by decide +kernel
  have heffect : txn.Effect MergeOperator.append records 6 left :=
    @commit_has_its_effect MergeOperator.append txn rfl [[(b, 9)]] records hwhole
      ⟨KeyMap.empty.insert b 9⟩ 6 hanswer
  exact ⟨hwhole, hanswer, heffect, by decide +kernel, by decide +kernel, by decide +kernel,
    by decide +kernel, by decide +kernel, by decide +kernel⟩

end StampStore
