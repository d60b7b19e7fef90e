-- The moments of a commit. Somebody else who shares the engine sees the store as
-- it stands between two storage calls of the commit. A watched engine keeps all
-- these moments; the records pass from the old ones over raised read times, one
-- read after another, to the new ones, one write after another.
import StampStore.Proofs.Commits

namespace StampStore

/-! ## Watched engines -/

/-- The state of an engine, and what was shared before each of its calls, oldest first. -/
structure Watched (σ : Type) where
  now : σ
  seen : List (Shared σ)

section Watching

variable {σ α β : Type}

/-- What is shared, with what was seen before it. -/
def Shared.since (shared : Shared σ) (seen : List (Shared σ)) : Shared (Watched σ) :=
  ⟨⟨shared.stored, seen⟩, shared.locks⟩

/-- Makes one call of the watched engine, and keeps what was shared before it. -/
def Engine.watch (call : Shared σ → Reply σ α) (shared : Shared (Watched σ)) :
    Reply (Watched σ) α :=
  let before : Shared σ := ⟨shared.stored.now, shared.locks⟩
  match call before with
  | (answer, after) => (answer, after.since (shared.stored.seen ++ [before]))

/-- The engine with all that is shared before its calls kept. -/
def Engine.watched (engine : Engine σ) : Engine (Watched σ) where
  lookup key := watch (engine.lookup key)
  lookupRaw key := watch (engine.lookupRaw key)
  insert key record := watch (engine.insert key record)
  update key delta := watch (engine.update key delta)
  delete key := watch (engine.delete key)

/-- A watched run does what the plain one does. What it has seen on the way satisfies `P`. -/
def Through (P : Shared σ → Prop) (seen : List (Shared σ)) (plain : β × Shared σ)
    (run : β × Shared (Watched σ)) : Prop :=
  ∃ more, run = (plain.1, plain.2.since (seen ++ more)) ∧ ∀ m ∈ more, P m

variable {P Q : Shared σ → Prop} {seen : List (Shared σ)} {plain : β × Shared σ}
  {run : β × Shared (Watched σ)}

theorem through_refl (P : Shared σ → Prop) (seen : List (Shared σ)) (plain : β × Shared σ) :
    Through P seen plain (plain.1, plain.2.since seen) :=
  ⟨[], by rw [List.append_nil], fun _ h => absurd h List.not_mem_nil⟩

theorem Through.mono (h : Through P seen plain run) (hPQ : ∀ m, P m → Q m) :
    Through Q seen plain run := by
  obtain ⟨more, hrun, hmore⟩ := h
  exact ⟨more, hrun, fun m hm => hPQ m (hmore m hm)⟩

/-- What was seen before may be counted in. -/
theorem Through.append {first : List (Shared σ)} (h : Through P (seen ++ first) plain run)
    (hfirst : ∀ m ∈ first, P m) : Through P seen plain run := by
  obtain ⟨more, hrun, hmore⟩ := h
  refine ⟨first ++ more, by rw [hrun, List.append_assoc], ?_⟩
  intro m hm
  rcases List.mem_append.mp hm with hm | hm
  · exact hfirst m hm
  · exact hmore m hm

theorem Through.cons {m : Shared σ} (h : Through P (seen ++ [m]) plain run) (hm : P m) :
    Through P seen plain run :=
  h.append fun _ hmem => List.mem_singleton.mp hmem ▸ hm

namespace Engine

theorem fetchStamp_watched (engine : Engine σ) (key : Key) (shared : Shared σ)
    (seen : List (Shared σ)) :
    engine.watched.fetchStamp key (shared.since seen) =
      ((engine.fetchStamp key shared).1,
        (engine.fetchStamp key shared).2.since (seen ++ [shared])) := by
  have hcall : engine.watched.lookupRaw key (shared.since seen) =
      ((engine.lookupRaw key shared).1,
        (engine.lookupRaw key shared).2.since (seen ++ [shared])) := rfl
  unfold fetchStamp
  rw [hcall]
  rcases engine.lookupRaw key shared with ⟨answer, after⟩
  cases answer with
  | error e => rfl
  | ok record => cases record <;> rfl

theorem install_watched (engine : Engine σ) (ts : Timestamp) (entry : WriteEntry)
    (shared : Shared σ) (seen : List (Shared σ)) :
    engine.watched.install ts entry (shared.since seen) =
      ((engine.install ts entry shared).1,
        (engine.install ts entry shared).2.since (seen ++ [shared])) := by
  unfold install
  cases entry.op <;> rfl

/-- A read time is raised by one call, or by none. -/
theorem extendRts_through (engine : Engine σ) (key : Key) (ts : Timestamp)
    (current : Option Stamp) (shared : Shared σ) (seen : List (Shared σ)) :
    Through (· = shared) seen (engine.extendRts key ts current shared)
      (engine.watched.extendRts key ts current (shared.since seen)) := by
  unfold extendRts
  cases current with
  | none => exact through_refl _ _ _
  | some stamp =>
    simp only
    by_cases hlt : stamp.rts < ts
    · rw [if_pos hlt, if_pos hlt]
      exact (through_refl _ (seen ++ [shared]) _).cons rfl
    · rw [if_neg hlt, if_neg hlt]
      exact through_refl _ _ _

theorem close_through (engine : Engine σ) (ts : Timestamp) (extend : Bool) (entry : ReadEntry)
    (current : Option Stamp) (shared : Shared σ) (seen : List (Shared σ)) :
    Through (· = shared) seen (checkLocked.close engine ts extend entry current shared)
      (checkLocked.close engine.watched ts extend entry current (shared.since seen)) := by
  unfold checkLocked.close
  cases extend with
  | false => exact through_refl _ _ _
  | true =>
    obtain ⟨more, hrun, hmore⟩ := engine.extendRts_through entry.key ts current shared seen
    refine ⟨more, ?_, hmore⟩
    rw [if_pos rfl, if_pos rfl, hrun]
    rcases engine.extendRts entry.key ts current shared with ⟨answer, after⟩
    cases answer <;> rfl

end Engine

end Watching

/-! ## The phases of a commit -/

variable {app : MergeOperator} {records : Records} {locks : LockTable}

theorem timeAfter_through (app : MergeOperator) (locks : LockTable) (h : records.Sound)
    (keys : List Key) (ts : Timestamp) (seen : List (Shared Records)) :
    Through (·.stored = records) seen (.ok (records.timeAfter keys ts), ⟨records, locks⟩)
      ((Engine.memory app.tuple).watched.timeAfter keys ts
        (Shared.since ⟨records, locks⟩ seen)) := by
  induction keys generalizing ts seen with
  | nil => exact through_refl _ _ _
  | cons key keys ih =>
    unfold Engine.timeAfter Records.timeAfter
    rw [Engine.fetchStamp_watched, fetchStamp_memory h.whole]
    simp only
    rw [← Records.stampAt]
    cases (records.stampAt key).rts.next? with
    | none => exact (through_refl _ (seen ++ [_]) _).cons rfl
    | some next => exact (ih (max ts next) (seen ++ [⟨records, locks⟩])).cons rfl

theorem checkLocked_through (app : MergeOperator) (locks : LockTable) (h : records.Sound)
    (ts : Timestamp) (extend : Bool) (entry : ReadEntry) (lockedNow : Bool)
    (current : Option Stamp) (seen : List (Shared Records)) :
    Through (·.stored = records) seen
      ((Engine.memory app.tuple).checkLocked ts extend entry lockedNow current ⟨records, locks⟩)
      ((Engine.memory app.tuple).watched.checkLocked ts extend entry lockedNow current
        (Shared.since ⟨records, locks⟩ seen)) := by
  have hclose : ∀ (current : Option Stamp) (seen : List (Shared Records)),
      Through (·.stored = records) seen
        (Engine.checkLocked.close (Engine.memory app.tuple) ts extend entry current
          ⟨records, locks⟩)
        (Engine.checkLocked.close (Engine.memory app.tuple).watched ts extend entry current
          (Shared.since ⟨records, locks⟩ seen)) := by
    intro current seen
    exact (Engine.close_through _ ts extend entry current _ seen).mono
      fun _ hm => congrArg Shared.stored hm
  unfold Engine.checkLocked
  cases lockedNow with
  | false => exact hclose current seen
  | true =>
    simp only [if_true]
    rw [Engine.fetchStamp_watched, fetchStamp_memory h.whole]
    simp only
    cases hconflict : entry.conflictWith? (records.stamp? entry.key) with
    | some conflict => exact (through_refl _ (seen ++ [_]) _).cons rfl
    | none => exact (hclose _ (seen ++ [⟨records, locks⟩])).cons rfl

/-- Until a check ends, the records stay as they were. -/
theorem checkRead_through (app : MergeOperator) (locks : LockTable) (h : records.Sound)
    (owner : TxnId) (ts : Timestamp) (extend : Bool) (entry : ReadEntry)
    (seen : List (Shared Records)) :
    Through (·.stored = records) seen
      ((Engine.memory app.tuple).checkRead owner ts extend entry ⟨records, locks⟩)
      ((Engine.memory app.tuple).watched.checkRead owner ts extend entry
        (Shared.since ⟨records, locks⟩ seen)) := by
  unfold Engine.checkRead
  by_cases hskip : ts ≤ entry.tuple.stamp.rts
  · rw [if_pos hskip, if_pos hskip]
    exact through_refl _ _ _
  · rw [if_neg hskip, if_neg hskip, Engine.fetchStamp_watched, fetchStamp_memory h.whole]
    simp only
    cases hconflict : entry.conflictWith? (records.stamp? entry.key) with
    | some conflict => exact (through_refl _ (seen ++ [_]) _).cons rfl
    | none =>
      have hlocks : (Shared.since ⟨records, locks⟩ (seen ++ [⟨records, locks⟩])).locks = locks :=
        rfl
      simp only [hlocks]
      rcases locks.tryAcquire entry.key owner with ⟨outcome, held⟩
      cases outcome with
      | busy => exact (through_refl _ (seen ++ [_]) _).cons rfl
      | deadlock =>
        exact (checkLocked_through app locks h ts extend entry false _
          (seen ++ [⟨records, locks⟩])).cons rfl
      | acquired =>
        obtain ⟨more, hrun, hmore⟩ := checkLocked_through app held h ts extend entry true
          (records.stamp? entry.key) (seen ++ [⟨records, locks⟩])
        have hheld : ({ Shared.since ⟨records, locks⟩ (seen ++ [⟨records, locks⟩]) with
            locks := held } : Shared (Watched Records)) =
            Shared.since ⟨records, held⟩ (seen ++ [⟨records, locks⟩]) := rfl
        refine Through.cons (m := ⟨records, locks⟩) ⟨more, ?_, hmore⟩ rfl
        simp only
        rw [hheld, hrun]
        rfl

/-- While the reads are checked, the records are those that the first checks have left. -/
theorem checkReads_through (app : MergeOperator) (locks : LockTable) (h : records.Sound)
    (owner : TxnId) (ts : Timestamp) (extend : Bool) (entries : List ReadEntry)
    (seen : List (Shared Records)) :
    Through (fun m => ∃ n, m.stored = records.refreshed ts extend (entries.take n)) seen
      ((Engine.memory app.tuple).checkReads owner ts extend entries ⟨records, locks⟩)
      ((Engine.memory app.tuple).watched.checkReads owner ts extend entries
        (Shared.since ⟨records, locks⟩ seen)) := by
  induction entries generalizing records seen with
  | nil => exact through_refl _ _ _
  | cons entry entries ih =>
    obtain ⟨first, hrun, hfirst⟩ := checkRead_through app locks h owner ts extend entry seen
    unfold Engine.checkReads
    rw [hrun, checkRead_memory h.whole]
    cases hfault : entry.fault? records locks owner ts with
    | some conflict => exact ⟨first, rfl, fun m hm => ⟨0, hfirst m hm⟩⟩
    | none =>
      have hsound : (records.refresh ts extend entry).Sound := h.refreshed ts extend [entry]
      have hrest := ih hsound (seen ++ first)
      refine (hrest.mono ?_).append fun m hm => ⟨0, hfirst m hm⟩
      rintro m ⟨n, hn⟩
      exact ⟨n + 1, hn⟩

theorem validateReads_through (app : MergeOperator) (locks : LockTable) (h : records.Sound)
    (txn : Transaction) (seen : List (Shared Records)) :
    Through (fun m => ∃ n, m.stored = records.refreshed txn.validationTime
        txn.isolation.extendsReads (txn.reads.entries.take n)) seen
      (.ok (txn.firstFault records locks), ⟨txn.checked records locks, locks⟩)
      (txn.validateReads (Engine.memory app.tuple).watched txn.validationTime
        (Shared.since ⟨records, locks⟩ seen)) := by
  rw [← validateReads_memory app locks h.whole]
  exact checkReads_through app locks h _ _ _ _ _

/-- While the writes are made, the records are those that the first writes have left. -/
theorem installAll_through (app : MergeOperator) (locks : LockTable) (h : records.Sound)
    (ts : Timestamp) {entries : List WriteEntry} (hdistinct : (entries.map (·.key)).Nodup)
    (done : Nat) (seen : List (Shared Records)) :
    Through (fun m => ∃ n, records.Installed app ts (entries.take n) m.stored) seen
      ((Engine.memory app.tuple).installAll ts entries done ⟨records, locks⟩)
      ((Engine.memory app.tuple).watched.installAll ts entries done
        (Shared.since ⟨records, locks⟩ seen)) := by
  induction entries generalizing records done seen with
  | nil => exact through_refl _ _ _
  | cons entry entries ih =>
    rw [List.map_cons, List.nodup_cons] at hdistinct
    obtain ⟨hkey, hrest⟩ := hdistinct
    unfold Engine.installAll
    rw [Engine.install_watched]
    cases heffect : entry.effect app (records.value? entry.key) with
    | error e =>
      rw [install_refused h ts heffect]
      exact (through_refl _ (seen ++ [_]) _).cons ⟨0, installed_nil h ts⟩
    | ok value =>
      obtain ⟨next, hstep, hsound, hnext⟩ := install_done locks h ts heffect
      rw [hstep]
      have hlater := ih hsound hrest (done + 1) (seen ++ [⟨records, locks⟩])
      refine (hlater.mono ?_).cons ⟨0, installed_nil h ts⟩
      rintro m ⟨n, hn⟩
      refine ⟨n + 1, hn.cons heffect hnext ?_⟩
      rw [List.map_take]
      exact fun hmem => hkey (List.mem_of_mem_take hmem)

/-- The first write is seen before it is made. -/
theorem mem_seen_installAll (app : MergeOperator) (locks : LockTable) (h : records.Sound)
    (ts : Timestamp) {entries : List WriteEntry} (hdistinct : (entries.map (·.key)).Nodup)
    (hbusy : entries ≠ []) (done : Nat) (seen : List (Shared Records)) :
    (⟨records, locks⟩ : Shared Records) ∈
      ((Engine.memory app.tuple).watched.installAll ts entries done
        (Shared.since ⟨records, locks⟩ seen)).2.stored.seen := by
  cases entries with
  | nil => exact absurd rfl hbusy
  | cons entry entries =>
    rw [List.map_cons, List.nodup_cons] at hdistinct
    have hlast : (⟨records, locks⟩ : Shared Records) ∈ seen ++ [⟨records, locks⟩] :=
      List.mem_append_right _ (List.mem_singleton.mpr rfl)
    unfold Engine.installAll
    rw [Engine.install_watched]
    cases heffect : entry.effect app (records.value? entry.key) with
    | error e =>
      rw [install_refused h ts heffect]
      exact hlast
    | ok value =>
      obtain ⟨next, hstep, hsound, -⟩ := install_done locks h ts heffect
      obtain ⟨more, hrun, -⟩ := installAll_through app locks hsound ts hdistinct.2 (done + 1)
        (seen ++ [⟨records, locks⟩])
      rw [hstep]
      simp only
      rw [hrun]
      exact List.mem_append_left _ hlast

/-! ## A whole commit -/

variable {txn decided : Transaction} {before after : Records} {held : LockTable} {c : Timestamp}

namespace Transaction

/-- What is shared at the moments of a commit that finds no key locked: before each of its storage
calls, and when it has returned. -/
def moments (app : MergeOperator) (txn : Transaction) (records : Records) : List (Shared Records) :=
  let left := (txn.commit (Engine.memory app.tuple).watched []
    (Shared.since ⟨records, LockTable.empty⟩ [])).shared
  left.stored.seen ++ [⟨left.stored.now, left.locks⟩]

/-- The records on the way of a commit from `before`: some reads have been checked, or all of them
have been and some writes have been made. -/
inductive Passes (app : MergeOperator) (decided : Transaction) (before : Records)
    (held : LockTable) : Records → Prop where
  | checking (n : Nat) :
      Passes app decided before held
        (before.refreshed decided.validationTime decided.isolation.extendsReads
          (decided.reads.entries.take n))
  | writing {n : Nat} {records : Records}
      (hinst : (decided.checked before held).Installed app decided.commitWts
        (decided.writes.entries.take n) records) :
      Passes app decided before held records

/-- What the part of a commit under the locks goes through, if the commit goes through. -/
theorem underLocks_watched (app : MergeOperator) (held : LockTable) (h : before.Sound)
    {ts : Timestamp}
    (htime : before.timeAfter txn.ready.writes.keys txn.ready.commitWts = .ok ts)
    (hgood : (txn.readyAt ts).firstFault before held = none) :
    ∃ more, txn.ready.underLocks (Engine.memory app.tuple).watched
        (Shared.since ⟨before, held⟩ []) =
          ⟨(txn.ready.underLocks (Engine.memory app.tuple) ⟨before, held⟩).answer,
            (txn.ready.underLocks (Engine.memory app.tuple) ⟨before, held⟩).txn,
            (txn.ready.underLocks (Engine.memory app.tuple) ⟨before, held⟩).after.since more⟩ ∧
      (∀ m ∈ more, (txn.readyAt ts).Passes app before held m.stored) ∧
      (txn.writes.isEmpty = false →
        ∃ m ∈ more, m.stored = (txn.readyAt ts).checked before held) := by
  have hat : ({ txn.ready with commitWts := ts } : Transaction) = txn.readyAt ts := rfl
  have hwts : (txn.readyAt ts).commitWts = ts := rfl
  have hsound := sound_checked h (txn.readyAt ts) held
  have hdistinct := (txn.readyAt ts).writes.distinct
  obtain ⟨first, htimes, hfirst⟩ := timeAfter_through app held h txn.ready.writes.keys
    txn.ready.commitWts []
  obtain ⟨second, hvalidate, hsecond⟩ := validateReads_through app held h (txn.readyAt ts) first
  obtain ⟨third, hwrites, hthird⟩ := installAll_through app held hsound ts hdistinct 0
    (first ++ second)
  refine ⟨first ++ second ++ third, ?_, ?_, ?_⟩
  · unfold underLocks chooseWriteTime
    rw [timeAfter_memory h.whole, htimes, htime, List.nil_append]
    simp only [hat]
    rw [hvalidate, validateReads_memory app held h.whole, hgood]
    simp only
    unfold writeAll
    rw [hwts, hwrites]
    rcases (Engine.memory app.tuple).installAll ts (txn.readyAt ts).writes.entries 0
      ⟨(txn.readyAt ts).checked before held, held⟩ with ⟨stop, left⟩
    cases stop <;> rfl
  · intro m hm
    rcases List.mem_append.mp hm with hm | hm
    · rcases List.mem_append.mp hm with hm | hm
      · rw [hfirst m hm]
        exact .checking 0
      · obtain ⟨n, hn⟩ := hsecond m hm
        rw [hn]
        exact .checking n
    · obtain ⟨n, hn⟩ := hthird m hm
      exact .writing hn
  · intro hbusy
    refine ⟨⟨(txn.readyAt ts).checked before held, held⟩, ?_, rfl⟩
    have hsome : (txn.readyAt ts).writes.entries ≠ [] := by
      rw [← WriteBuffer.isEmpty_sorted, ← txn.readyAt_writes ts] at hbusy
      unfold WriteBuffer.isEmpty at hbusy
      intro hnil
      rw [hnil] at hbusy
      cases hbusy
    have hmem := mem_seen_installAll app held hsound ts hdistinct hsome 0 (first ++ second)
    rw [hwrites] at hmem
    exact hmem

/-- The moments of a commit that goes through: the records pass from the old ones to the new ones,
and the last moment is when it has returned. -/
theorem moments_of_commit (h : before.Sound)
    (hcommit : (txn.commit (Engine.memory app.tuple) [] ⟨before, LockTable.empty⟩).answer =
      .ok (.committed c)) :
    ∃ held ts after more,
      CommitRun app txn before held (.ok (.committed c)) (txn.readyAt ts) after ∧
        (txn.commit (Engine.memory app.tuple) [] ⟨before, LockTable.empty⟩).shared =
          ⟨after, LockTable.empty⟩ ∧
        txn.moments app before = more ++ [⟨after, LockTable.empty⟩] ∧
        (∀ m ∈ more, (txn.readyAt ts).Passes app before held m.stored) ∧
        (txn.writes.isEmpty = false →
          ∃ m ∈ more, m.stored = (txn.readyAt ts).checked before held) := by
  have hactive : txn.isActive = true := by
    by_contra hnot
    unfold commit at hcommit
    rw [if_neg hnot] at hcommit
    cases hcommit
  obtain ⟨held, hlock, hrelease, -⟩ := LockTable.lockWaiting_free txn.id []
    txn.ready.writes.distinct (fun key _ => (rfl : LockTable.empty.holder? key = none))
  obtain ⟨answer, decided, after, hrun, hunder⟩ := underLocks_memory app held h txn
  have hplain := commit_of_locked _ hactive hlock hunder
  rw [hplain] at hcommit ⊢
  obtain rfl : answer = .ok (.committed c) := by
    cases answer with
    | error e => cases hcommit
    | ok outcome => cases hcommit; rfl
  obtain ⟨ts, htime, rfl, hgood, -, -⟩ := hrun.committed
  obtain ⟨more, hwatched, hmore, hwindow⟩ := underLocks_watched app held h htime hgood
  rw [hunder] at hwatched
  have hlast : txn.commit (Engine.memory app.tuple).watched []
      (Shared.since ⟨before, LockTable.empty⟩ []) = _ :=
    commit_of_locked _ hactive hlock hwatched
  refine ⟨held, ts, after, more, hrun, ?_, ?_, hmore, hwindow⟩
  · simp only
    rw [show held.releaseAll txn.ready.writes.keys txn.id = LockTable.empty from hrelease]
  · unfold moments
    rw [hlast]
    simp only
    rw [show held.releaseAll txn.ready.writes.keys txn.id = LockTable.empty from hrelease]

end Transaction

end StampStore
