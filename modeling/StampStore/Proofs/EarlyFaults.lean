-- Storage faults before the writes. When a storage call fails while a commit chooses its
-- times or checks its reads, the commit answers with the error of the call. How the
-- transaction ends is read off that error alone, so an engine whose error names an
-- incomplete commit makes it end as if some writes had been made.
import StampStore.Proofs.Failures
import StampStore.Proofs.Rosters

namespace StampStore

variable {σ : Type}

/-! ## Logged runs -/

/-- What is shared, with the calls that were made before. -/
def Shared.logged (shared : Shared σ) (log : List Event) : Shared (Recorded σ) :=
  ⟨⟨shared.stored, log⟩, shared.locks⟩

/-- The run over the engine with a log does what the plain run does, and it answers with the error of
any call that has failed. -/
inductive Logged {α : Type} (log : List Event) : Reply σ α → Reply (Recorded σ) α → Prop where
  | failed {e : Error} {after : Shared σ} {calls : List Event}
      (honly : ∀ call ∈ calls, ∀ e', call.answer = .error e' → e' = e) :
      Logged log (.error e, after) (.error e, after.logged (log ++ calls))
  | served {a : α} {after : Shared σ} {calls : List Event}
      (hnone : ∀ call ∈ calls, ∀ e, call.answer ≠ .error e) :
      Logged log (.ok a, after) (.ok a, after.logged (log ++ calls))

/-- Where no call is made nothing fails. -/
theorem logged_ok {α : Type} (log : List Event) (a : α) (shared : Shared σ) :
    Logged log (.ok a, shared) (.ok a, shared.logged log) := by
  have h : Logged log ((.ok a : Except Error α), shared) (.ok a, shared.logged (log ++ [])) :=
    .served fun _ hcall => absurd hcall List.not_mem_nil
  rwa [List.append_nil] at h

theorem logged_error {α : Type} (log : List Event) (e : Error) (shared : Shared σ) :
    Logged log ((.error e : Except Error α), shared) (.error e, shared.logged log) := by
  have h : Logged log ((.error e : Except Error α), shared)
      (.error e, shared.logged (log ++ [])) :=
    .failed fun _ hcall => absurd hcall List.not_mem_nil
  rwa [List.append_nil] at h

/-- After calls that have not failed those of the next part follow in the log. -/
theorem Logged.next {α : Type} {log first : List Event} {plain : Reply σ α}
    {run : Reply (Recorded σ) α} (hfirst : ∀ call ∈ first, ∀ e, call.answer ≠ .error e)
    (h : Logged (log ++ first) plain run) : Logged log plain run := by
  cases h with
  | failed honly =>
    rw [List.append_assoc]
    refine .failed fun call hcall e he => ?_
    rcases List.mem_append.mp hcall with hcall | hcall
    · exact absurd he (hfirst call hcall e)
    · exact honly call hcall e he
  | served hnone =>
    rw [List.append_assoc]
    refine .served fun call hcall => ?_
    rcases List.mem_append.mp hcall with hcall | hcall
    · exact hfirst call hcall
    · exact hnone call hcall

/-- Locks that are changed after the last call do not show in the log. -/
theorem Logged.mapLocks {α : Type} {log : List Event} {plain : Reply σ α}
    {run : Reply (Recorded σ) α} (h : Logged log plain run) (change : LockTable → LockTable) :
    Logged log (plain.1, { plain.2 with locks := change plain.2.locks })
      (run.1, { run.2 with locks := change run.2.locks }) := by
  cases h with
  | failed honly => exact .failed honly
  | served hnone => exact .served hnone

namespace Engine

variable (engine : Engine σ)

theorem record_logged {α : Type} (method : Method) (key : Key) (payload : Option Bytes)
    (found : α → Option Bytes) (call : Shared σ → Reply σ α) (shared : Shared σ)
    (log : List Event) :
    Logged log (call shared) (record method key payload found call (shared.logged log)) := by
  show Logged log (call shared) ((call shared).1, (call shared).2.logged
    (log ++ [⟨method, key, payload, shared.locks.holder? key, (call shared).1.map found⟩]))
  rcases call shared with ⟨answer, after⟩
  cases answer with
  | error e =>
    refine .failed fun event hevent e' he => ?_
    rw [List.mem_singleton.mp hevent] at he
    exact (Except.error.inj he).symm
  | ok a =>
    refine .served fun event hevent e he => ?_
    rw [List.mem_singleton.mp hevent] at he
    cases he

/-! ## Choosing the write time -/

theorem fetchStamp_logged (key : Key) (shared : Shared σ) (log : List Event) :
    Logged log (engine.fetchStamp key shared)
      (engine.recorded.fetchStamp key (shared.logged log)) := by
  have hlook : Logged log (engine.lookupRaw key shared)
      (engine.recorded.lookupRaw key (shared.logged log)) :=
    record_logged .lookupRaw key none id (engine.lookupRaw key) shared log
  unfold fetchStamp
  generalize engine.lookupRaw key shared = plain,
    engine.recorded.lookupRaw key (shared.logged log) = run at hlook
  cases hlook with
  | failed honly => exact .failed honly
  | @served record after calls hnone =>
    cases record with
    | none => exact .served hnone
    | some record =>
      simp only
      -- a record that cannot be read is an error of the commit, but of no call
      cases Tuple.ofRecord key record with
      | error e => exact (logged_error _ e after).next hnone
      | ok t => exact .served hnone

theorem timeAfter_logged (keys : List Key) (ts : Timestamp) (shared : Shared σ)
    (log : List Event) :
    Logged log (engine.timeAfter keys ts shared)
      (engine.recorded.timeAfter keys ts (shared.logged log)) := by
  induction keys generalizing ts shared log with
  | nil => exact logged_ok log _ shared
  | cons key keys ih =>
    have hlook := engine.fetchStamp_logged key shared log
    unfold timeAfter
    generalize engine.fetchStamp key shared = plain,
      engine.recorded.fetchStamp key (shared.logged log) = run at hlook
    cases hlook with
    | failed honly => exact .failed honly
    | @served stamp after calls hnone =>
      simp only
      cases (stamp.getD Stamp.zero).rts.next? with
      | none => exact .served hnone
      | some next => exact (ih (max ts next) after (log ++ calls)).next hnone

/-! ## Checking the reads -/

section Checks

variable (ts : Timestamp) (extend : Bool) (entry : ReadEntry)

theorem extendRts_logged (key : Key) (current : Option Stamp) (shared : Shared σ)
    (log : List Event) :
    Logged log (engine.extendRts key ts current shared)
      (engine.recorded.extendRts key ts current (shared.logged log)) := by
  unfold extendRts
  cases current with
  | none => exact logged_ok log _ shared
  | some stamp =>
    simp only
    split
    · exact record_logged .update key (some ts.encode) (fun _ => none)
        (engine.update key ts.encode) shared log
    · exact logged_ok log _ shared

theorem close_logged (current : Option Stamp) (shared : Shared σ) (log : List Event) :
    Logged log (checkLocked.close engine ts extend entry current shared)
      (checkLocked.close engine.recorded ts extend entry current (shared.logged log)) := by
  have hextend := engine.extendRts_logged ts entry.key current shared log
  unfold checkLocked.close
  split
  · generalize engine.extendRts entry.key ts current shared = plain,
      engine.recorded.extendRts entry.key ts current (shared.logged log) = run at hextend
    cases hextend with
    | failed honly => exact .failed honly
    | served hnone => exact .served hnone
  · exact logged_ok log _ shared

theorem checkLocked_logged (lockedNow : Bool) (current : Option Stamp) (shared : Shared σ)
    (log : List Event) :
    Logged log (engine.checkLocked ts extend entry lockedNow current shared)
      (engine.recorded.checkLocked ts extend entry lockedNow current (shared.logged log)) := by
  have hlook := engine.fetchStamp_logged entry.key shared log
  unfold checkLocked
  split
  · generalize engine.fetchStamp entry.key shared = plain,
      engine.recorded.fetchStamp entry.key (shared.logged log) = run at hlook
    cases hlook with
    | failed honly => exact .failed honly
    | @served current after calls hnone =>
      simp only
      cases entry.conflictWith? current with
      | some conflict => exact .served hnone
      | none => exact (engine.close_logged ts extend entry current after _).next hnone
  · exact engine.close_logged ts extend entry current shared log

theorem checkRead_logged (owner : TxnId) (shared : Shared σ) (log : List Event) :
    Logged log (engine.checkRead owner ts extend entry shared)
      (engine.recorded.checkRead owner ts extend entry (shared.logged log)) := by
  have hlook := engine.fetchStamp_logged entry.key shared log
  unfold checkRead
  split
  · exact logged_ok log _ shared
  · generalize engine.fetchStamp entry.key shared = plain,
      engine.recorded.fetchStamp entry.key (shared.logged log) = run at hlook
    cases hlook with
    | failed honly => exact .failed honly
    | @served current after calls hnone =>
      simp only
      cases entry.conflictWith? current with
      | some conflict => exact .served hnone
      | none =>
        simp only [Shared.logged]
        rcases after.locks.tryAcquire entry.key owner with ⟨outcome, locks⟩
        cases outcome with
        | busy => exact .served hnone
        | deadlock =>
          exact (engine.checkLocked_logged ts extend entry false current after _).next hnone
        | acquired =>
          exact ((engine.checkLocked_logged ts extend entry true current { after with locks }
            _).mapLocks fun locks => (locks.release entry.key owner).2).next hnone

theorem checkReads_logged (owner : TxnId) (entries : List ReadEntry) (shared : Shared σ)
    (log : List Event) :
    Logged log (engine.checkReads owner ts extend entries shared)
      (engine.recorded.checkReads owner ts extend entries (shared.logged log)) := by
  induction entries generalizing shared log with
  | nil => exact logged_ok log _ shared
  | cons entry entries ih =>
    have hfirst := engine.checkRead_logged ts extend entry owner shared log
    unfold checkReads
    generalize engine.checkRead owner ts extend entry shared = plain,
      engine.recorded.checkRead owner ts extend entry (shared.logged log) = run at hfirst
    cases hfirst with
    | failed honly => exact .failed honly
    | @served found after calls hnone =>
      cases found with
      | some conflict => exact .served hnone
      | none => exact (ih after (log ++ calls)).next hnone

end Checks

end Engine

/-! ## Commits that meet a fault before they write -/

namespace Transaction

variable (engine : Engine σ) (txn : Transaction)

theorem chooseWriteTime_logged (shared : Shared σ) (log : List Event) :
    let plain := txn.chooseWriteTime engine shared
    let run := txn.chooseWriteTime engine.recorded (shared.logged log)
    run.txn = plain.txn ∧ Logged log (plain.answer, plain.after) (run.answer, run.after) := by
  have htime := engine.timeAfter_logged txn.writes.keys txn.commitWts shared log
  unfold chooseWriteTime
  generalize engine.timeAfter txn.writes.keys txn.commitWts shared = plain,
    engine.recorded.timeAfter txn.writes.keys txn.commitWts (shared.logged log) = run at htime
  cases htime with
  | failed honly => exact ⟨rfl, .failed honly⟩
  | @served found after calls hnone => cases found <;> exact ⟨rfl, .served hnone⟩

theorem prepare_logged (shared : Shared σ) (log : List Event) :
    let plain := txn.prepare engine shared
    let run := txn.prepare engine.recorded (shared.logged log)
    Logged log (plain.answer, plain.after) (run.answer, run.after) := by
  obtain ⟨hsame, hchoose⟩ := txn.chooseWriteTime_logged engine shared log
  unfold prepare
  generalize txn.chooseWriteTime engine shared = plain,
    txn.chooseWriteTime engine.recorded (shared.logged log) = run at hsame hchoose
  obtain ⟨answer, chosen, after⟩ := plain
  obtain ⟨answer', chosen', after'⟩ := run
  simp only at hsame hchoose
  subst hsame
  cases hchoose with
  | failed honly => exact .failed honly
  | @served found after calls hnone =>
    cases found with
    | some conflict => exact .served hnone
    | none =>
      exact (engine.checkReads_logged chosen'.validationTime chosen'.isolation.extendsReads
        chosen'.id chosen'.reads.entries after (log ++ calls)).next hnone

/-- The commit gets its locks, and of the storage calls that it makes to choose its times and to check
its reads one fails with `e`. -/
def FaultsEarly (rounds : List LockTable.Releases) (shared : Shared σ) (e : Error) : Prop :=
  ∃ held retries,
    LockTable.lockWaiting txn.ready.writes.keys txn.id rounds shared.locks =
      some (held, retries) ∧
    let before : Shared (Recorded σ) := ⟨⟨shared.stored, []⟩, held⟩
    ∃ call ∈ (txn.ready.prepare engine.recorded before).after.stored.log, call.answer = .error e

theorem finalStatus_of_other {e : Error}
    (h : ∀ id applied total source, e ≠ .incompleteCommit id applied total source) :
    finalStatus (.error e) = .aborted .storageFault := by
  cases e with
  | incompleteCommit id applied total source => exact absurd rfl (h id applied total source)
  | _ => rfl

variable {engine : Engine σ} {txn : Transaction}

/-- The error of the call is the answer of the commit, and decides where the transaction stands. -/
theorem commit_of_faultsEarly (hactive : txn.isActive = true) {rounds : List LockTable.Releases}
    {shared : Shared σ} {e : Error} (h : txn.FaultsEarly engine rounds shared e) :
    ∃ (decided : Transaction) (after : Shared σ) (retries : Nat),
      txn.commit engine rounds shared =
        ⟨.error (.error e), decided.finish (finalStatus (.error e)), after, retries⟩ := by
  obtain ⟨held, retries, hlock, call, hcall, hanswer⟩ := h
  have hlogged := txn.ready.prepare_logged engine ⟨shared.stored, held⟩ []
  have hunder := txn.ready.underLocks_eq engine ⟨shared.stored, held⟩
  simp only [Shared.logged] at hlogged
  generalize txn.ready.prepare engine.recorded ⟨⟨shared.stored, []⟩, held⟩ = run
    at hlogged hcall
  generalize txn.ready.prepare engine ⟨shared.stored, held⟩ = plain at hlogged hunder
  obtain ⟨answer, decided, after⟩ := plain
  obtain ⟨answer', decided', after'⟩ := run
  simp only at hlogged hcall
  cases hlogged with
  | failed honly =>
    obtain rfl := honly call hcall e hanswer
    exact ⟨decided, _, retries, commit_of_locked engine hactive hlock hunder⟩
  | served hnone => exact absurd hanswer (hnone call hcall e)

end Transaction

theorem Counters.finish_storageFault (c : Counters) :
    c.finish .storageFault = { c.land with faults := c.faults + 1 } := by
  rw [finish_eq, land_eq]
  rfl

theorem Counters.finish_partiallyApplied (c : Counters) :
    c.finish .partiallyApplied = { c.land with partially := c.partially + 1 } := by
  rw [finish_eq, land_eq]
  rfl

/-- Over any engine, when a storage call fails before the writes: the commit answers with the error
of the call. The transaction ends as aborted by storage and counts as one fault, unless the error
names an incomplete commit; then it ends as partially applied, with the numbers of the error, and
counts as that. -/
theorem early_fault_aborts_iff_it_names_no_incomplete_commit (db : Database σ) {txn : Transaction}
    (hactive : txn.isActive = true) (rounds : List LockTable.Releases) {state : State σ} {e : Error}
    (hfault : txn.FaultsEarly db.engine rounds state.shared e) :
    let left := db.commit rounds txn state
    left.answer = .error (.error e) ∧
      ((left.txn.status = .aborted .storageFault ∧
          left.after.counters =
            { state.counters.land with faults := state.counters.faults + 1 }) ↔
        ∀ id applied total source, e ≠ .incompleteCommit id applied total source) ∧
      ∀ id applied total source, e = .incompleteCommit id applied total source →
        left.txn.status = .partiallyApplied applied total ∧
          left.after.counters =
            { state.counters.land with partially := state.counters.partially + 1 } := by
  intro left
  obtain ⟨decided, after, retries, hcommit⟩ := Transaction.commit_of_faultsEarly hactive hfault
  have hleft : left = _ := Database.commit_active hactive hcommit
  have hstatus : left.txn.status = Transaction.finalStatus (.error e) :=
    congrArg (fun left => left.txn.status) hleft
  have hcounters : left.after.counters =
      ((Transaction.finalStatus (.error e)).ending? txn.writes.isEmpty).elim state.counters
        state.counters.finish := by
    rw [← ending_finish decided]
    exact congrArg (fun left => left.after.counters) hleft
  refine ⟨congrArg Turn.answer hleft, ⟨?_, ?_⟩, ?_⟩
  · rintro ⟨haborted, -⟩ id applied total source rfl
    rw [hstatus] at haborted
    cases haborted
  · intro hother
    have hfinal := Transaction.finalStatus_of_other hother
    refine ⟨hstatus.trans hfinal, ?_⟩
    rw [hcounters, hfinal]
    exact state.counters.finish_storageFault
  · rintro id applied total source rfl
    refine ⟨hstatus, ?_⟩
    rw [hcounters]
    exact state.counters.finish_partiallyApplied

/-- A commit at time 6 with two reads to check. The fourth storage call fails, the one that raises the
read time of the first: the commit is aborted by storage. -/
theorem fault_among_the_checks_aborts :
    let k : Key := ⟨[107]⟩
    let l : Key := ⟨[108]⟩
    let m : Key := ⟨[109]⟩
    let old := Tuple.make ⟨1, 1⟩ [49]
    let records : Records := ((KeyMap.empty.insert k old.bytes).insert l old.bytes).insert m
      (Tuple.make ⟨5, 5⟩ [50]).bytes
    let txn : Transaction := { Transaction.start 1 .serializable with
      reads := ⟨[⟨k, old⟩, ⟨l, old⟩]⟩
      writes := ⟨[⟨m, .insert, Tuple.unstamped [51]⟩], by decide⟩ }
    let e : Error := .storage "lost"
    let db := (Database.under .replace).faulty
    let state : State (Faulty Records) :=
      State.initial ⟨records, [none, none, none, some e]⟩ .serializable
    let left := db.commit [] txn state
    txn.FaultsEarly db.engine [] state.shared e ∧ left.answer = .error (.error e) ∧
      left.txn.status = .aborted .storageFault ∧ left.after.counters.faults = 1 ∧
      left.after.counters.partially = 0 := by
  intro k l m old records txn e db state left
  have hfault : txn.FaultsEarly db.engine [] state.shared e :=
    ⟨(LockTable.empty.lockAll txn.ready.writes.keys txn.id).2, 0, rfl, by decide +kernel⟩
  obtain ⟨hanswer, hends, -⟩ :=
    early_fault_aborts_iff_it_names_no_incomplete_commit db (by rfl : txn.isActive = true) [] hfault
  obtain ⟨hstatus, hcounters⟩ := hends.mpr (fun id applied total source => by simp [e])
  refine ⟨hfault, hanswer, hstatus, ?_, ?_⟩
  · rw [hcounters]
    rfl
  · rw [hcounters]
    rfl

/-- The first look at the only written key fails, and the error names an incomplete commit. Nothing
has been written, but the transaction ends as partially applied and counts as that. -/
theorem fault_before_any_write_counts_as_partially_applied :
    let k : Key := ⟨[107]⟩
    let e : Error := .incompleteCommit 9 1 2 (.storage "lost")
    let txn : Transaction := { Transaction.start 1 .serializable with
      writes := ⟨[⟨k, .insert, Tuple.unstamped [49]⟩], by decide⟩ }
    let db := (Database.under .replace).faulty
    let state : State (Faulty Records) := State.initial ⟨KeyMap.empty, [some e]⟩ .serializable
    let left := db.commit [] txn state
    txn.isActive = true ∧ txn.FaultsEarly db.engine [] state.shared e ∧
      left.answer = .error (.error e) ∧ left.txn.status = .partiallyApplied 1 2 ∧
      left.after.shared.stored.stored.entries = [] ∧ left.after.counters.faults = 0 ∧
      left.after.counters.partially = 1 := by
  intro k e txn db state left
  have hfault : txn.FaultsEarly db.engine [] state.shared e :=
    ⟨(LockTable.empty.lockAll txn.ready.writes.keys txn.id).2, 0, rfl, by decide +kernel⟩
  exact ⟨rfl, hfault, by decide +kernel, by decide +kernel, by decide +kernel, by decide +kernel,
    by decide +kernel⟩

end StampStore
