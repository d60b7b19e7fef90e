-- Work that is run until its commit goes through. Every run of the loop is noted, with
-- the transaction that it was given and with what it has left. A run is followed by
-- another one if its commit has met a conflict that may pass, so only the last run can
-- have written, and how it has ended is the answer of the loop.
import StampStore.Proofs.Accesses
import StampStore.Proofs.Plans
import StampStore.Proofs.LockBalance
import StampStore.Proofs.PartialWrites
import StampStore.Proofs.Rosters

namespace StampStore

variable {σ ρ α : Type}

/-! ## Noted runs -/

/-- One run of some work: the transaction and the store that it is given, and what it leaves. -/
structure Attempt (σ ρ α : Type) where
  given : Transaction
  found : State σ
  left : Run σ ρ α

namespace Work

/-- The next run of the work, in a new transaction. -/
def attempt (work : Work σ ρ α) (state : State σ) (kept : ρ) : Attempt σ ρ α :=
  ⟨state.begin.1, state.begin.2, work state.begin.1 state.begin.2 kept⟩

/-- The work with a note of each of its runs, beside what it keeps for itself. -/
def noting (work : Work σ ρ α) : Work σ (ρ × List (Attempt σ ρ α)) α := fun txn state kept =>
  let left := work txn state kept.1
  ⟨left.answer, left.txn, left.state, (left.kept, kept.2 ++ [⟨txn, state, left⟩])⟩

end Work

namespace Attempt

variable (db : Database σ) (a : Attempt σ ρ α)

/-- The commit of the transaction as the run has left it. -/
def commit : Turn (State σ) (Except Failure Outcome) := db.commit [] a.left.txn a.left.state

/-- The transaction and the store when the loop has dealt with the run. -/
def ended : Transaction × State σ :=
  match a.left.answer with
  | .ok _ => ((a.commit db).txn, (a.commit db).after)
  | .error (.error _) => a.left.state.abort a.left.txn
  | .error _ => (a.left.txn, a.left.state)

/-- What comes of the run: a failure, a value, or the reason of an abort. -/
def verdict : Except Failure (Except AbortReason α) :=
  match a.left.answer with
  | .error failure => .error failure
  | .ok value =>
    match (a.commit db).answer with
    | .error failure => .error failure
    | .ok (.committed _) => .ok (.ok value)
    | .ok (.aborted reason) => .ok (.error reason)

/-- The answer of the loop if this is the last of `runs` runs. -/
def answer (runs : Nat) : Except Failure α :=
  match a.verdict db with
  | .error failure => .error failure
  | .ok (.ok value) => .ok value
  | .ok (.error reason) => .error (.error (.givenUp (.afterRuns reason runs)))

/-- The run has answered `value`, and its commit has gone through. -/
def Committed (value : α) : Prop :=
  a.left.answer = .ok value ∧ ∃ ts, (a.commit db).answer = .ok (.committed ts)

/-- The run has answered, and its commit was aborted. -/
def Refused (reason : AbortReason) : Prop :=
  (∃ value, a.left.answer = .ok value) ∧ (a.commit db).answer = .ok (.aborted reason)

variable {db a}

theorem verdict_eq_value {value : α} :
    a.verdict db = .ok (.ok value) ↔ a.Committed db value := by
  unfold verdict Committed
  rcases a.left.answer with failure | value'
  · simp
  · rcases (a.commit db).answer with failure | ts | reason <;> simp

theorem verdict_eq_reason {reason : AbortReason} :
    a.verdict db = .ok (.error reason) ↔ a.Refused db reason := by
  unfold verdict Refused
  rcases a.left.answer with failure | value
  · simp
  · rcases (a.commit db).answer with failure | ts | reason' <;> simp

end Attempt

/-! ## The loop -/

namespace Database

variable {db : Database σ} {work : Work σ ρ α}

theorem runOnce_attempt (db : Database σ) (work : Work σ ρ α) (state : State σ) (kept : ρ) :
    db.runOnce work state kept =
      ⟨(work.attempt state kept).verdict db, ((work.attempt state kept).ended db).2,
        (work.attempt state kept).left.kept⟩ := by
  unfold runOnce Attempt.verdict Attempt.ended Attempt.commit Work.attempt
  generalize state.begin = begun
  obtain ⟨txn, found⟩ := begun
  simp only
  generalize work txn found kept = left
  obtain ⟨answer, txn, after, rest⟩ := left
  rcases answer with (e | m | _) | value
  · rfl
  · rfl
  · rfl
  · simp only
    rcases db.commit [] txn after with ⟨answer, finished, after⟩
    rcases answer with failure | ts | reason <;> rfl

section Steps

variable (db work) {left runs : Nat} {state : State σ} {kept : ρ} {a : Attempt σ ρ α}

/-- The loop ends with a run, unless this was refused for a reason that may pass and more runs are
allowed. -/
theorem runRetrying_last (ha : work.attempt state kept = a)
    (hspent : ∀ reason, a.Refused db reason → reason.isRetryable = true → left = 0) :
    db.runRetrying work left runs state kept =
      ⟨a.answer db (runs + 1), (a.ended db).2, a.left.kept⟩ := by
  rw [runRetrying_eq, runOnce_attempt, ha]
  unfold Attempt.answer
  rcases hverdict : a.verdict db with failure | reason | value
  · rfl
  · have hstop : ¬ (0 < left ∧ reason.isRetryable = true) := by
      rintro ⟨hleft, hretry⟩
      exact Nat.ne_of_gt hleft (hspent reason (Attempt.verdict_eq_reason.mp hverdict) hretry)
    simp only [if_neg hstop]
  · rfl

theorem runRetrying_again (ha : work.attempt state kept = a) {reason : AbortReason}
    (hrefused : a.Refused db reason) (hretry : reason.isRetryable = true) :
    db.runRetrying work (left + 1) runs state kept =
      db.runRetrying work left (runs + 1) (a.ended db).2 a.left.kept := by
  rw [runRetrying_eq, runOnce_attempt, ha, Attempt.verdict_eq_reason.mpr hrefused]
  simp only [if_pos (And.intro left.succ_pos hretry), Nat.add_sub_cancel]

/-- Work that is not run again has one run noted. -/
theorem noted_once {policy : RetryPolicy}
    (hspent : ∀ reason, (work.attempt state kept).Refused db reason → reason.isRetryable = true →
      policy.maxRetries.toNat = 0) :
    (db.transactionWith policy work.noting state (kept, [])).kept.2 =
      [work.attempt state kept] := by
  have hlast : db.transactionWith policy work.noting state (kept, []) = _ :=
    runRetrying_last db work.noting rfl hspent
  rw [hlast]
  rfl

end Steps

/-- The runs of the loop, the earlier ones and the last one, when `left` more are allowed after the
next. -/
inductive Series (db : Database σ) (work : Work σ ρ α) :
    Nat → State σ → ρ → List (Attempt σ ρ α) → Attempt σ ρ α → Prop where
  | last {left : Nat} {state : State σ} {kept : ρ}
      (hspent : ∀ reason, (work.attempt state kept).Refused db reason →
        reason.isRetryable = true → left = 0) :
      Series db work left state kept [] (work.attempt state kept)
  | again {left : Nat} {state : State σ} {kept : ρ} {reason : AbortReason}
      {earlier : List (Attempt σ ρ α)} {last : Attempt σ ρ α}
      (hrefused : (work.attempt state kept).Refused db reason)
      (hretry : reason.isRetryable = true)
      (hrest : Series db work left ((work.attempt state kept).ended db).2
        (work.attempt state kept).left.kept earlier last) :
      Series db work (left + 1) state kept (work.attempt state kept :: earlier) last

/-- What the loop does is a series of runs, and the work that notes its runs notes these. -/
theorem runRetrying_series (db : Database σ) (work : Work σ ρ α) (left runs : Nat)
    (state : State σ) (kept : ρ) :
    ∃ earlier last, db.Series work left state kept earlier last ∧
      db.runRetrying work left runs state kept =
        ⟨last.answer db (runs + (earlier.length + 1)), (last.ended db).2, last.left.kept⟩ ∧
      ∀ notes, db.runRetrying work.noting left runs state (kept, notes) =
        ⟨last.answer db (runs + (earlier.length + 1)), (last.ended db).2,
          (last.left.kept, notes ++ (earlier ++ [last]))⟩ := by
  -- the loop ends with the next run, or spends one of the runs that are left
  induction left using Nat.strong_induction_on generalizing runs state kept with
  | _ left ih =>
    by_cases hspent : ∀ reason, (work.attempt state kept).Refused db reason →
        reason.isRetryable = true → left = 0
    · exact ⟨[], _, .last hspent, runRetrying_last db work rfl hspent,
        fun notes => runRetrying_last db work.noting rfl hspent⟩
    · obtain ⟨reason, hrefused, hretry, hleft⟩ : ∃ reason,
          (work.attempt state kept).Refused db reason ∧ reason.isRetryable = true ∧ left ≠ 0 := by
        simpa using hspent
      obtain ⟨left, rfl⟩ := Nat.exists_eq_succ_of_ne_zero hleft
      obtain ⟨earlier, last, hseries, hplain, hnoting⟩ := ih left left.lt_succ_self (runs + 1)
        ((work.attempt state kept).ended db).2 (work.attempt state kept).left.kept
      have hruns : runs + 1 + (earlier.length + 1) = runs + (earlier.length + 1 + 1) := by omega
      refine ⟨work.attempt state kept :: earlier, last, .again hrefused hretry hseries, ?_,
        fun notes => ?_⟩
      · rw [runRetrying_again db work rfl hrefused hretry, hplain, hruns, List.length_cons]
      · rw [List.length_cons, ← hruns, List.cons_append, List.append_cons]
        refine Eq.trans ?_ (hnoting (notes ++ [work.attempt state kept]))
        exact runRetrying_again db work.noting rfl hrefused hretry

namespace Series

variable {left : Nat} {state : State σ} {kept : ρ} {earlier : List (Attempt σ ρ α)}
  {last : Attempt σ ρ α}

theorem length_le (h : db.Series work left state kept earlier last) : earlier.length ≤ left := by
  induction h with
  | last => exact Nat.zero_le _
  | again _ _ _ ih => exact Nat.succ_le_succ ih

theorem first (h : db.Series work left state kept earlier last) :
    (earlier ++ [last])[0]? = some (work.attempt state kept) := by
  cases h <;> rfl

/-- All of them are runs of the work in a new transaction. -/
theorem made (h : db.Series work left state kept earlier last) :
    ∀ a ∈ earlier ++ [last], ∃ state kept, a = work.attempt state kept := by
  induction h with
  | last => exact fun a ha => ⟨_, _, List.mem_singleton.mp ha⟩
  | again _ _ _ ih =>
    intro a ha
    rcases List.mem_cons.mp ha with rfl | ha
    · exact ⟨_, _, rfl⟩
    · exact ih a ha

/-- The earlier ones were refused for reasons that may pass. -/
theorem refused (h : db.Series work left state kept earlier last) :
    ∀ a ∈ earlier, ∃ reason, a.Refused db reason ∧ reason.isRetryable = true := by
  induction h with
  | last => exact fun a ha => absurd ha List.not_mem_nil
  | again hrefused hretry _ ih =>
    intro a ha
    rcases List.mem_cons.mp ha with rfl | ha
    · exact ⟨_, hrefused, hretry⟩
    · exact ih a ha

/-- Each run begins in the store that the one before it has left. -/
theorem follows (h : db.Series work left state kept earlier last) {i : Nat}
    {a b : Attempt σ ρ α} (ha : (earlier ++ [last])[i]? = some a)
    (hb : (earlier ++ [last])[i + 1]? = some b) :
    a ∈ earlier ∧ (b.given, b.found) = (a.ended db).2.begin := by
  induction h generalizing i with
  | last => cases hb
  | again _ _ hrest ih =>
    cases i with
    | zero =>
      cases ha
      rw [List.cons_append, List.getElem?_cons_succ, hrest.first] at hb
      cases hb
      exact ⟨List.mem_cons_self, rfl⟩
    | succ i =>
      obtain ⟨hmem, hbegun⟩ := ih ha hb
      exact ⟨List.mem_cons_of_mem _ hmem, hbegun⟩

/-- A last run that was refused for a reason that may pass has used up what was allowed. -/
theorem spent (h : db.Series work left state kept earlier last) {reason : AbortReason}
    (hrefused : last.Refused db reason) (hretry : reason.isRetryable = true) :
    earlier.length = left := by
  induction h with
  | last hspent => exact (hspent reason hrefused hretry).symm
  | again _ _ _ ih => exact congrArg (· + 1) (ih hrefused)

end Series

end Database

/-! ## Commits -/

namespace Records

theorem SameVersions.trans {a b c : Records} (hab : a.SameVersions b) (hbc : b.SameVersions c) :
    a.SameVersions c where
  present key := (hbc.present key).trans (hab.present key)
  value key := (hbc.value key).trans (hab.value key)
  wts key := (hbc.wts key).trans (hab.wts key)

end Records

theorem frame_sameVersions (merge : MergeOperator) :
    (Engine.memory merge).Frame Records.SameVersions where
  refl := Records.sameVersions_refl
  trans := Records.SameVersions.trans
  lookupRaw _ shared := Records.sameVersions_refl shared.stored

theorem raises_sameVersions (app : MergeOperator) (key : Key) (ts : Timestamp) :
    (Engine.memory app.tuple).Raises Records.SameVersions key ts :=
  fun shared => (raises_memory app (List.mem_singleton_self key) shared).sameVersions

/-- A commit moves the state of the engine along a frame before its writes. -/
theorem Engine.Frame.prepare {engine : Engine σ} {R : σ → σ → Prop} (h : engine.Frame R)
    (hraise : ∀ key ts, engine.Raises R key ts) (txn : Transaction) (shared : Shared σ) :
    R shared.stored (txn.prepare engine shared).after.stored := by
  have hchoose := (h.walk txn.id).chooseWriteTime txn shared
  unfold Transaction.prepare
  generalize txn.chooseWriteTime engine shared = chosen at hchoose ⊢
  obtain ⟨answer, next, after⟩ := chosen
  rcases answer with e | _ | conflict
  · exact hchoose
  · exact h.trans hchoose (h.checkReads next.id (fun _ entry _ => hraise entry.key _) after).moved
  · exact hchoose

namespace Transaction

variable {engine : Engine σ} {txn : Transaction} {rounds : List LockTable.Releases}
  {shared : Shared σ}

/-- A commit that is aborted has met a conflict, and has not come to its writes. -/
theorem commit_refused {R : σ → σ → Prop} (hframe : engine.Frame R)
    (hraise : ∀ key ts, engine.Raises R key ts) (hactive : txn.isActive = true)
    {reason : AbortReason} (h : (txn.commit engine rounds shared).answer = .ok (.aborted reason)) :
    R shared.stored (txn.commit engine rounds shared).shared.stored ∧
      ∃ conflict, reason = .conflict conflict := by
  cases hlock : LockTable.lockWaiting txn.ready.writes.keys txn.id rounds shared.locks with
  | none =>
    rw [commit_blocked hactive hlock] at h
    cases h
  | some locked =>
    have hends : EndsAfter (txn.ready.prepare engine { shared with locks := locked.1 })
        (txn.commit engine rounds shared) := commit_endsAfter hactive hlock
    have hmoved := hframe.prepare hraise txn.ready { shared with locks := locked.1 }
    generalize txn.commit engine rounds shared = left at h hends ⊢
    generalize txn.ready.prepare engine { shared with locks := locked.1 } = part at hends hmoved
    cases hends with
    | failed hanswer =>
      rw [hanswer] at h
      cases h
    | refused hanswer _ hstored =>
      rw [hanswer] at h
      cases h
      exact ⟨hstored ▸ hmoved, _, rfl⟩
    | written hanswer =>
      rw [h] at hanswer
      rcases hanswer with ⟨ts, hanswer⟩ | ⟨_, _, _, _, hanswer⟩ <;> cases hanswer

theorem underLocks_id (engine : Engine σ) (txn : Transaction) (shared : Shared σ) :
    (txn.underLocks engine shared).txn.id = txn.id := by
  obtain ⟨ts, hprepared⟩ := txn_prepare engine txn shared
  have hid := congrArg id hprepared
  rw [underLocks_eq]
  generalize txn.prepare engine shared = part at hid ⊢
  obtain ⟨answer, decided, after⟩ := part
  rcases answer with e | _ | conflict <;> exact hid

theorem commit_id (engine : Engine σ) (txn : Transaction) (rounds : List LockTable.Releases)
    (shared : Shared σ) : (txn.commit engine rounds shared).txn.id = txn.id := by
  cases hactive : txn.isActive with
  | false =>
    unfold commit
    rw [hactive]
    rfl
  | true =>
    cases hlock : LockTable.lockWaiting txn.ready.writes.keys txn.id rounds shared.locks with
    | none => rw [commit_of_blocked engine hactive hlock]
    | some locked =>
      have hid := underLocks_id engine txn.ready ⟨shared.stored, locked.1⟩
      rcases hunder : txn.ready.underLocks engine ⟨shared.stored, locked.1⟩ with
        ⟨answer, decided, after⟩
      rw [hunder, ready_id] at hid
      exact (congrArg (·.txn.id) (commit_of_locked engine hactive hlock hunder)).trans hid

end Transaction

/-- The ways a commit can go that the store is asked for: it is refused, waits for ever, or ends the
transaction. -/
inductive Database.CommitGoes (db : Database σ) (rounds : List LockTable.Releases)
    (txn : Transaction) (state : State σ) : Turn (State σ) (Except Failure Outcome) → Prop where
  | refused (hactive : txn.isActive = false) :
      CommitGoes db rounds txn state ⟨.error (.error txn.notActive), txn, state⟩
  | waits {after : State σ} {retries : Nat} (hactive : txn.isActive = true)
      (hcommit : txn.commit db.engine rounds state.shared =
        ⟨.error .blocked, txn, after.shared, retries⟩) :
      CommitGoes db rounds txn state ⟨.error .blocked, txn, after⟩
  | ended {answer : Except Error Outcome} {decided : Transaction} {after : State σ}
      {retries : Nat} (hactive : txn.isActive = true)
      (hcommit : txn.commit db.engine rounds state.shared =
        ⟨answer.mapError .error, decided.finish (Transaction.finalStatus answer), after.shared,
          retries⟩) :
      CommitGoes db rounds txn state
        ⟨answer.mapError .error, decided.finish (Transaction.finalStatus answer), after⟩

theorem Database.commitGoes_commit (db : Database σ) (rounds : List LockTable.Releases)
    (txn : Transaction) (state : State σ) :
    db.CommitGoes rounds txn state (db.commit rounds txn state) := by
  cases hactive : txn.isActive with
  | false =>
    rw [(refuses_of_inactive db hactive state).commit rounds]
    exact .refused hactive
  | true =>
    rcases commit_exits db.engine hactive rounds state.shared with
      hcommit | ⟨answer, decided, after, retries, hcommit⟩
    · rw [Database.commit_active hactive hcommit]
      exact .waits hactive hcommit
    · rw [Database.commit_active hactive hcommit]
      exact .ended hactive hcommit

/-! ## Transactions in the hands of some work -/

/-- The transaction has ended. -/
inductive Status.Final : Status → Prop where
  | committed : Final .committed
  | aborted (reason : AbortReason) : Final (.aborted reason)
  | partiallyApplied (applied total : Nat) : Final (.partiallyApplied applied total)

theorem final_finalStatus (answer : Except Error Outcome) :
    (Transaction.finalStatus answer).Final := by
  rcases answer with e | ts | reason
  · cases e with
    | incompleteCommit id applied total source => exact .partiallyApplied applied total
    | _ => exact .aborted .storageFault
  · exact .committed
  · exact .aborted reason

/-- What can be done with a transaction without its commit: requests that anything may serve, aborts,
and the choice of its times. -/
inductive Transaction.Handled : Transaction → Transaction → Prop where
  | refl (txn : Transaction) : Handled txn txn
  | served {τ : Type} {txn after : Transaction} (service : Service τ) (request : Request)
      (hrest : Handled (service.serve txn request).2 after) : Handled txn after
  | aborted {txn after : Transaction} (hrest : Handled txn.abort after) : Handled txn after
  | readTimeChosen {txn after : Transaction} (hrest : Handled txn.chooseReadTime after) :
      Handled txn after
  | writeTimeChosen {τ : Type} {txn after : Transaction} (engine : Engine τ) (shared : Shared τ)
      (hrest : Handled (txn.chooseWriteTime engine shared).txn after) : Handled txn after

/-- The transaction is active, or it was aborted as asked for. -/
def Status.Uncommitted (status : Status) : Prop :=
  status = .active ∨ status = .aborted .requested

/-- A request is no end of the transaction. -/
theorem Service.status_serve (service : Service σ) (txn : Transaction) (request : Request) :
    (service.serve txn request).2.id = txn.id ∧
      (service.serve txn request).2.status = txn.status := by
  have hserves := service.serve_cases txn request
  generalize service.serve txn request = left at hserves ⊢
  cases hserves with
  | failed => exact ⟨rfl, rfl⟩
  | found hnoted => rcases hnoted with rfl | ⟨tuple, rfl⟩ <;> exact ⟨rfl, rfl⟩
  | wrote hwrite =>
    obtain ⟨-, writes, rfl, -⟩ := write_cases hwrite
    exact ⟨rfl, rfl⟩

namespace Transaction

theorem id_abort (txn : Transaction) : txn.abort.id = txn.id := by
  unfold abort
  split <;> rfl

theorem Handled.looked {txn after : Transaction} (db : Database σ) (key : Key) (state : State σ)
    (h : (db.lookup txn key state).txn.Handled after) : txn.Handled after :=
  .served ⟨db.engine, db.merge, state.shared⟩ (.lookup key) h

theorem Handled.wrote {txn after : Transaction} (db : Database σ) (key : Key) (message : Message)
    (h : ((db.write txn key message).toOption.getD txn).Handled after) : txn.Handled after := by
  let service : Service Records := ⟨Engine.memory db.merge, db.merge, ⟨∅, LockTable.empty⟩⟩
  have hserve : (service.serve txn (.write key message)).2 =
      (db.write txn key message).toOption.getD txn := by
    simp only [Service.serve, on_writeInPlace, Database.write, service]
    cases txn.write db.merge key message <;> rfl
  exact .served service (.write key message) (hserve ▸ h)

theorem Handled.keeps {txn after : Transaction} (h : txn.Handled after) :
    after.id = txn.id ∧ (txn.status.Uncommitted → after.status.Uncommitted) := by
  induction h with
  | refl => exact ⟨rfl, fun h => h⟩
  | served service request _ ih =>
    obtain ⟨hid, hstatus⟩ := service.status_serve _ request
    exact ⟨ih.1.trans hid, fun h => ih.2 (hstatus ▸ h)⟩
  | @aborted txn _ _ ih =>
    refine ⟨ih.1.trans txn.id_abort, fun h => ih.2 ?_⟩
    unfold abort
    split
    · exact Or.inr rfl
    · exact h
  | @readTimeChosen txn _ _ ih =>
    refine ⟨ih.1.trans ?_, fun h => ih.2 ?_⟩
    · unfold chooseReadTime
      simp only
      split <;> rfl
    · unfold chooseReadTime
      simp only
      split <;> exact h
  | @writeTimeChosen _ txn _ engine shared _ ih =>
    obtain ⟨ts, hchosen⟩ := txn.txn_chooseWriteTime engine shared
    rw [hchosen] at ih
    exact ih

end Transaction

/-- The work leaves the commit of its transaction to the loop, and answers with a value or an error. It
may do anything else with the store, and use other transactions as it likes. -/
structure Work.Yields (work : Work σ ρ α) : Prop where
  handled : ∀ (txn : Transaction) state kept, txn.Handled (work txn state kept).txn
  answers : ∀ txn state kept failure, (work txn state kept).answer = .error failure →
    ∃ e, failure = .error e

namespace Attempt

/-- The run has asked for a commit that can have all its locks. -/
def Unlocked (a : Attempt σ ρ α) : Prop :=
  ∀ value, a.left.answer = .ok value → ∀ key ∈ a.left.txn.writes.keys,
    a.left.state.shared.locks.holder? key = none

/-- The end of the run has installed no write. -/
def Untouched (db : Database Records) (a : Attempt Records ρ α) : Prop :=
  a.left.state.shared.stored.SameVersions (a.ended db).2.shared.stored

/-- The run has answered, and its commit has met a conflict that another run need not meet. -/
def AskedAgain (db : Database σ) (a : Attempt σ ρ α) : Prop :=
  (∃ key read current, a.Refused db (.conflict (.mismatch key read current))) ∨
    ∃ key, a.Refused db (.conflict (.busy key))

variable {db : Database σ} {a : Attempt σ ρ α}

theorem askedAgain_of_retryable {reason : AbortReason} (hrefused : a.Refused db reason)
    (hretry : reason.isRetryable = true) : a.AskedAgain db := by
  rcases reason with _ | conflict | _
  · cases hretry
  · cases conflict with
    | mismatch key read current => exact Or.inl ⟨key, read, current, hrefused⟩
    | busy key => exact Or.inr ⟨key, hrefused⟩
    | exhausted key => cases hretry
  · cases hretry

theorem commit_goes (db : Database σ) (a : Attempt σ ρ α) :
    db.CommitGoes [] a.left.txn a.left.state (a.commit db) :=
  db.commitGoes_commit [] a.left.txn a.left.state

/-- What is left of the transaction of a run, unless its commit waits for ever. -/
theorem final_ended (hid : a.left.txn.id = a.given.id) (hleft : a.left.txn.status.Uncommitted)
    (hanswers : ∀ failure, a.left.answer = .error failure → ∃ e, failure = .error e)
    (hreturns : a.verdict db ≠ .error .blocked) :
    (a.ended db).1.id = a.given.id ∧ (a.ended db).1.status.Final := by
  have hinactive : a.left.txn.isActive = false → a.left.txn.status.Final := by
    intro hinactive
    rcases hleft with hstatus | hstatus
    · rw [Transaction.isActive, hstatus] at hinactive
      cases hinactive
    · exact hstatus ▸ .aborted .requested
  unfold verdict at hreturns
  unfold ended
  cases hanswer : a.left.answer with
  | error failure =>
    obtain ⟨e, rfl⟩ := hanswers failure hanswer
    simp only [State.abort]
    cases hactive : a.left.txn.isActive with
    | false => exact ⟨hid, hinactive hactive⟩
    | true =>
      simp only [if_true, Transaction.abort, hactive]
      exact ⟨hid, .aborted .requested⟩
  | ok value =>
    simp only [hanswer] at hreturns ⊢
    have hgoes := a.commit_goes db
    generalize a.commit db = turn at hreturns hgoes ⊢
    cases hgoes with
    | refused hactive => exact ⟨hid, hinactive hactive⟩
    | waits => exact absurd rfl hreturns
    | @ended answer _ _ _ _ hcommit =>
      have hsame := Transaction.commit_id db.engine a.left.txn [] a.left.state.shared
      rw [hcommit] at hsame
      exact ⟨hsame.trans hid, final_finalStatus answer⟩

end Attempt

section Memory

variable {db : Database Records} {a : Attempt Records ρ α}

/-- Looking a record up in memory changes nothing. -/
theorem eq_of_lookedUp {merge : MergeOperator} {key : Key} {before after : Shared Records}
    (h : (Engine.memory merge).LookedUp key before after) : after = before := by
  rcases h with h | h | h
  · exact h
  · exact h
  · rw [h]
    unfold Engine.fetchStamp Engine.memory
    simp only
    cases before.stored.get? key <;> rfl

theorem after_lookup (hdb : db.InMemory) (txn : Transaction) (key : Key) (found : State Records) :
    (db.lookup txn key found).after = found := by
  have hlooks := looks_read (Engine.memory db.merge.tuple) db.merge txn key found.shared
  unfold Database.lookup
  rw [hdb]
  generalize txn.read (Engine.memory db.merge.tuple) db.merge key found.shared = turn at hlooks ⊢
  cases hlooks with
  | silent hafter => rw [eq_of_lookedUp hafter]
  | noted tuple hafter => rw [eq_of_lookedUp hafter]

/-- A run that was refused has met a conflict, and has installed nothing. -/
theorem Attempt.Refused.untouched (hdb : db.InMemory) {reason : AbortReason}
    (h : a.Refused db reason) : a.Untouched db ∧ ∃ conflict, reason = .conflict conflict := by
  obtain ⟨⟨value, hanswer⟩, hcommit⟩ := h
  have hgoes := a.commit_goes db
  unfold Attempt.Untouched Attempt.ended
  rw [hanswer]
  simp only
  generalize a.commit db = turn at hcommit hgoes ⊢
  cases hgoes with
  | refused => cases hcommit
  | waits => cases hcommit
  | ended hactive hexit =>
    have hrefused := congrArg Transaction.Committed.answer hexit
    have hstored := congrArg (·.shared.stored) hexit
    rw [hdb] at hrefused hstored
    simp only at hrefused hstored hcommit ⊢
    rw [← hstored]
    exact Transaction.commit_refused (frame_sameVersions db.merge.tuple)
      (raises_sameVersions db.merge) hactive (hrefused.trans hcommit)

/-- A commit that can have its locks does not wait for ever, and breaks no rule. -/
theorem Attempt.Unlocked.verdict (hdb : db.InMemory) (h : a.Unlocked)
    (hanswers : ∀ failure, a.left.answer = .error failure → ∃ e, failure = .error e)
    {failure : Failure} (hfailure : a.verdict db = .error failure) :
    ∃ e, failure = .error e := by
  unfold Attempt.verdict at hfailure
  cases hanswer : a.left.answer with
  | error own =>
    rw [hanswer] at hfailure
    cases hfailure
    exact hanswers _ hanswer
  | ok value =>
    have hgoes := a.commit_goes db
    simp only [hanswer] at hfailure
    generalize a.commit db = turn at hfailure hgoes
    cases hgoes with
    | refused =>
      cases hfailure
      exact ⟨_, rfl⟩
    | waits hactive hexit =>
      have hengine : db.engine.LeavesLocks := hdb ▸ leavesLocks_memory db.merge.tuple
      obtain ⟨-, ⟨answer, hcommit⟩, -⟩ := commit_unlocked hengine hactive
        (fun key hkey => h value hanswer key (WriteBuffer.mem_keys_sorted.mp hkey)) []
      rw [hexit] at hcommit
      cases answer <;> cases hcommit
    | @ended answer =>
      rcases answer with e | ts | reason
      · cases hfailure
        exact ⟨e, rfl⟩
      · cases hfailure
      · cases hfailure

end Memory

/-! ## At most one commit -/

/-- What the runs of some work come to: the earlier ones, the last one, and what the loop leaves. -/
structure Account (db : Database Records) (policy : RetryPolicy) (work : Work Records ρ α)
    (state : State Records) (kept : ρ) (earlier : List (Attempt Records ρ α))
    (last : Attempt Records ρ α) (left : Finished Records ρ α) : Prop where
  first : (earlier ++ [last])[0]? = some (work.attempt state kept)
  /-- Each run is one of the work, in a transaction of its own. -/
  made : ∀ a ∈ earlier ++ [last], ∃ state kept, a = work.attempt state kept
  bounded : (earlier ++ [last]).length ≤ policy.maxRetries.toNat + 1
  /-- There is another run only after a conflict that it need not meet. -/
  again : ∀ i a b, (earlier ++ [last])[i]? = some a → (earlier ++ [last])[i + 1]? = some b →
    a.AskedAgain db ∧ (b.given, b.found) = (a.ended db).2.begin
  ended : left.state = (last.ended db).2
  /-- The loop returns, unless the work has left a key locked that its transaction writes. -/
  returns : (∀ a ∈ earlier ++ [last], a.Unlocked) →
    (∃ value, left.answer = .ok value) ∨ ∃ e, left.answer = .error (.error e)
  committed : ∀ value, left.answer = .ok value ↔ last.Committed db value
  once : ∀ a ∈ earlier, a.Untouched db
  givenUp : ∀ reason, last.Refused db reason →
    let runs := (earlier ++ [last]).length
    left.answer = .error (.error (.givenUp (.afterRuns reason runs))) ∧
      Error.message (.givenUp (.afterRuns reason runs)) =
        s!"Transaction aborted: {reason.message} after {runs} attempt(s)" ∧
      (reason.isRetryable = true → runs = policy.maxRetries.toNat + 1) ∧
      ∀ a ∈ earlier ++ [last], a.Untouched db
  finished : left.answer ≠ .error .blocked → ∀ a ∈ earlier ++ [last],
    (a.ended db).1.id = a.given.id ∧ (a.ended db).1.status.Final

/-- The account of a series of runs. -/
theorem Database.Series.account {db : Database Records} (hdb : db.InMemory) {policy : RetryPolicy}
    {work : Work Records ρ α} (hwork : work.Yields) {state : State Records} {kept : ρ}
    {earlier : List (Attempt Records ρ α)} {last : Attempt Records ρ α}
    (h : db.Series work policy.maxRetries.toNat state kept earlier last) :
    Account db policy work state kept earlier last
      ⟨last.answer db (earlier ++ [last]).length, (last.ended db).2, last.left.kept⟩ := by
  have hlast : last ∈ earlier ++ [last] := List.mem_concat_self
  have hanswers : ∀ a ∈ earlier ++ [last], ∀ failure, a.left.answer = .error failure →
      ∃ e, failure = .error e := by
    intro a ha
    obtain ⟨state, kept, rfl⟩ := h.made a ha
    exact hwork.answers _ _ _
  have honce : ∀ a ∈ earlier, a.Untouched db := by
    intro a ha
    obtain ⟨reason, hrefused, -⟩ := h.refused a ha
    exact (hrefused.untouched hdb).1
  constructor
  case first => exact h.first
  case made => exact h.made
  case bounded =>
    rw [List.length_append]
    exact Nat.succ_le_succ h.length_le
  case again =>
    intro i a b ha hb
    obtain ⟨hmem, hbegun⟩ := h.follows ha hb
    obtain ⟨reason, hrefused, hretry⟩ := h.refused a hmem
    exact ⟨Attempt.askedAgain_of_retryable hrefused hretry, hbegun⟩
  case ended => rfl
  case returns =>
    intro hunlocked
    unfold Attempt.answer
    cases hverdict : last.verdict db with
    | error failure =>
      obtain ⟨e, rfl⟩ := (hunlocked last hlast).verdict hdb (hanswers last hlast) hverdict
      exact Or.inr ⟨e, rfl⟩
    | ok result =>
      cases result with
      | error reason => exact Or.inr ⟨_, rfl⟩
      | ok value => exact Or.inl ⟨value, rfl⟩
  case committed =>
    intro value
    rw [← Attempt.verdict_eq_value]
    unfold Attempt.answer
    rcases last.verdict db with failure | reason | value' <;> simp
  case once => exact honce
  case givenUp =>
    intro reason hrefused
    refine ⟨?_, rfl, fun hretry => ?_, fun a ha => ?_⟩
    · simp only [Attempt.answer, Attempt.verdict_eq_reason.mpr hrefused]
    · rw [List.length_append, h.spent hrefused hretry]
      rfl
    · rcases List.mem_append.mp ha with ha | ha
      · exact honce a ha
      · rw [List.mem_singleton.mp ha]
        exact (hrefused.untouched hdb).1
  case finished =>
    intro hreturns a ha
    -- only the last run can wait for ever, and then the loop has not returned
    have hverdict : a.verdict db ≠ .error .blocked := by
      rcases List.mem_append.mp ha with ha | ha
      · obtain ⟨reason, hrefused, -⟩ := h.refused a ha
        simp [Attempt.verdict_eq_reason.mpr hrefused]
      · rw [List.mem_singleton.mp ha]
        intro hblocked
        exact hreturns (by simp only [Attempt.answer, hblocked])
    have hfails := hanswers a ha
    obtain ⟨begun, rest, rfl⟩ := h.made a ha
    obtain ⟨hid, hleft⟩ := (hwork.handled begun.begin.1 begun.begin.2 rest).keeps
    exact Attempt.final_ended hid (hleft (Or.inl rfl)) hfails hverdict

/-- Work in transactions of its own over a store in memory, under any policy. The work may do anything
with the store and with other transactions, commit them too, but it leaves the commit of its own
transaction to the loop. A note of every run changes nothing. No run but the last can have installed a
write, and none has if that one was refused. The calls of the work for its own transaction leave the
store alone. -/
theorem work_is_committed_at_most_once {db : Database Records} (hdb : db.InMemory)
    (policy : RetryPolicy) {work : Work Records ρ α} (hwork : work.Yields) (state : State Records)
    (kept : ρ) :
    ∃ earlier last,
      let left := db.transactionWith policy work state kept
      db.transactionWith policy work.noting state (kept, []) =
          ⟨left.answer, left.state, (left.kept, earlier ++ [last])⟩ ∧
        Account db policy work state kept earlier last left ∧
        ∀ (txn : Transaction) (found : State Records),
          (∀ key, (db.lookup txn key found).after = found) ∧
            (found.abort txn).2.shared = found.shared := by
  obtain ⟨earlier, last, hseries, hplain, hnoting⟩ :=
    db.runRetrying_series work policy.maxRetries.toNat 0 state kept
  have hruns : 0 + (earlier.length + 1) = (earlier ++ [last]).length := by simp
  rw [hruns] at hplain
  simp only [hruns] at hnoting
  refine ⟨earlier, last, ?_, ?_, fun txn found => ⟨fun key => ?_, ?_⟩⟩
  · exact (hnoting []).trans (by rw [Database.transactionWith, hplain, List.nil_append])
  · rw [Database.transactionWith, hplain]
    exact hseries.account hdb hwork
  · exact after_lookup hdb txn key found
  · unfold State.abort
    split <;> rfl

/-- Some work reads a key and writes it, and in its first run another transaction writes the key in
between. The second run commits; where there is none, the first one has left no trace. -/
theorem overtaken_work_commits_in_its_second_run :
    let k : Key := ⟨[107]⟩
    let db := Database.standard
    let state := State.initial ((∅ : Records).insert k (Tuple.make ⟨1, 1⟩ [49]).bytes)
      .serializable
    let put (txn : Transaction) (value : Bytes) : Transaction :=
      (db.write txn k (.insert value)).toOption.getD txn
    let work : Work Records Nat Unit := fun txn found n =>
      let looked := db.lookup txn k found
      let others := looked.after.begin
      ⟨.ok (), put looked.txn [50],
        if n = 0 then (db.commit [] (put others.1 [57]) others.2).after else looked.after, n + 1⟩
    (∃ earlier last, Account db .standard work state 0 earlier last
        (db.transactionWith .standard work state 0) ∧ earlier.length = 1 ∧
        (∀ a ∈ earlier, a.Untouched db) ∧ last.Committed db () ∧
        (last.ended db).2.shared.stored.value? k = some [50]) ∧
      ∃ last, Account db .never work state 0 [] last (db.transactionWith .never work state 0) ∧
        last.Untouched db ∧ (last.ended db).2.shared.stored.value? k = some [57] := by
  intro k db state put work
  have hwork : work.Yields :=
    { handled := fun _ found _ => .looked db k found (.wrote db k (.insert [50]) (.refl _))
      answers := fun _ _ _ _ (hfailure : Except.ok () = _) => by cases hfailure }
  obtain ⟨earlier, last, hnoted, haccount, -⟩ :=
    work_is_committed_at_most_once (show db.InMemory from rfl) .standard hwork state 0
  obtain ⟨earlier', last', hnoted', haccount', -⟩ :=
    work_is_committed_at_most_once (show db.InMemory from rfl) .never hwork state 0
  have htwo : (db.transactionWith .standard work.noting state (0, [])).kept.2.length = 2 := by
    decide +kernel
  have hone : (db.transactionWith .never work.noting state (0, [])).kept.2 =
      [] ++ [work.attempt state 0] := db.noted_once work fun _ _ _ => rfl
  rw [hnoted, List.length_append] at htwo
  rw [hnoted'] at hone
  obtain ⟨rfl, rfl⟩ := List.append_singleton_inj.mp hone
  have hrefused : (work.attempt state 0).Refused db (.conflict (.mismatch k 1 2)) :=
    ⟨⟨(), rfl⟩, by decide +kernel⟩
  refine ⟨⟨earlier, last, haccount, Nat.succ.inj htwo, haccount.once,
    (haccount.committed ()).mp (by decide +kernel), ?_⟩, _, haccount',
    (haccount'.givenUp _ hrefused).2.2.2 _ List.mem_concat_self, ?_⟩
  · rw [← haccount.ended]
    decide +kernel
  · rw [← haccount'.ended]
    decide +kernel

end StampStore
