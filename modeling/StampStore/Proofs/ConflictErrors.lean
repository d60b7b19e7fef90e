-- What the error of a loop tells about another try. An abort that ends the loop comes
-- back as an error that calls for one, whatever the transaction was aborted for. So it
-- tells the truth about every run, unless a key has run out of timestamps: then it calls
-- for another try where the loop itself has made none.
import StampStore.Proofs.Attempts

namespace StampStore

variable {σ ρ α : Type}

/-! ## Errors of a commit -/

namespace Engine.FailsWith

variable {engine : Engine σ} {E : Error → Prop} (h : engine.FailsWith E)

include h

theorem timeAfter (keys : List Key) (ts : Timestamp) (shared : Shared σ) (e : Error)
    (herror : (engine.timeAfter keys ts shared).1 = .error e) : E e := by
  induction keys generalizing ts shared with
  | nil => cases herror
  | cons key keys ih =>
    have hfetch := h.fetchStamp key shared
    unfold Engine.timeAfter at herror
    generalize engine.fetchStamp key shared = reply at hfetch herror
    obtain ⟨answer, after⟩ := reply
    cases answer with
    | error e' =>
      cases herror
      exact hfetch e rfl
    | ok stamp =>
      simp only at herror
      cases hnext : (stamp.getD Stamp.zero).rts.next? with
      | none =>
        rw [hnext] at herror
        cases herror
      | some next =>
        rw [hnext] at herror
        exact ih (max ts next) after herror

theorem prepare (txn : Transaction) (shared : Shared σ) (e : Error)
    (herror : (txn.prepare engine shared).answer = .error e) : E e := by
  have htime := h.timeAfter txn.writes.keys txn.commitWts shared
  unfold Transaction.prepare Transaction.chooseWriteTime at herror
  generalize engine.timeAfter txn.writes.keys txn.commitWts shared = reply at htime herror
  obtain ⟨answer, after⟩ := reply
  rcases answer with e' | conflict | ts
  · cases herror
    exact htime e rfl
  · cases herror
  · have hcheck := h.checkReads { txn with commitWts := ts }.validationTime
      txn.isolation.extendsReads txn.id txn.reads.entries after
    have hanswer : (engine.checkReads txn.id { txn with commitWts := ts }.validationTime
        txn.isolation.extendsReads txn.reads.entries after).1 = .error e := herror
    rw [hanswer] at hcheck
    cases hcheck with
    | failed he => exact he

/-- An error of a commit is one of a call before its writes, unless it says how far these went. -/
theorem commit {txn : Transaction} (hactive : txn.isActive = true)
    {rounds : List LockTable.Releases} {shared : Shared σ} {e : Error}
    (herror : (txn.commit engine rounds shared).answer = .error (.error e)) :
    E e ∨ ∃ id applied total source, e = .incompleteCommit id applied total source := by
  cases hlock : LockTable.lockWaiting txn.ready.writes.keys txn.id rounds shared.locks with
  | none =>
    rw [Transaction.commit_blocked hactive hlock] at herror
    cases herror
  | some locked =>
    have hends : Transaction.EndsAfter
        (txn.ready.prepare engine { shared with locks := locked.1 })
        (txn.commit engine rounds shared) := Transaction.commit_endsAfter hactive hlock
    have hfails := h.prepare txn.ready { shared with locks := locked.1 }
    generalize txn.ready.prepare engine { shared with locks := locked.1 } = part at hends hfails
    cases hends with
    | failed hanswer =>
      rw [hanswer] at herror
      cases herror
      exact Or.inl (hfails e rfl)
    | refused hanswer =>
      rw [hanswer] at herror
      cases herror
    | written hanswer =>
      rw [herror] at hanswer
      rcases hanswer with ⟨ts, hanswer⟩ | ⟨id, applied, total, source, hanswer⟩
      · cases hanswer
      · cases hanswer
        exact Or.inr ⟨id, applied, total, source, rfl⟩

end Engine.FailsWith

/-- Records in memory fail with no error that calls for another try. -/
theorem failsWith_memory (app : MergeOperator) :
    (Engine.memory app.tuple).FailsWith fun e => e.isConflict = false where
  lookupRaw key shared e herror := by cases herror
  raise key ts shared e herror := by
    simp only [Engine.memory, Records.update, MergeOperator.tuple, MergeOperator.applyToTuple,
      Timestamp.decode_encode] at herror
    cases hget : shared.stored.get? key with
    | none =>
      simp only [hget] at herror
      cases herror
      rfl
    | some record =>
      simp only [hget, MergeOperator.refresh, MergeOperator.readTuple] at herror
      cases htuple : Tuple.ofBytes? record with
      | none =>
        simp only [htuple] at herror
        cases herror
        rfl
      | some t =>
        simp only [htuple] at herror
        cases herror
  damaged key record e herror := by
    unfold Tuple.ofRecord at herror
    split at herror
    · cases herror
    · cases herror
      rfl

/-! ## Aborted runs -/

namespace Attempt

/-- The run has left its transaction active, and the loop has made it end as aborted. -/
def AbortedFor (db : Database σ) (a : Attempt σ ρ α) (reason : AbortReason) : Prop :=
  a.left.txn.isActive = true ∧ (a.ended db).1.status = .aborted reason

/-- The last run was aborted for a reason that the policy would try again for. -/
def MayPass (db : Database σ) (a : Attempt σ ρ α) : Prop :=
  ∃ reason, a.AbortedFor db reason ∧ reason.isRetryable = true

variable {db : Database Records} {a : Attempt Records ρ α}

/-- A run that fails of itself is aborted as asked for. -/
theorem requested_of_own {e : Error} (hown : a.left.answer = .error (.error e))
    {reason : AbortReason} (h : a.AbortedFor db reason) : reason = .requested := by
  obtain ⟨hactive, hstatus⟩ := h
  simp only [ended, hown, State.abort, hactive, if_true, Transaction.abort] at hstatus
  cases hstatus
  rfl

/-- A run whose commit fails is aborted, if at all, by storage. -/
theorem storageFault_of_failed {value : α} (hanswer : a.left.answer = .ok value) {e : Error}
    (hcommit : (a.commit db).answer = .error (.error e)) {reason : AbortReason}
    (h : a.AbortedFor db reason) : reason = .storageFault := by
  obtain ⟨hactive, hstatus⟩ := h
  have hgoes := a.commit_goes db
  simp only [ended, hanswer] at hstatus
  generalize a.commit db = turn at hcommit hstatus hgoes
  cases hgoes with
  | refused hinactive =>
    rw [hactive] at hinactive
    cases hinactive
  | waits => cases hcommit
  | @ended answer =>
    rcases answer with e' | outcome
    · cases e' <;> cases hstatus <;> rfl
    · cases hcommit

/-- A run that was refused is aborted for the reason of its commit, and for no other. -/
theorem abortedFor_of_refused {reason : AbortReason} (h : a.Refused db reason)
    (reason' : AbortReason) : a.AbortedFor db reason' ↔ reason' = reason := by
  obtain ⟨⟨value, hanswer⟩, hcommit⟩ := h
  have hgoes := a.commit_goes db
  unfold AbortedFor
  simp only [ended, hanswer]
  generalize a.commit db = turn at hcommit hgoes ⊢
  cases hgoes with
  | refused => cases hcommit
  | waits => cases hcommit
  | @ended answer _ _ _ hactive =>
    rcases answer with e | ts | found
    · cases hcommit
    · cases hcommit
    · cases hcommit
      simp [hactive, Transaction.finish, Transaction.finalStatus, eq_comm]

end Attempt

/-- The error of a run that does not end in a refusal does not call for another try. -/
theorem isConflict_of_verdict {db : Database Records} (hdb : db.InMemory)
    {a : Attempt Records ρ α}
    (hown : ∀ e, a.left.answer = .error (.error e) → e.isConflict = false) {e : Error}
    (h : a.verdict db = .error (.error e)) :
    e.isConflict = false ∧ ∀ reason, a.AbortedFor db reason →
      reason = .requested ∨ reason = .storageFault := by
  unfold Attempt.verdict at h
  cases hanswer : a.left.answer with
  | error failure =>
    rw [hanswer] at h
    cases h
    exact ⟨hown e hanswer, fun reason haborted => Or.inl (Attempt.requested_of_own hanswer haborted)⟩
  | ok value =>
    simp only [hanswer] at h
    rcases hcommit : (a.commit db).answer with failure | ts | reason
    · simp only [hcommit] at h
      cases h
      refine ⟨?_, fun reason haborted =>
        Or.inr (Attempt.storageFault_of_failed hanswer hcommit haborted)⟩
      have hgoes := a.commit_goes db
      generalize a.commit db = turn at hcommit hgoes
      cases hgoes with
      | refused =>
        cases hcommit
        rfl
      | waits => cases hcommit
      | ended hactive hexit =>
        have herror := congrArg Transaction.Committed.answer hexit
        rw [hdb] at herror
        rcases (failsWith_memory db.merge).commit hactive (herror.trans hcommit) with
          hfalse | ⟨id, applied, total, source, rfl⟩
        · exact hfalse
        · rfl
    · simp only [hcommit] at h
      cases h
    · simp only [hcommit] at h
      cases h

/-! ## Another try -/

/-- Work in transactions of its own over a store in memory, under any policy, whose own errors do not
call for another try. The error that the loop ends with calls for one just if its last run was aborted
for a reason that the policy would try again for, unless this run was aborted because a key has run
out of timestamps. -/
theorem errors_tell_of_another_try_iff_timestamps_are_left {db : Database Records}
    (hdb : db.InMemory) (policy : RetryPolicy) {work : Work Records ρ α}
    (hown : ∀ txn state kept e, (work txn state kept).answer = .error (.error e) →
      e.isConflict = false) (state : State Records) (kept : ρ) :
    ∃ earlier last,
      let left := db.transactionWith policy work state kept
      db.transactionWith policy work.noting state (kept, []) =
          ⟨left.answer, left.state, (left.kept, earlier ++ [last])⟩ ∧
        ∀ e, left.answer = .error (.error e) →
          ((e.isConflict = true ↔ last.MayPass db) ↔
            ∀ key, ¬ last.AbortedFor db (.conflict (.exhausted key))) := by
  obtain ⟨earlier, last, hseries, hplain, hnoting⟩ :=
    db.runRetrying_series work policy.maxRetries.toNat 0 state kept
  refine ⟨earlier, last, ?_, ?_⟩
  · exact (hnoting []).trans (by rw [Database.transactionWith, hplain, List.nil_append])
  rw [Database.transactionWith, hplain]
  intro e herror
  simp only [Attempt.answer] at herror
  -- only a refusal makes an error that calls for another try, and its reason is a conflict
  rcases hverdict : last.verdict db with failure | reason | value
  · rw [hverdict] at herror
    cases herror
    have hlast : ∀ e, last.left.answer = .error (.error e) → e.isConflict = false := by
      obtain ⟨state, kept, rfl⟩ := hseries.made last List.mem_concat_self
      exact hown _ _ _
    obtain ⟨hconflict, hends⟩ := isConflict_of_verdict hdb hlast hverdict
    have hpass : ¬ last.MayPass db := by
      rintro ⟨reason, haborted, hretry⟩
      rcases hends reason haborted with rfl | rfl <;> cases hretry
    have hkeys : ∀ key, ¬ last.AbortedFor db (.conflict (.exhausted key)) := by
      intro key haborted
      rcases hends _ haborted with h | h <;> cases h
    simp [hconflict, hpass, hkeys]
  · rw [hverdict] at herror
    cases herror
    have hrefused := Attempt.verdict_eq_reason.mp hverdict
    obtain ⟨-, conflict, rfl⟩ := hrefused.untouched hdb
    simp only [Attempt.MayPass, Attempt.abortedFor_of_refused hrefused, exists_eq_left,
      Error.isConflict, true_iff]
    cases conflict <;> simp [AbortReason.isRetryable]
  · rw [hverdict] at herror
    cases herror

/-- Another transaction writes the key that some work has read. The error calls for another try, which
may go through. -/
theorem overtaken_work_is_told_to_try_again :
    let k : Key := ⟨[107]⟩
    let db := Database.standard
    let state := State.initial ((∅ : Records).insert k (Tuple.make ⟨1, 1⟩ [49]).bytes)
      .serializable
    let put (txn : Transaction) (value : Bytes) : Transaction :=
      (db.write txn k (.insert value)).toOption.getD txn
    let work : Work Records Unit Unit := fun txn found _ =>
      let looked := db.lookup txn k found
      let others := looked.after.begin
      ⟨.ok (), put looked.txn [50], (db.commit [] (put others.1 [57]) others.2).after, ()⟩
    let e : Error := .givenUp (.afterRuns (.conflict (.mismatch k 1 2)) 1)
    (db.transactionWith .never work state ()).answer = .error (.error e) ∧
      e.isConflict = true ∧ (work.attempt state ()).MayPass db := by
  intro k db state put work e
  have hanswer : (db.transactionWith .never work state ()).answer = .error (.error e) := by
    decide +kernel
  have hrefused : (work.attempt state ()).Refused db (.conflict (.mismatch k 1 2)) :=
    ⟨⟨(), rfl⟩, by decide +kernel⟩
  have hown : ∀ txn found kept e, (work txn found kept).answer = .error (.error e) →
      e.isConflict = false := fun _ _ _ _ (hfails : Except.ok () = _) => by cases hfails
  obtain ⟨earlier, last, hnoted, htells⟩ :=
    errors_tell_of_another_try_iff_timestamps_are_left (show db.InMemory from rfl) .never hown
      state ()
  have honce : (db.transactionWith .never work.noting state ((), [])).kept.2 =
      [] ++ [work.attempt state ()] := db.noted_once work fun _ _ _ => rfl
  rw [hnoted] at honce
  obtain ⟨rfl, rfl⟩ := List.append_singleton_inj.mp honce
  have hleft : ∀ key, ¬ (work.attempt state ()).AbortedFor db (.conflict (.exhausted key)) := by
    simp [Attempt.abortedFor_of_refused hrefused]
  exact ⟨hanswer, rfl, ((htells e hanswer).mpr hleft).mp rfl⟩

/-- A key has run out of timestamps, and some work inserts it. The loop makes no second run, since it
would meet the same end, but the error calls for another try. -/
theorem worn_key_calls_for_a_try_that_the_loop_does_not_make :
    let k : Key := ⟨[107]⟩
    let db := Database.standard
    let state := State.initial ((∅ : Records).insert k (Tuple.make ⟨1, 4294967295⟩ [49]).bytes)
      .serializable
    let work : Work Records Unit Unit := fun txn found _ =>
      ⟨.ok (), (db.write txn k (.insert [50])).toOption.getD txn, found, ()⟩
    let e : Error := .givenUp (.afterRuns (.conflict (.exhausted k)) 1)
    (db.transactionWith .standard work state ()).answer = .error (.error e) ∧
      (db.transactionWith .standard work.noting state ((), [])).kept.2 = [work.attempt state ()] ∧
      (work.attempt state ()).AbortedFor db (.conflict (.exhausted k)) ∧
      ¬ (e.isConflict = true ↔ (work.attempt state ()).MayPass db) := by
  intro k db state work e
  have hrefused : (work.attempt state ()).Refused db (.conflict (.exhausted k)) :=
    ⟨⟨(), rfl⟩, by decide +kernel⟩
  have haborted := Attempt.abortedFor_of_refused hrefused
  have hpass : ¬ (work.attempt state ()).MayPass db := by
    rintro ⟨reason, hreason, hretry⟩
    obtain rfl := (haborted reason).mp hreason
    cases hretry
  refine ⟨by decide +kernel, db.noted_once work fun reason hreason hretry => ?_,
    (haborted _).mpr rfl, fun hiff => hpass (hiff.mp rfl)⟩
  cases hreason.2.symm.trans hrefused.2
  cases hretry

end StampStore
