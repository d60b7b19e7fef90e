-- Plans: calls on a store, with work that runs in transactions of its own among
-- them. A plan is followed in a diary, which notes what every call has left. What
-- calls keep holds at every moment of the diary, inside of work as well, and work
-- fails in one of three ways.
import StampStore.Closure
import StampStore.Proofs.Runs

namespace StampStore

/-! ## Runs of some work -/

section Runs

variable {σ ρ α : Type}

/-- One run of the work, and what comes of it: its end, or more runs. -/
theorem Database.runRetrying_eq (db : Database σ) (work : Work σ ρ α)
    (left runs : Nat) (state : State σ) (kept : ρ) :
    db.runRetrying work left runs state kept =
      match db.runOnce work state kept with
      | ⟨.error failure, state, kept⟩ => ⟨.error failure, state, kept⟩
      | ⟨.ok (.ok value), state, kept⟩ => ⟨.ok value, state, kept⟩
      | ⟨.ok (.error reason), state, kept⟩ =>
        if 0 < left ∧ reason.isRetryable = true then
          db.runRetrying work (left - 1) (runs + 1) state kept
        else ⟨.error (.error (.givenUp (.afterRuns reason (runs + 1)))), state, kept⟩ := by
  generalize honce : db.runOnce work state kept = once
  obtain ⟨answer, after, rest⟩ := once
  cases left with
  | zero =>
    unfold Database.runRetrying
    rw [honce]
    rcases answer with failure | reason | value <;> simp
  | succ left =>
    rw [Database.runRetrying, honce]
    rcases answer with failure | reason | value <;> simp

/-- A run of some work leaves what `P` allows. If it is the last one, the work fails, if at all, in
one of the ways of `F`. -/
structure Finished.Keeps (P : State σ → ρ → Prop) (F : Failure → Prop)
    (once : Finished σ ρ (Except AbortReason α)) : Prop where
  kept : P once.state once.kept
  failed : ∀ failure, once.answer = .error failure → F failure
  givenUp : ∀ reason, once.answer = .ok (.error reason) → ∀ runs,
    F (.error (.givenUp (.afterRuns reason runs)))

/-- What every run of some work keeps, all its runs keep. -/
theorem Database.runRetrying_keeps {db : Database σ} {work : Work σ ρ α}
    {P : State σ → ρ → Prop} {F : Failure → Prop}
    (honce : ∀ state kept, P state kept → (db.runOnce work state kept).Keeps P F)
    (left runs : Nat) {state : State σ} {kept : ρ} (h : P state kept) :
    P (db.runRetrying work left runs state kept).state
        (db.runRetrying work left runs state kept).kept ∧
      ∀ failure, (db.runRetrying work left runs state kept).answer = .error failure →
        F failure := by
  induction left using Nat.strong_induction_on generalizing runs state kept with
  | _ left ih =>
    rw [Database.runRetrying_eq]
    have hkeeps := honce state kept h
    generalize db.runOnce work state kept = once at hkeeps ⊢
    obtain ⟨answer, after, rest⟩ := once
    rcases answer with failure | reason | value
    · refine ⟨hkeeps.kept, fun _ hfailure => ?_⟩
      cases hfailure
      exact hkeeps.failed failure rfl
    · simp only
      split
      · rename_i hagain
        exact ih (left - 1) (Nat.sub_lt hagain.1 Nat.one_pos) (runs + 1) hkeeps.kept
      · refine ⟨hkeeps.kept, fun _ hfailure => ?_⟩
        cases hfailure
        exact hkeeps.givenUp reason rfl _
    · exact ⟨hkeeps.kept, fun _ hfailure => by cases hfailure⟩

end Runs

/-! ## Systems and diaries -/

/-- What calls act on: a store with the transactions that have been begun on it, and what is noted
about them. -/
structure System {σ : Type} (db : Database σ) (ω : Type) where
  state : ω → State σ
  withState : ω → State σ → ω
  /-- The transactions, in the order they were begun. -/
  txns : ω → List Transaction
  enrol : ω → Transaction → ω
  step : ω → Call → ω
  withState_state : ∀ w, withState w (state w) = w
  txns_withState : ∀ w state, txns (withState w state) = txns w
  txns_enrol : ∀ w txn, txns (enrol w txn) = txns w ++ [txn]
  step_begin : ∀ w level, step w (.begin level) =
    enrol (withState w ((state w).beginAt level).2) ((state w).beginAt level).1
  state_abort : ∀ w n txn, (txns w)[n]? = some txn →
    state (step w (.abort n)) = ((state w).abort txn).2
  state_commit : ∀ w n txn, (txns w)[n]? = some txn →
    state (step w (.commit n)) = (db.commit [] txn (state w)).after
  /-- No transaction is ever forgotten. -/
  grows : ∀ w call, (txns w).length ≤ (txns (step w call)).length

/-- A system, and what it was after each call. -/
structure Diary (ω : Type) where
  now : ω
  /-- Oldest first. A call that runs work is noted after the calls that the work has made. -/
  past : List ω

namespace Diary

variable {ω : Type}

/-- The diary of a system before all calls. -/
def start (w : ω) : Diary ω := ⟨w, []⟩

/-- Notes what a call has left. -/
def note (diary : Diary ω) (w : ω) : Diary ω := ⟨w, diary.past ++ [w]⟩

/-- `I` holds now, and it held after every call. -/
structure Holds (I : ω → Prop) (diary : Diary ω) : Prop where
  now : I diary.now
  past : ∀ w ∈ diary.past, I w

variable {I : ω → Prop} {w : ω}

theorem holds_start (h : I w) : (start w).Holds I := ⟨h, fun _ hmem => absurd hmem List.not_mem_nil⟩

theorem Holds.note {diary : Diary ω} (h : diary.Holds I) (hw : I w) : (diary.note w).Holds I where
  now := hw
  past := forall_mem_concat h.past hw

theorem Holds.mono {J : ω → Prop} {diary : Diary ω} (h : diary.Holds I) (hIJ : ∀ w, I w → J w) :
    diary.Holds J where
  now := hIJ _ h.now
  past w hw := hIJ w (h.past w hw)

end Diary

namespace System

variable {σ ω : Type} {db : Database σ} (sys : System db ω)

/-- The system at another level for transactions that name none. -/
def setIsolation (w : ω) (level : Isolation) : ω :=
  sys.withState w ((sys.state w).setIsolation level)

/-- The system once transaction `n` has been ended as its work asks for: it is committed, or aborted
because of an error, or nobody ends it. -/
def close (w : ω) (n : Nat) : Except Failure Unit → ω
  | .ok () => sys.step w (.commit n)
  | .error (.error _) => sys.step w (.abort n)
  | .error (.misuse _) => w
  | .error .blocked => w

/-- Work that acts on the diary, with its own transaction as the last one there. The calls that it
makes may depend on all that it finds, and its answer on all that it leaves. -/
def work (act : Diary ω → Diary ω) (answer : ω → Except Failure Unit) : Work σ (Diary ω) Unit :=
  fun txn state diary =>
    let n := (sys.txns diary.now).length
    let left := act ⟨sys.enrol (sys.withState diary.now state) txn, diary.past⟩
    { answer := answer left.now
      txn := (sys.txns left.now)[n]?.getD txn
      state := sys.state left.now
      kept := ⟨sys.close left.now n (answer left.now), left.past⟩ }

/-- Work in a transaction of its own, run again as the policy says: its answer, and the diary. -/
def transact (policy : RetryPolicy) (act : Diary ω → Diary ω) (answer : ω → Except Failure Unit)
    (diary : Diary ω) : Except Failure Unit × Diary ω :=
  match db.transactionWith policy (sys.work act answer) (sys.state diary.now) diary with
  | ⟨answer, state, kept⟩ => (answer, kept.note (sys.withState kept.now state))

end System

/-- Calls one after another, with changes of the level and with work among them. What some work does
is a plan again, chosen by what each of its runs finds. Two works that overlap without one being
inside the other are calls for two transactions. -/
inductive Plan (ω : Type) where
  | done
  | call (c : Call) (rest : Plan ω)
  | setIsolation (level : Isolation) (rest : Plan ω)
  | transaction (policy : RetryPolicy) (body : ω → Plan ω) (answer : ω → Except Failure Unit)
      (rest : Plan ω)

/-- The diary once the plan has been followed. -/
def Plan.run {σ ω : Type} {db : Database σ} (sys : System db ω) : Plan ω → Diary ω → Diary ω
  | .done, diary => diary
  | .call c rest, diary => rest.run sys (diary.note (sys.step diary.now c))
  | .setIsolation level rest, diary => rest.run sys (diary.note (sys.setIsolation diary.now level))
  | .transaction policy body answer rest, diary =>
    rest.run sys
      (sys.transact policy (fun found => (body found.now).run sys found) answer diary).2

/-! ## What calls keep -/

namespace System

variable {σ ω : Type} {db : Database σ} {sys : System db ω} {I : ω → Prop}

/-- `I` is kept by calls and by changes of the level. -/
structure Invariant (sys : System db ω) (I : ω → Prop) : Prop where
  call : ∀ w call, I w → I (sys.step w call)
  level : ∀ w level, I w → I (sys.setIsolation w level)

theorem Invariant.close (hI : sys.Invariant I) {w : ω} (hw : I w) (n : Nat)
    (answer : Except Failure Unit) : I (sys.close w n answer) := by
  rcases answer with (e | m | _) | _
  · exact hI.call w (.abort n) hw
  · exact hw
  · exact hw
  · exact hI.call w (.commit n) hw

/-- The number of transactions does not fall. -/
theorem invariant_length (sys : System db ω) (least : Nat) :
    sys.Invariant fun w => least ≤ (sys.txns w).length where
  call w call h := h.trans (sys.grows w call)
  level w level h := by
    rw [setIsolation, sys.txns_withState]
    exact h

/-- The action lets `I` hold at every moment, and no transaction is forgotten. -/
def Keeps (sys : System db ω) (I : ω → Prop) (act : Diary ω → Diary ω) : Prop :=
  ∀ diary, diary.Holds I →
    (act diary).Holds I ∧ (sys.txns diary.now).length ≤ (sys.txns (act diary).now).length

/-- How a run of some work ends: with a failure of its own, or as its commit does. -/
def ending (commit : Except Failure Outcome) :
    Except Failure Unit → Except Failure (Except AbortReason Unit)
  | .error failure => .error failure
  | .ok () =>
    match commit with
    | .error failure => .error failure
    | .ok (.committed _) => .ok (.ok ())
    | .ok (.aborted reason) => .ok (.error reason)

/-- How work may fail: with a failure of its own, with an error of its commit, or because its commit
was aborted for the last time. -/
inductive WorkFails (sys : System db ω) (I : ω → Prop) (answer : ω → Except Failure Unit) :
    Failure → Prop where
  | own {left : ω} {failure : Failure} (hleft : I left) (hanswer : answer left = .error failure) :
      WorkFails sys I answer failure
  | commit {left : ω} {txn : Transaction} {failure : Failure} (hleft : I left)
      (htxn : txn ∈ sys.txns left)
      (hcommit : (db.commit [] txn (sys.state left)).answer = .error failure) :
      WorkFails sys I answer failure
  | givenUp {left : ω} {txn : Transaction} {reason : AbortReason} (hleft : I left)
      (htxn : txn ∈ sys.txns left)
      (hcommit : (db.commit [] txn (sys.state left)).answer = .ok (.aborted reason)) (runs : Nat) :
      WorkFails sys I answer (.error (.givenUp (.afterRuns reason runs)))

section Work

variable {act : Diary ω → Diary ω} {diary left : Diary ω} (answer : ω → Except Failure Unit)

/-- One run of some work: its transaction begins, the work acts, and the transaction is ended. -/
theorem runOnce_work
    (hleft : act ⟨sys.step diary.now (.begin (sys.state diary.now).isolation), diary.past⟩ = left)
    {own : Transaction} (hown : (sys.txns left.now)[(sys.txns diary.now).length]? = some own) :
    let closed := sys.close left.now (sys.txns diary.now).length (answer left.now)
    db.runOnce (sys.work act answer) (sys.state diary.now) diary =
      ⟨ending (db.commit [] own (sys.state left.now)).answer (answer left.now), sys.state closed,
        ⟨closed, left.past⟩⟩ := by
  intro closed
  have hfound : act ⟨sys.enrol (sys.withState diary.now (sys.state diary.now).begin.2)
      (sys.state diary.now).begin.1, diary.past⟩ = left := by
    rw [← hleft, sys.step_begin]
    rfl
  unfold Database.runOnce work
  simp only [hfound, hown, Option.getD_some]
  rcases hanswer : answer left.now with (e | m | _) | _
  · simp only [closed, hanswer, close, ending, sys.state_abort left.now _ own hown]
  · simp only [closed, hanswer, close, ending]
  · simp only [closed, hanswer, close, ending]
  · simp only [closed, hanswer, close, ending, sys.state_commit left.now _ own hown]
    generalize db.commit [] own (sys.state left.now) = turn
    obtain ⟨commit, txn, after⟩ := turn
    rcases commit with failure | ts | reason <;> rfl

/-- A run that does not go through ends in one of the ways in which work fails. -/
theorem WorkFails.of_ending {own : Transaction} (hleft : I left.now)
    (hown : own ∈ sys.txns left.now) :
    let ended := ending (db.commit [] own (sys.state left.now)).answer (answer left.now)
    (∀ failure, ended = .error failure → WorkFails sys I answer failure) ∧
      ∀ reason, ended = .ok (.error reason) → ∀ runs,
        WorkFails sys I answer (.error (.givenUp (.afterRuns reason runs))) := by
  intro ended
  cases hanswer : answer left.now with
  | error failure =>
    simp only [ended, hanswer, ending]
    refine ⟨?_, fun _ h => by cases h⟩
    rintro _ ⟨⟩
    exact .own hleft hanswer
  | ok =>
    simp only [ended, hanswer, ending]
    rcases hcommit : (db.commit [] own (sys.state left.now)).answer with failure | ts | reason
    · refine ⟨?_, fun _ h => by cases h⟩
      rintro _ ⟨⟩
      exact .commit hleft hown hcommit
    · exact ⟨fun _ h => (by cases h), fun _ h => (by cases h)⟩
    · refine ⟨fun _ h => (by cases h), ?_⟩
      rintro _ ⟨⟩
      exact .givenUp hleft hown hcommit

/-- Between two runs of some work the state of the store is the one in the diary, `I` holds and has
held all along, and no fewer than `least` transactions have been begun. -/
structure Between (sys : System db ω) (I : ω → Prop) (least : Nat) (state : State σ)
    (kept : Diary ω) : Prop where
  state_eq : state = sys.state kept.now
  holds : kept.Holds I
  least_le : least ≤ (sys.txns kept.now).length

/-- One run of some work keeps what calls keep. -/
theorem Between.runOnce {least : Nat} {state : State σ} (h : sys.Between I least state diary)
    (hI : sys.Invariant I) (hact : sys.Keeps I act) :
    (db.runOnce (sys.work act answer) state diary).Keeps (sys.Between I least)
      (WorkFails sys I answer) := by
  obtain ⟨rfl, hholds, hleast⟩ := h
  have hbegun : Diary.Holds I
      ⟨sys.step diary.now (.begin (sys.state diary.now).isolation), diary.past⟩ :=
    ⟨hI.call diary.now _ hholds.now, hholds.past⟩
  obtain ⟨hleft, hgrows⟩ := hact _ hbegun
  generalize hact' : act _ = left at hleft hgrows
  have hlt : (sys.txns diary.now).length < (sys.txns left.now).length := by
    simp only [sys.step_begin, sys.txns_enrol, sys.txns_withState, List.length_append,
      List.length_singleton] at hgrows
    omega
  obtain ⟨own, hown⟩ : ∃ own, (sys.txns left.now)[(sys.txns diary.now).length]? = some own :=
    ⟨_, List.getElem?_eq_getElem hlt⟩
  have hends := WorkFails.of_ending answer hleft.now (List.mem_of_getElem? hown)
  rw [runOnce_work answer hact' hown]
  refine ⟨⟨rfl, ⟨hI.close hleft.now _ _, hleft.past⟩, ?_⟩, hends.1, hends.2⟩
  exact (sys.invariant_length least).close (hleast.trans hlt.le) _ _

/-- So do all the runs of the work, and it fails in one of its ways. -/
theorem Invariant.transact (hI : sys.Invariant I) (policy : RetryPolicy)
    (hact : sys.Keeps I act) :
    sys.Keeps I (fun diary => (sys.transact policy act answer diary).2) ∧
      ∀ diary, diary.Holds I → ∀ failure,
        (sys.transact policy act answer diary).1 = .error failure →
          WorkFails sys I answer failure := by
  have hruns : ∀ diary : Diary ω, diary.Holds I →
      let left := db.transactionWith policy (sys.work act answer) (sys.state diary.now) diary
      sys.Between I (sys.txns diary.now).length left.state left.kept ∧
        ∀ failure, left.answer = .error failure → WorkFails sys I answer failure :=
    fun diary h => Database.runRetrying_keeps
      (fun _ _ hkept => Between.runOnce answer hkept hI hact) policy.maxRetries.toNat 0
      ⟨rfl, h, Nat.le_refl _⟩
  refine ⟨fun diary h => ?_, fun diary h => (hruns diary h).2⟩
  obtain ⟨hstate, hholds, hgrows⟩ := (hruns diary h).1
  simp only [System.transact, hstate, sys.withState_state]
  exact ⟨hholds.note hholds.now, hgrows⟩

end Work

end System

/-- What calls keep holds at every moment of a plan. -/
theorem Plan.keeps_run {σ ω : Type} {db : Database σ} {sys : System db ω} {I : ω → Prop}
    (hI : sys.Invariant I) (plan : Plan ω) : sys.Keeps I (plan.run sys) := by
  induction plan with
  | done => exact fun diary h => ⟨h, Nat.le_refl _⟩
  | call c rest ih =>
    intro diary h
    obtain ⟨hholds, hgrows⟩ := ih _ (h.note (hI.call diary.now c h.now))
    exact ⟨hholds, (sys.grows diary.now c).trans hgrows⟩
  | setIsolation level rest ih =>
    intro diary h
    obtain ⟨hholds, hgrows⟩ := ih _ (h.note (hI.level diary.now level h.now))
    exact ⟨hholds, ((sys.invariant_length _).level _ _ (Nat.le_refl _)).trans hgrows⟩
  | transaction policy body answer rest ihbody ih =>
    intro diary h
    have hact : sys.Keeps I fun found => (body found.now).run sys found :=
      fun found hfound => ihbody found.now found hfound
    obtain ⟨hwork, hlonger⟩ := (hI.transact answer policy hact).1 diary h
    obtain ⟨hholds, hgrows⟩ := ih _ hwork
    exact ⟨hholds, hlonger.trans hgrows⟩

end StampStore
