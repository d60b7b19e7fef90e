-- The metrics of a store against its transactions. Every transaction that has been
-- begun is counted as active until it ends, and from then on under the one cause
-- that its final status shows. This holds at every moment of a plan, over any engine.
import StampStore.Proofs.Plans
import StampStore.Proofs.Rosters
import Mathlib.Algebra.GroupWithZero.Nat
import Mathlib.Data.List.Count

namespace StampStore

variable {σ : Type}

/-! ## Counting endings -/

/-- The counters say how many transactions have ended in each way; `none` stands for one that has
not. -/
structure Counters.Tally (c : Counters) (endings : List (Option Ending)) : Prop where
  started : c.started.toNat = endings.length
  inFlight : c.inFlight.toNat = endings.count none
  committed : c.committed.toNat =
    endings.count (some (.committed true)) + endings.count (some (.committed false))
  readOnly : c.readOnly.toNat = endings.count (some (.committed true))
  requested : c.requested.toNat = endings.count (some .requested)
  conflicts : c.conflicts.toNat = endings.count (some .conflict)
  faults : c.faults.toNat = endings.count (some .storageFault)
  partially : c.partially.toNat = endings.count (some .partiallyApplied)

theorem tally_zero : Counters.zero.Tally [] := by
  constructor <;> rfl

/-- Every transaction has ended in one way, or not yet. -/
theorem length_eq_counts (endings : List (Option Ending)) :
    endings.length = endings.count none +
      (endings.count (some (.committed true)) + endings.count (some (.committed false))) +
      endings.count (some .requested) + endings.count (some .conflict) +
      endings.count (some .storageFault) + endings.count (some .partiallyApplied) := by
  induction endings with
  | nil => rfl
  | cons ending endings ih =>
    rcases ending with _ | ((_ | _) | _ | _ | _ | _) <;> simp <;> omega

section Ended

variable {endings : List (Option Ending)} {n : Nat}

theorem count_none_set (hn : endings[n]? = some none) (ending : Ending) :
    (endings.set n (some ending)).count none = endings.count none - 1 := by
  obtain ⟨hlt, hget⟩ := List.getElem?_eq_some_iff.mp hn
  rw [List.count_set hlt, hget]
  simp

theorem count_some_set (hn : endings[n]? = some none) (ending other : Ending) :
    (endings.set n (some ending)).count (some other) =
      endings.count (some other) + if ending = other then 1 else 0 := by
  obtain ⟨hlt, hget⟩ := List.getElem?_eq_some_iff.mp hn
  rw [List.count_set hlt, hget]
  simp

end Ended

theorem toNat_add_one {x : UInt64} (h : x.toNat + 1 < 2 ^ 64) : (x + 1).toNat = x.toNat + 1 := by
  rw [UInt64.toNat_add]
  exact Nat.mod_eq_of_lt h

namespace Counters.Tally

variable {c : Counters} {endings : List (Option Ending)}

theorem start (h : c.Tally endings) (hlt : endings.length + 1 < 2 ^ 64) :
    c.start.Tally (endings ++ [none]) where
  started := by
    have hstarted := h.started
    rw [Counters.start, toNat_add_one (by omega), hstarted, List.length_append]
    rfl
  inFlight := by
    have hinFlight := h.inFlight
    have hle := endings.count_le_length (a := none)
    rw [Counters.start, toNat_add_one (by omega), hinFlight, List.count_append]
    rfl
  committed := by simpa [Counters.start, List.count_append] using h.committed
  readOnly := by simpa [Counters.start, List.count_append] using h.readOnly
  requested := by simpa [Counters.start, List.count_append] using h.requested
  conflicts := by simpa [Counters.start, List.count_append] using h.conflicts
  faults := by simpa [Counters.start, List.count_append] using h.faults
  partially := by simpa [Counters.start, List.count_append] using h.partially

variable {n : Nat}

theorem finish (h : c.Tally endings) (hn : endings[n]? = some none)
    (hlt : endings.length < 2 ^ 64) (ending : Ending) :
    (c.finish ending).Tally (endings.set n (some ending)) := by
  have hsum := length_eq_counts endings
  have hpos : 0 < endings.count none :=
    List.count_pos_iff.mpr (List.mem_of_getElem? hn)
  -- one transaction has not ended yet, so no cause has been counted as often as there are any
  have hticked : ∀ {x : UInt64} {other : Ending}, x.toNat = endings.count (some other) →
      (if ending = other then x + 1 else x).toNat =
        (endings.set n (some ending)).count (some other) := by
    intro x other hx
    have hbound : endings.count (some other) < endings.length :=
      List.count_lt_length_iff.mpr ⟨none, List.mem_of_getElem? hn, nofun⟩
    rw [count_some_set hn]
    split
    · rw [toNat_add_one (by omega), hx]
    · rw [hx, Nat.add_zero]
  rw [Counters.finish_eq]
  exact
    { started := by rw [List.length_set]; exact h.started
      inFlight := by
        have hone : (1 : UInt64) ≤ c.inFlight := by
          rw [UInt64.le_iff_toNat_le, h.inFlight]
          exact hpos
        have hne : c.inFlight ≠ 0 := by
          intro hzero
          rw [hzero] at hone
          exact absurd hone (by decide)
        simp only
        rw [count_none_set hn, if_neg hne, UInt64.toNat_sub_of_le _ _ hone, h.inFlight]
        rfl
      committed := by
        have hcommitted := h.committed
        simp only
        rw [count_some_set hn, count_some_set hn]
        split
        · rw [toNat_add_one (by omega), hcommitted]
          rename_i hcases
          rcases hcases with rfl | rfl <;> simp <;> omega
        · rename_i hnot
          rw [not_or] at hnot
          rw [if_neg hnot.1, if_neg hnot.2]
          exact hcommitted
      readOnly := hticked h.readOnly
      requested := hticked h.requested
      conflicts := hticked h.conflicts
      faults := hticked h.faults
      partially := hticked h.partially }

end Counters.Tally

/-! ## Rosters in balance -/

/-- Whether the transaction was aborted because of a conflict. -/
def Status.isConflicted : Status → Bool
  | aborted (.conflict _) => true
  | _ => false

/-- The status of a transaction shows how it has ended, if it has. -/
structure Status.Shows (status : Status) (readOnly : Bool) : Prop where
  committed : ∀ b, status.ending? readOnly = some (.committed b) ↔
    status.isCommitted = true ∧ readOnly = b
  requested : status.ending? readOnly = some .requested ↔ status = .aborted .requested
  conflict : status.ending? readOnly = some .conflict ↔ status.isConflicted = true
  storageFault : status.ending? readOnly = some .storageFault ↔ status = .aborted .storageFault
  partiallyApplied :
    status.ending? readOnly = some .partiallyApplied ↔ status.isPartiallyApplied = true
  none : status.ending? readOnly = none ↔ status.isActive = true ∨ status = .validating

theorem shows_status (status : Status) (readOnly : Bool) : status.Shows readOnly := by
  constructor <;> rcases status with _ | _ | _ | (_ | _ | _) | _ <;>
    simp [Status.ending?, AbortReason.ending, Status.isCommitted, Status.isConflicted,
      Status.isPartiallyApplied, Status.isActive]

namespace Roster

variable {r r' : Roster σ}

/-- The metrics agree with the transactions: each is active or counted under one cause, the one that
its final status shows. -/
structure Balanced (r : Roster σ) : Prop where
  total : r.state.stats.started.toNat =
    r.state.stats.active.toNat + r.state.stats.committed.toNat + r.state.stats.requested.toNat +
      r.state.stats.conflicts.toNat + r.state.stats.faults.toNat + r.state.stats.partially.toNat
  started : r.state.stats.started.toNat = r.entries.length
  active : r.state.stats.active.toNat = r.entries.countP fun entry => entry.txn.isActive
  committed : r.state.stats.committed.toNat =
    r.entries.countP fun entry => entry.txn.status.isCommitted
  /-- Those that had buffered nothing when their commit was asked for. -/
  readOnly : r.state.stats.readOnly.toNat =
    r.entries.countP fun entry => entry.txn.status.isCommitted && entry.readOnly
  requested : r.state.stats.requested.toNat =
    r.entries.countP fun entry => entry.txn.status = .aborted .requested
  conflicts : r.state.stats.conflicts.toNat =
    r.entries.countP fun entry => entry.txn.status.isConflicted
  faults : r.state.stats.faults.toNat =
    r.entries.countP fun entry => entry.txn.status = .aborted .storageFault
  partially : r.state.stats.partially.toNat =
    r.entries.countP fun entry => entry.txn.status.isPartiallyApplied

/-- How each transaction has ended. -/
def endings (r : Roster σ) : List (Option Ending) :=
  r.entries.map fun entry => entry.txn.status.ending? entry.readOnly

/-- The transactions that have ended in one way are those whose final status shows it. -/
theorem count_endings {ending : Option Ending} {p : Enrolled → Bool}
    (h : ∀ entry ∈ r.entries,
      entry.txn.status.ending? entry.readOnly = ending ↔ p entry = true) :
    r.endings.count ending = r.entries.countP p := by
  rw [endings, List.count_eq_countP, List.countP_map]
  refine List.countP_congr fun entry hentry => ?_
  rw [← h entry hentry]
  simp

/-- The committed transactions are those that had buffered nothing and those that had. -/
theorem countP_committed (r : Roster σ) :
    r.entries.countP (fun entry => entry.txn.status.isCommitted) =
      r.endings.count (some (.committed true)) + r.endings.count (some (.committed false)) := by
  have hcount : ∀ b, r.endings.count (some (.committed b)) =
      r.entries.countP fun entry => entry.txn.status.isCommitted && entry.readOnly == b := by
    intro b
    refine count_endings fun entry _ => ?_
    rw [(shows_status _ _).committed b, Bool.and_eq_true, beq_iff_eq]
  rw [List.countP_eq_countP_filter_add _ _ (·.readOnly), List.countP_filter, List.countP_filter,
    hcount, hcount]
  simp

theorem balanced_of_tally (h : r.state.counters.Tally r.endings) (hr : r.Settled) :
    r.Balanced := by
  have htotal : r.state.counters.started.toNat = _ := h.started.trans (length_eq_counts r.endings)
  rw [← h.inFlight, ← h.committed, ← h.requested, ← h.conflicts, ← h.faults, ← h.partially]
    at htotal
  have hshows := fun entry : Enrolled => shows_status entry.txn.status entry.readOnly
  exact
    { total := htotal
      started := h.started.trans (List.length_map _)
      active := h.inFlight.trans <| count_endings fun entry hentry => by
        rw [(hshows entry).none, or_iff_left (hr entry hentry).decided]
        rfl
      committed := h.committed.trans r.countP_committed.symm
      readOnly := h.readOnly.trans <| count_endings fun entry _ => by
        rw [(hshows entry).committed true, Bool.and_eq_true]
      requested := h.requested.trans <| count_endings fun entry _ => by
        rw [(hshows entry).requested, decide_eq_true_iff]
      conflicts := h.conflicts.trans <| count_endings fun entry _ => (hshows entry).conflict
      faults := h.faults.trans <| count_endings fun entry _ => by
        rw [(hshows entry).storageFault, decide_eq_true_iff]
      partially := h.partially.trans <| count_endings fun entry _ => (hshows entry).partiallyApplied }

/-! ## Balance at every moment -/

theorem Step.length_le (h : r.Step r') : r.entries.length ≤ r'.entries.length := by
  cases h with
  | unchanged => exact Nat.le_refl _
  | begun level => simp
  | served => simp
  | ended => simp

/-- A roster as a system: work has its transaction as the last on the roster. -/
def system (db : Database σ) : System db (Roster σ) where
  state := Roster.state
  withState r state := { r with state }
  txns r := r.entries.map (·.txn)
  enrol r txn := { r with entries := r.entries ++ [⟨txn, false⟩] }
  step := Roster.step db
  withState_state _ := rfl
  txns_withState _ _ := rfl
  txns_enrol _ _ := List.map_append
  step_begin _ _ := rfl
  state_abort r n txn h := by
    rw [List.getElem?_map, Option.map_eq_some_iff] at h
    obtain ⟨entry, hentry, rfl⟩ := h
    simp only [step, hentry]
  state_commit r n txn h := by
    rw [List.getElem?_map, Option.map_eq_some_iff] at h
    obtain ⟨entry, hentry, rfl⟩ := h
    simp only [step, hentry]
  grows r call := by simpa using (step_cases db r call).length_le

theorem endings_set (r : Roster σ) (state : State σ) (n : Nat) (next : Enrolled) :
    endings ⟨state, r.entries.set n next⟩ =
      r.endings.set n (next.txn.status.ending? next.readOnly) :=
  List.map_set

theorem ending?_of_active {txn : Transaction} (h : txn.isActive = true) (readOnly : Bool) :
    txn.status.ending? readOnly = none :=
  (shows_status txn.status readOnly).none.mpr (Or.inl h)

/-- The counters keep telling how the transactions have ended, whatever is called. -/
theorem Step.tally (h : r.Step r') (hr : r.state.counters.Tally r.endings)
    (hlt : r'.entries.length < 2 ^ 64) : r'.state.counters.Tally r'.endings := by
  have hlength : r.endings.length = r.entries.length := List.length_map _
  have hnone : ∀ {n : Nat} {entry : Enrolled}, r.entries[n]? = some entry →
      entry.txn.isActive = true → r.endings[n]? = some none := by
    intro n entry hentry hactive
    rw [endings, List.getElem?_map, hentry, Option.map_some, ending?_of_active hactive]
  cases h with
  | unchanged => exact hr
  | begun level =>
    rw [List.length_append, List.length_singleton, ← hlength] at hlt
    rw [endings, List.map_append]
    exact hr.start hlt
  | served hentry hactive hnext hcounters =>
    rw [endings_set, ending?_of_active hnext, set_same (hnone hentry hactive)]
    simp only
    rw [hcounters]
    exact hr
  | ended hentry hactive hending hcounters =>
    rw [List.length_set, ← hlength] at hlt
    rw [endings_set]
    simp only [Transaction.finish]
    rw [hending, hcounters]
    exact hr.finish (hnone hentry hactive) hlt _

/-- The counters tell how the transactions have ended, as long as they can count them. -/
structure Audited (r : Roster σ) : Prop where
  settled : r.Settled
  tally : r.entries.length < 2 ^ 64 → r.state.counters.Tally r.endings

theorem Audited.balanced (h : r.Audited) (hlt : r.entries.length < 2 ^ 64) : r.Balanced :=
  balanced_of_tally (h.tally hlt) h.settled

theorem invariant_audited (db : Database σ) : (system db).Invariant Audited where
  call r call h :=
    have hstep := step_cases db r call
    { settled := hstep.settled h.settled
      tally := fun hlt => hstep.tally (h.tally (hstep.length_le.trans_lt hlt)) hlt }
  level _ _ h := ⟨h.settled, h.tally⟩

end Roster

/-- Any plan on a store over any engine, from the moment the store is opened: after every call, inside
of work as well, the metrics are in balance. -/
theorem metrics_balance_after_every_call (db : Database σ) (stored : σ) (level : Isolation)
    (plan : Plan (Roster σ)) :
    let diary := plan.run (Roster.system db)
      (Diary.start (Roster.start (State.initial stored level)))
    diary.Holds fun r => r.entries.length < 2 ^ 64 → r.Balanced := by
  intro diary
  have hstart : (Roster.start (State.initial stored level)).Audited :=
    ⟨fun _ h => (List.not_mem_nil h).elim, fun _ => tally_zero⟩
  have hholds := (plan.keeps_run (Roster.invariant_audited db) _ (Diary.holds_start hstart)).1
  exact hholds.mono fun _ h => h.balanced

/-- Nine transactions on a store whose first storage call fails, and the fifteenth. The first one is
asked to commit twice and then to abort; the next is aborted by the first fault. Some work is refused
for a conflict and runs again, some has its transaction committed before it fails, and some just
fails. Then one transaction stops among its writes, and one is still active. -/
theorem nine_transactions_in_balance :
    let a : Key := ⟨[97]⟩
    let k : Key := ⟨[107]⟩
    let lost : Option Error := some (.storage "lost")
    let db := (Database.under .append).faulty
    let stored : Faulty Records :=
      ⟨KeyMap.empty.insert k (Tuple.make ⟨1, 1⟩ [49]).bytes, lost :: List.replicate 13 none ++ [lost]⟩
    let failed : Except Failure Unit := .error (.error (.storage "no use"))
    -- the first run, in transaction 2, lets another transaction write `k` before it commits
    let update (found : Roster (Faulty Records)) : Plan (Roster (Faulty Records)) :=
      let own := found.entries.length - 1
      .call (.ask own (.lookup k)) <| .call (.ask own (.write k (.update [50]))) <|
        if own = 2 then .call (.begin .serializable) <| .call (.ask 3 (.write k (.update [51]))) <|
          .call (.commit 3) .done
        else .done
    let last : Plan (Roster (Faulty Records)) :=
      .call (.begin .repeatableRead) <| .call (.ask 7 (.write k (.update [52]))) <|
        .call (.ask 7 (.write a (.insert [53]))) <| .call (.commit 7) <|
        .call (.begin .serializable) .done
    let works : Plan (Roster (Faulty Records)) :=
      .transaction RetryPolicy.standard update (fun _ => .ok ()) <|
        .transaction RetryPolicy.standard (fun _ => .call (.commit 5) .done) (fun _ => failed) <|
        .transaction RetryPolicy.standard (fun _ => .done) (fun _ => failed) last
    let plan : Plan (Roster (Faulty Records)) :=
      .call (.begin .serializable) <| .call (.commit 0) <| .call (.commit 0) <| .call (.abort 0) <|
        .call (.begin .snapshot) <| .call (.ask 1 (.write k (.insert [54]))) <| .call (.commit 1) works
    let diary := plan.run (Roster.system db)
      (Diary.start (Roster.start (State.initial stored .serializable)))
    diary.now.state.stats =
        { active := 1, started := 9, committed := 4, readOnly := 2, aborted := 3, requested := 1
          conflicts := 1, faults := 1, partially := 1, lockRetries := 0 } ∧
      diary.past.length = 23 ∧ diary.now.entries.length < 2 ^ 64 ∧ diary.now.Balanced := by
  intro a k lost db stored failed update last works plan diary
  have hlt : diary.now.entries.length < 2 ^ 64 := by decide +kernel
  exact ⟨by decide +kernel, by decide +kernel, hlt,
    (metrics_balance_after_every_call db stored .serializable plan).now hlt⟩

end StampStore
