-- Stores over any engine, and the transactions that have been begun on them. A call
-- for an active transaction leaves it active, or ends it in one way and counts it
-- once. A finished transaction stays as it is, and every call for it is refused.
import StampStore.Proofs.Failures
import StampStore.Proofs.Runs

namespace StampStore

variable {σ : Type}

/-! ## Transactions on a roster -/

/-- A transaction that has been begun. -/
structure Enrolled where
  txn : Transaction
  /-- Whether it had buffered nothing when its commit was asked for. -/
  readOnly : Bool

/-- A store with the transactions begun on it, in the order they were begun. -/
structure Roster (σ : Type) where
  state : State σ
  entries : List Enrolled

/-- Sends a request to the store. -/
def Enrolled.ask (db : Database σ) (entry : Enrolled) (request : Request) (state : State σ) :
    Enrolled × State σ :=
  match request with
  | .lookup key =>
    match db.lookup entry.txn key state with
    | ⟨_, txn, after⟩ => ({ entry with txn }, after)
  | .write key message =>
    match db.write entry.txn key message with
    | .error _ => (entry, state)
    | .ok txn => ({ entry with txn }, state)

namespace Roster

/-- The roster of a store on which nothing has been begun. -/
def start (state : State σ) : Roster σ := ⟨state, []⟩

/-- One call. A call for a transaction that has not been begun does nothing. -/
def step (db : Database σ) (r : Roster σ) : Call → Roster σ
  | .begin level =>
    match r.state.beginAt level with
    | (txn, state) => ⟨state, r.entries ++ [⟨txn, false⟩]⟩
  | .ask n request =>
    match r.entries[n]? with
    | none => r
    | some entry =>
      match entry.ask db request r.state with
      | (entry, state) => ⟨state, r.entries.set n entry⟩
  | .abort n =>
    match r.entries[n]? with
    | none => r
    | some entry =>
      match r.state.abort entry.txn with
      | (txn, state) => ⟨state, r.entries.set n { entry with txn }⟩
  | .commit n =>
    match r.entries[n]? with
    | none => r
    | some entry =>
      match db.commit [] entry.txn r.state with
      | ⟨_, txn, state⟩ =>
        let readOnly := if entry.txn.isActive then entry.txn.writes.isEmpty else entry.readOnly
        ⟨state, r.entries.set n ⟨txn, readOnly⟩⟩

/-- Calls one after another. -/
def run (db : Database σ) (r : Roster σ) (calls : List Call) : Roster σ := calls.foldl (step db) r

end Roster

/-! ## How transactions end -/

/-- How a transaction has ended that stands at a status. -/
def Status.ending? (readOnly : Bool) : Status → Option Ending
  | active => none
  | validating => none
  | committed => some (.committed readOnly)
  | aborted reason => some reason.ending
  | partiallyApplied _ _ => some .partiallyApplied

/-- What a commit answers counts as what the transaction ends as. -/
theorem ending_finish (decided : Transaction) (readOnly : Bool) (answer : Except Error Outcome) :
    (decided.finish (Transaction.finalStatus answer)).ending readOnly (answer.mapError .error) =
      (Transaction.finalStatus answer).ending? readOnly := by
  cases answer with
  | ok outcome => cases outcome <;> rfl
  | error e => cases e <;> rfl

theorem ending?_finalStatus (readOnly : Bool) (answer : Except Error Outcome) :
    ∃ ending, (Transaction.finalStatus answer).ending? readOnly = some ending := by
  cases answer with
  | ok outcome => cases outcome <;> exact ⟨_, rfl⟩
  | error e => cases e <;> exact ⟨_, rfl⟩

/-- A commit of an active transaction waits for ever, or it finishes the transaction, whatever the
engine answers. -/
theorem commit_exits (engine : Engine σ) {txn : Transaction} (hactive : txn.isActive = true)
    (rounds : List LockTable.Releases) (shared : Shared σ) :
    txn.commit engine rounds shared = ⟨.error .blocked, txn, shared, 0⟩ ∨
      ∃ (answer : Except Error Outcome) (decided : Transaction) (after : Shared σ)
        (retries : Nat), txn.commit engine rounds shared =
          ⟨answer.mapError .error, decided.finish (Transaction.finalStatus answer), after,
            retries⟩ := by
  cases hlock : LockTable.lockWaiting txn.ready.writes.keys txn.id rounds shared.locks with
  | none => exact Or.inl (commit_of_blocked engine hactive hlock)
  | some locked =>
    rcases hunder : txn.ready.underLocks engine ⟨shared.stored, locked.1⟩ with
      ⟨answer, decided, after⟩
    exact Or.inr ⟨answer, decided, _, locked.2, commit_of_locked engine hactive hlock hunder⟩

/-- A lookup leaves the transaction where it stands. -/
theorem status_read (engine : Engine σ) (merge : MergeOperator) (txn : Transaction) (key : Key)
    (shared : Shared σ) : (txn.read engine merge key shared).txn.status = txn.status := by
  have hlooks := looks_read engine merge txn key shared
  generalize txn.read engine merge key shared = turn at hlooks ⊢
  cases hlooks <;> rfl

/-- A request neither ends a transaction nor counts. -/
theorem ask_serves (db : Database σ) (entry : Enrolled) (request : Request) (state : State σ) :
    (entry.ask db request state).1.txn.status = entry.txn.status ∧
      (entry.ask db request state).2.counters = state.counters := by
  unfold Enrolled.ask
  cases request with
  | lookup key => exact ⟨status_read db.engine db.merge entry.txn key state.shared, rfl⟩
  | write key message =>
    simp only
    cases hwrite : db.write entry.txn key message with
    | error failure => exact ⟨rfl, rfl⟩
    | ok txn =>
      obtain ⟨-, writes, rfl, -⟩ := write_cases hwrite
      exact ⟨rfl, rfl⟩

/-! ## Calls for finished transactions -/

/-- Every call for the transaction is refused by the name of its status or, if it asks for an abort,
does nothing. What is shared stays as it is. -/
structure Database.Refuses (db : Database σ) (txn : Transaction) (state : State σ) : Prop where
  lookup : ∀ key, db.lookup txn key state =
    ⟨.error (.notActive txn.id txn.status.name), txn, state⟩
  write : ∀ key message, db.write txn key message =
    .error (.error (.notActive txn.id txn.status.name))
  commit : ∀ rounds, db.commit rounds txn state =
    ⟨.error (.error (.notActive txn.id txn.status.name)), txn, state⟩
  /-- The guard of the commit itself, below the one that keeps it from being counted. -/
  commitUncounted : ∀ rounds, db.commitUncounted rounds txn state =
    ⟨.error (.error (.notActive txn.id txn.status.name)), txn, state⟩
  abort : state.abort txn = (txn, state)

theorem refuses_of_inactive (db : Database σ) {txn : Transaction} (h : txn.isActive = false)
    (state : State σ) : db.Refuses txn state where
  lookup key := by
    unfold Database.lookup Transaction.read
    simp only [h, Bool.false_eq_true, if_false, Transaction.notActive]
  write key message := by
    unfold Database.write Transaction.write
    simp only [h, Bool.false_eq_true, if_false, Transaction.notActive]
  commit rounds := by
    unfold Database.commit
    simp only [h, Bool.false_eq_true, if_false, Transaction.notActive]
  commitUncounted rounds := by
    unfold Database.commitUncounted Transaction.commit
    simp only [h, Bool.false_eq_true, if_false, Transaction.notActive]
    rw [show UInt64.ofNat 0 = 0 from rfl, UInt64.add_zero]
  abort := by
    unfold State.abort
    simp only [h, Bool.false_eq_true, if_false]

/-- The transaction is not in the middle of a commit and, once it has finished, has dropped what it
had read and buffered. -/
structure Transaction.Settled (txn : Transaction) : Prop where
  decided : txn.status ≠ .validating
  emptied : txn.isActive = false → txn.reads = ReadLog.empty ∧ txn.writes = WriteBuffer.empty

theorem settled_of_active {txn : Transaction} (h : txn.isActive = true) : txn.Settled where
  decided hstatus := by
    rw [Transaction.isActive, hstatus] at h
    cases h
  emptied hfinished := by
    rw [h] at hfinished
    cases hfinished

theorem settled_of_ending {status : Status} {readOnly : Bool} {ending : Ending}
    (h : status.ending? readOnly = some ending) (txn : Transaction) :
    (txn.finish status).Settled where
  decided hstatus := by
    rw [show status = .validating from hstatus] at h
    cases h
  emptied _ := ⟨rfl, rfl⟩

namespace Roster

variable {db : Database σ} {r r' : Roster σ} {n : Nat} {entry : Enrolled}

theorem step_of_absent (hentry : r.entries[n]? = none) {call : Call}
    (hcall : call.client? = some n) : r.step db call = r := by
  cases call with
  | begin level => cases hcall
  | ask m request =>
    cases hcall
    simp only [step, hentry]
  | abort m =>
    cases hcall
    simp only [step, hentry]
  | commit m =>
    cases hcall
    simp only [step, hentry]

theorem step_of_finished (hentry : r.entries[n]? = some entry) (h : entry.txn.isActive = false)
    {call : Call} (hcall : call.client? = some n) : r.step db call = r := by
  have hrefuses := refuses_of_inactive db h r.state
  cases call with
  | begin level => cases hcall
  | ask m request =>
    cases hcall
    cases request with
    | lookup key =>
      simp only [step, hentry, Enrolled.ask, hrefuses.lookup key]
      rw [set_same hentry]
    | write key message =>
      simp only [step, hentry, Enrolled.ask, hrefuses.write key message]
      rw [set_same hentry]
  | abort m =>
    cases hcall
    simp only [step, hentry, hrefuses.abort]
    rw [set_same hentry]
  | commit m =>
    cases hcall
    simp only [step, hentry, hrefuses.commit []]
    rw [h, if_neg Bool.false_ne_true, set_same hentry]

/-! ## What a call does -/

/-- The ways a call can go, over any engine. -/
inductive Step (r : Roster σ) : Roster σ → Prop where
  | unchanged : Step r r
  | begun (level : Isolation) :
      Step r ⟨(r.state.beginAt level).2, r.entries ++ [⟨(r.state.beginAt level).1, false⟩]⟩
  | served {n : Nat} {entry next : Enrolled} {state : State σ}
      (hentry : r.entries[n]? = some entry) (hactive : entry.txn.isActive = true)
      (hnext : next.txn.isActive = true) (hcounters : state.counters = r.state.counters) :
      Step r ⟨state, r.entries.set n next⟩
  | ended {n : Nat} {entry : Enrolled} {decided : Transaction} {status : Status} {readOnly : Bool}
      {ending : Ending} {state : State σ}
      (hentry : r.entries[n]? = some entry) (hactive : entry.txn.isActive = true)
      (hending : status.ending? readOnly = some ending)
      (hcounters : state.counters = r.state.counters.finish ending) :
      Step r ⟨state, r.entries.set n ⟨decided.finish status, readOnly⟩⟩

theorem step_active (db : Database σ) (hentry : r.entries[n]? = some entry)
    (hactive : entry.txn.isActive = true) {call : Call} (hcall : call.client? = some n) :
    r.Step (r.step db call) := by
  cases call with
  | begin level => cases hcall
  | ask m request =>
    cases hcall
    simp only [step, hentry]
    obtain ⟨hstatus, hcounters⟩ := ask_serves db entry request r.state
    exact .served hentry hactive ((congrArg Status.isActive hstatus).trans hactive) hcounters
  | abort m =>
    cases hcall
    simp only [step, hentry, State.abort, Transaction.abort, hactive, if_true]
    exact .ended hentry hactive rfl rfl
  | commit m =>
    cases hcall
    simp only [step, hentry, hactive, if_true]
    rcases commit_exits db.engine hactive [] r.state.shared with hblocked | ⟨answer, decided, after,
      retries, hended⟩
    · rw [Database.commit_active hactive hblocked]
      exact .served hentry hactive hactive rfl
    · obtain ⟨ending, hending⟩ := ending?_finalStatus entry.txn.writes.isEmpty answer
      rw [Database.commit_active hactive hended]
      refine .ended hentry hactive hending ?_
      rw [Counters.ended, ending_finish, hending]
      rfl

theorem step_cases (db : Database σ) (r : Roster σ) (call : Call) : r.Step (r.step db call) := by
  cases hcall : call.client? with
  | none =>
    cases call with
    | begin level => exact .begun level
    | ask => cases hcall
    | abort => cases hcall
    | commit => cases hcall
  | some n =>
    cases hentry : r.entries[n]? with
    | none =>
      rw [step_of_absent hentry hcall]
      exact .unchanged
    | some entry =>
      cases hactive : entry.txn.isActive with
      | false =>
        rw [step_of_finished hentry hactive hcall]
        exact .unchanged
      | true => exact step_active db hentry hactive hcall

/-! ## What calls keep -/

/-- No transaction is in the middle of a commit, and the finished ones have dropped what they had read
and buffered. -/
def Settled (r : Roster σ) : Prop := ∀ entry ∈ r.entries, entry.txn.Settled

/-- What holds of a roster and is kept by every call holds after any calls. -/
theorem run_keeps {I : Roster σ → Prop} (hI : ∀ r call, I r → I (r.step db call)) (hr : I r)
    (calls : List Call) : I (r.run db calls) := by
  induction calls generalizing r with
  | nil => exact hr
  | cons call calls ih => exact ih (hI r call hr)

theorem Step.settled (h : r.Step r') (hr : r.Settled) : r'.Settled := by
  cases h with
  | unchanged => exact hr
  | begun level => exact forall_mem_concat hr (settled_of_active rfl)
  | served _ _ hnext => exact forall_mem_set hr (settled_of_active hnext) _
  | ended _ _ hending => exact forall_mem_set hr (settled_of_ending hending _) _

/-- A finished transaction stays as it is. -/
theorem Step.entry_of_finished (h : r.Step r') (hentry : r.entries[n]? = some entry)
    (hfinished : entry.txn.isActive = false) : r'.entries[n]? = some entry := by
  have hset : ∀ {m : Nat} {other next : Enrolled}, r.entries[m]? = some other →
      other.txn.isActive = true → (r.entries.set m next)[n]? = some entry := by
    intro m other next hother hactive
    rw [getElem?_set_some hother]
    split
    · rename_i hmn
      rw [hmn, hentry] at hother
      cases hother
      rw [hfinished] at hactive
      cases hactive
    · exact hentry
  cases h with
  | unchanged => exact hentry
  | begun level =>
    obtain ⟨hn, -⟩ := List.getElem?_eq_some_iff.mp hentry
    simp only
    rw [List.getElem?_append_left hn, hentry]
  | served hother hactive => exact hset hother hactive
  | ended hother hactive => exact hset hother hactive

/-- Any calls, for any number of transactions on a store over any engine. No transaction is left in the
middle of a commit. One that has finished has neither reads nor writes; whatever is called afterwards,
it stays as it is, every call for it is refused or does nothing, and a call for it leaves the store
and all other transactions as they are. -/
theorem finished_transactions_are_inert (db : Database σ) (state : State σ) (calls : List Call) :
    let r := (start state).run db calls
    ∀ n entry, r.entries[n]? = some entry →
      entry.txn.status ≠ .validating ∧
      (entry.txn.status ≠ .active →
        entry.txn.reads = ReadLog.empty ∧ entry.txn.writes = WriteBuffer.empty ∧
        ∀ more,
          let later := r.run db more
          later.entries[n]? = some entry ∧ db.Refuses entry.txn later.state ∧
            ∀ call, call.client? = some n → later.step db call = later) := by
  intro r n entry hentry
  have hsettled : r.Settled :=
    run_keeps (fun r call hr => (step_cases db r call).settled hr) (fun _ h => by cases h) calls
  have hentry' := hsettled entry (List.mem_of_getElem? hentry)
  refine ⟨hentry'.decided, fun hstatus => ?_⟩
  have hfinished : entry.txn.isActive = false := by
    simpa [Transaction.isActive, Status.isActive] using hstatus
  obtain ⟨hreads, hwrites⟩ := hentry'.emptied hfinished
  refine ⟨hreads, hwrites, fun more => ?_⟩
  have hstays : (r.run db more).entries[n]? = some entry :=
    run_keeps (I := fun r => r.entries[n]? = some entry)
      (fun r call hr => (step_cases db r call).entry_of_finished hr hfinished) hentry more
  exact ⟨hstays, refuses_of_inactive db hfinished _,
    fun call hcall => step_of_finished hstays hfinished hcall⟩

/-- The second write of the first transaction fails. While another transaction begins, writes and
commits, nothing more happens to it, and it can neither be committed again nor aborted. -/
theorem stopped_transaction_stays_stopped :
    let a : Key := ⟨[97]⟩
    let b : Key := ⟨[98]⟩
    let db := (Database.under .append).faulty
    let faults : List (Option Error) := [none, none, none, some (.storage "lost")]
    let r := (start (State.initial ⟨KeyMap.empty, faults⟩ .serializable)).run db
      [.begin .serializable, .ask 0 (.write a (.insert [49])), .ask 0 (.write b (.insert [50])),
        .commit 0]
    let later := r.run db
      [.abort 0, .begin .snapshot, .ask 1 (.write b (.update [51])), .commit 0, .commit 1,
        .ask 0 (.lookup a)]
    ∃ entry, r.entries[0]? = some entry ∧ entry.txn.status = .partiallyApplied 1 2 ∧
      later.entries[0]? = some entry ∧
      later.entries[1]?.map (·.txn.status) = some .committed ∧
      db.commit [] entry.txn later.state =
        ⟨.error (.error (.notActive 1 "partially applied")), entry.txn, later.state⟩ ∧
      later.step db (.abort 0) = later := by
  intro a b db faults r later
  have hfirst : r.entries[0]?.map (·.txn.status) = some (.partiallyApplied 1 2) ∧
      r.entries[0]?.map (·.txn.id) = some 1 := by decide +kernel
  obtain ⟨entry, hentry, hstatus⟩ := Option.map_eq_some_iff.mp hfirst.1
  have hid : entry.txn.id = 1 := by simpa [hentry] using hfirst.2
  obtain ⟨-, hinert⟩ := finished_transactions_are_inert db _ _ 0 entry hentry
  obtain ⟨-, -, hlater⟩ := hinert (by rw [hstatus]; decide)
  obtain ⟨hstays, hrefuses, hcalls⟩ := hlater _
  refine ⟨entry, hentry, hstatus, hstays, by decide +kernel, ?_, hcalls _ rfl⟩
  have hcommit := hrefuses.commit []
  rw [hstatus, hid] at hcommit
  exact hcommit

end Roster

end StampStore
