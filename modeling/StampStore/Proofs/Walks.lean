-- What a commit does to the engine and to the locks, told from what single calls do.
-- A relation that holds across every look at a stamp, and across every stretch in
-- which one free key is locked and given up again, holds across all that a commit
-- does before its writes; if it holds across the writing calls too, it holds across
-- the whole commit under its locks.
import StampStore.Commit

namespace StampStore

variable {σ : Type}

/-- What is shared moves along `R`: also several times, at every look at a record because of its
stamp, and while `owner` has a lock that was free before and is given up afterwards. -/
structure Engine.Walk (engine : Engine σ) (owner : TxnId) (R : Shared σ → Shared σ → Prop) :
    Prop where
  refl : ∀ shared, R shared shared
  trans : ∀ {a b c}, R a b → R b c → R a c
  lookupRaw : ∀ key shared, R shared (engine.lookupRaw key shared).2
  bracket : ∀ {key shared after}, shared.locks.holder? key = none →
    R { shared with locks := ⟨shared.locks.owners.insert key owner⟩ } after →
    R shared { after with locks := (after.locks.release key owner).2 }

/-- The calls that write move what is shared along `R` as well. -/
structure Engine.WriteWalk (engine : Engine σ) (owner : TxnId) (R : Shared σ → Shared σ → Prop) :
    Prop extends engine.Walk owner R where
  insert : ∀ key record shared, R shared (engine.insert key record shared).2
  update : ∀ key delta shared, R shared (engine.update key delta shared).2
  delete : ∀ key shared, R shared (engine.delete key shared).2

namespace Engine.Walk

variable {engine : Engine σ} {owner : TxnId} {R : Shared σ → Shared σ → Prop}

/-! ## Choosing the write time -/

theorem fetchStamp (h : engine.Walk owner R) (key : Key) (shared : Shared σ) :
    R shared (engine.fetchStamp key shared).2 := by
  have hlookup := h.lookupRaw key shared
  unfold Engine.fetchStamp
  generalize engine.lookupRaw key shared = reply at hlookup ⊢
  obtain ⟨answer, after⟩ := reply
  cases answer with
  | error e => exact hlookup
  | ok record => cases record <;> exact hlookup

theorem timeAfter (h : engine.Walk owner R) (keys : List Key) (ts : Timestamp)
    (shared : Shared σ) : R shared (engine.timeAfter keys ts shared).2 := by
  induction keys generalizing ts shared with
  | nil => exact h.refl _
  | cons key keys ih =>
    have hfetch := h.fetchStamp key shared
    unfold Engine.timeAfter
    generalize engine.fetchStamp key shared = reply at hfetch ⊢
    obtain ⟨answer, after⟩ := reply
    cases answer with
    | error e => exact hfetch
    | ok stamp =>
      simp only
      cases (stamp.getD Stamp.zero).rts.next? with
      | none => exact hfetch
      | some next => exact h.trans hfetch (ih (max ts next) after)

theorem chooseWriteTime (h : engine.Walk owner R) (txn : Transaction) (shared : Shared σ) :
    R shared (txn.chooseWriteTime engine shared).after := by
  have htime := h.timeAfter txn.writes.keys txn.commitWts shared
  unfold Transaction.chooseWriteTime
  generalize engine.timeAfter txn.writes.keys txn.commitWts shared = reply at htime ⊢
  obtain ⟨answer, after⟩ := reply
  cases answer with
  | error e => exact htime
  | ok found => cases found <;> exact htime

/-! ## Checking the reads -/

section Checks

variable (ts : Timestamp) (extend : Bool) (entry : ReadEntry)

theorem extendRts (h : engine.Walk owner R) (key : Key)
    (hraise : ∀ shared, R shared (engine.update key ts.encode shared).2)
    (current : Option Stamp) (shared : Shared σ) :
    R shared (engine.extendRts key ts current shared).2 := by
  unfold Engine.extendRts
  cases current with
  | none => exact h.refl _
  | some stamp =>
    simp only
    split
    · exact hraise shared
    · exact h.refl _

theorem close (h : engine.Walk owner R)
    (hraise : extend = true → ∀ shared, R shared (engine.update entry.key ts.encode shared).2)
    (current : Option Stamp) (shared : Shared σ) :
    R shared (checkLocked.close engine ts extend entry current shared).2 := by
  unfold checkLocked.close
  split
  · have hextend := h.extendRts ts entry.key (hraise ‹_›) current shared
    generalize engine.extendRts entry.key ts current shared = reply at hextend ⊢
    obtain ⟨answer, after⟩ := reply
    cases answer <;> exact hextend
  · exact h.refl _

theorem checkLocked (h : engine.Walk owner R)
    (hraise : extend = true → ∀ shared, R shared (engine.update entry.key ts.encode shared).2)
    (lockedNow : Bool) (current : Option Stamp) (shared : Shared σ) :
    R shared (engine.checkLocked ts extend entry lockedNow current shared).2 := by
  unfold Engine.checkLocked
  split
  · have hfetch := h.fetchStamp entry.key shared
    generalize engine.fetchStamp entry.key shared = reply at hfetch ⊢
    obtain ⟨answer, after⟩ := reply
    cases answer with
    | error e => exact hfetch
    | ok current =>
      simp only
      cases entry.conflictWith? current with
      | some conflict => exact hfetch
      | none => exact h.trans hfetch (h.close ts extend entry hraise current after)
  · exact h.close ts extend entry hraise current shared

theorem checkRead (h : engine.Walk owner R)
    (hraise : extend = true → ∀ shared, R shared (engine.update entry.key ts.encode shared).2)
    (shared : Shared σ) : R shared (engine.checkRead owner ts extend entry shared).2 := by
  unfold Engine.checkRead
  split
  · exact h.refl _
  · have hfetch := h.fetchStamp entry.key shared
    generalize engine.fetchStamp entry.key shared = reply at hfetch ⊢
    obtain ⟨answer, after⟩ := reply
    cases answer with
    | error e => exact hfetch
    | ok current =>
      simp only
      cases entry.conflictWith? current with
      | some conflict => exact hfetch
      | none =>
        simp only
        cases hholder : after.locks.holder? entry.key with
        | none =>
          rw [LockTable.tryAcquire_free hholder]
          exact h.trans hfetch
            (h.bracket hholder (h.checkLocked ts extend entry hraise true current _))
        | some holder =>
          by_cases hown : holder = owner
          · rw [LockTable.tryAcquire_own (hown ▸ hholder)]
            exact h.trans hfetch (h.checkLocked ts extend entry hraise false current after)
          · rw [LockTable.tryAcquire_taken hholder hown]
            exact hfetch

theorem checkReads (h : engine.Walk owner R) (entries : List ReadEntry)
    (hraise : extend = true → ∀ entry ∈ entries,
      ∀ shared, R shared (engine.update entry.key ts.encode shared).2)
    (shared : Shared σ) : R shared (engine.checkReads owner ts extend entries shared).2 := by
  induction entries generalizing shared with
  | nil => exact h.refl _
  | cons entry entries ih =>
    have hfirst := h.checkRead ts extend entry
      (fun hext => hraise hext entry List.mem_cons_self) shared
    have hrest := ih fun hext e he => hraise hext e (List.mem_cons_of_mem _ he)
    unfold Engine.checkReads
    generalize engine.checkRead owner ts extend entry shared = reply at hfirst ⊢
    obtain ⟨answer, after⟩ := reply
    cases answer with
    | error e => exact hfirst
    | ok found =>
      cases found with
      | some conflict => exact hfirst
      | none => exact h.trans hfirst (hrest after)

theorem validateReads {txn : Transaction} (h : engine.Walk txn.id R)
    (hraise : txn.isolation.extendsReads = true → ∀ entry ∈ txn.reads.entries,
      ∀ shared, R shared (engine.update entry.key ts.encode shared).2)
    (shared : Shared σ) : R shared (txn.validateReads engine ts shared).2 :=
  h.checkReads ts txn.isolation.extendsReads txn.reads.entries hraise shared

end Checks

end Engine.Walk

/-! ## Writing -/

/-- Choosing the write time changes nothing else of the transaction. -/
theorem Transaction.txn_chooseWriteTime (engine : Engine σ) (txn : Transaction)
    (shared : Shared σ) : ∃ ts,
      (txn.chooseWriteTime engine shared).txn = { txn with commitWts := ts } := by
  unfold chooseWriteTime
  split
  · exact ⟨txn.commitWts, rfl⟩
  · exact ⟨txn.commitWts, rfl⟩
  · exact ⟨_, rfl⟩

namespace Engine.WriteWalk

variable {engine : Engine σ} {owner : TxnId} {R : Shared σ → Shared σ → Prop}

theorem install (h : engine.WriteWalk owner R) (ts : Timestamp) (entry : WriteEntry)
    (shared : Shared σ) : R shared (engine.install ts entry shared).2 := by
  unfold Engine.install
  cases entry.op with
  | insert => exact h.insert _ _ _
  | update => exact h.update _ _ _
  | delete => exact h.delete _ _

theorem installAll (h : engine.WriteWalk owner R) (ts : Timestamp) (entries : List WriteEntry)
    (done : Nat) (shared : Shared σ) :
    R shared (engine.installAll ts entries done shared).2 := by
  induction entries generalizing done shared with
  | nil => exact h.refl _
  | cons entry entries ih =>
    have hfirst := h.install ts entry shared
    unfold Engine.installAll
    generalize engine.install ts entry shared = reply at hfirst ⊢
    obtain ⟨answer, after⟩ := reply
    cases answer with
    | error e => exact hfirst
    | ok done' => exact h.trans hfirst (ih (done + 1) after)

theorem writeAll (h : engine.WriteWalk owner R) (txn : Transaction) (shared : Shared σ) :
    R shared (txn.writeAll engine shared).2 := by
  have hinstall := h.installAll txn.commitWts txn.writes.entries 0 shared
  unfold Transaction.writeAll
  generalize engine.installAll txn.commitWts txn.writes.entries 0 shared = reply at hinstall ⊢
  obtain ⟨stop, after⟩ := reply
  cases stop <;> exact hinstall

/-- Every exit of a commit under its locks. -/
theorem underLocks (txn : Transaction) (h : engine.WriteWalk txn.id R) (shared : Shared σ) :
    R shared (txn.underLocks engine shared).after := by
  have hchoose := h.chooseWriteTime txn shared
  obtain ⟨ts, hchosen⟩ := txn.txn_chooseWriteTime engine shared
  have hid := congrArg Transaction.id hchosen
  unfold Transaction.underLocks
  generalize txn.chooseWriteTime engine shared = choice at hid hchoose ⊢
  obtain ⟨answer, chosen, after⟩ := choice
  cases answer with
  | error e => exact hchoose
  | ok found =>
    cases found with
    | some conflict => exact hchoose
    | none =>
      simp only at hid hchoose ⊢
      have hwalk : engine.Walk chosen.id R := hid ▸ h.toWalk
      have hcheck := hwalk.validateReads chosen.validationTime
        (fun _ entry _ shared => h.update entry.key _ shared) after
      generalize chosen.validateReads engine chosen.validationTime after = reply at hcheck ⊢
      obtain ⟨answer, checked⟩ := reply
      cases answer with
      | error e => exact h.trans hchoose hcheck
      | ok found =>
        cases found with
        | some conflict => exact h.trans hchoose hcheck
        | none => exact h.trans hchoose (h.trans hcheck (h.writeAll chosen checked))

end Engine.WriteWalk

end StampStore
