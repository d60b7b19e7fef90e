-- Two runs of one commit. A commit touches the keys that its transaction has read and
-- those that it writes, and no others. So from two states that agree on these keys it
-- goes the same way, and the states it leaves agree on them again; all other keys stay
-- as they are. Commits of transactions that share no key can therefore change places.
import StampStore.Proofs.LockBalance

namespace StampStore

variable {σ : Type}

/-! ## Related runs -/

/-- Two replies with the same answer, that leave states related by `Q`. -/
def Alike {α : Type} (Q : Shared σ → Shared σ → Prop) (left right : α × Shared σ) : Prop :=
  left.1 = right.1 ∧ Q left.2 right.2

theorem Alike.cases {α : Type} {Q : Shared σ → Shared σ → Prop} {left right : α × Shared σ}
    (h : Alike Q left right) :
    ∃ answer a b, left = (answer, a) ∧ right = (answer, b) ∧ Q a b :=
  ⟨left.1, left.2, right.2, rfl, Prod.ext h.1.symm rfl, h.2⟩

/-- Calls on the keys of `mine` are answered alike from states that are related by `Q`, and leave
related states again. Related states have the same locks, and stay related under any others. -/
structure Engine.ActsAlike (engine : Engine σ) (mine : Key → Prop)
    (Q : Shared σ → Shared σ → Prop) : Prop where
  locks : ∀ {a b}, Q a b → a.locks = b.locks
  relock : ∀ {a b}, Q a b → ∀ locks, Q { a with locks } { b with locks }
  lookupRaw : ∀ {key a b}, mine key → Q a b →
    Alike Q (engine.lookupRaw key a) (engine.lookupRaw key b)
  insert : ∀ {key a b} record, mine key → Q a b →
    Alike Q (engine.insert key record a) (engine.insert key record b)
  update : ∀ {key a b} delta, mine key → Q a b →
    Alike Q (engine.update key delta a) (engine.update key delta b)
  delete : ∀ {key a b}, mine key → Q a b →
    Alike Q (engine.delete key a) (engine.delete key b)

/-- The transaction has read and buffered keys of `mine` only. -/
structure Transaction.Within (txn : Transaction) (mine : Key → Prop) : Prop where
  reads : ∀ entry ∈ txn.reads.entries, mine entry.key
  writes : ∀ key ∈ txn.writes.keys, mine key

theorem Transaction.Within.ready {txn : Transaction} {mine : Key → Prop} (h : txn.Within mine) :
    txn.ready.Within mine where
  reads := by
    rw [txn.ready_reads]
    exact h.reads
  writes := by
    rw [txn.ready_writes]
    exact fun key hkey => h.writes key (WriteBuffer.mem_keys_sorted.mp hkey)

namespace Engine.ActsAlike

variable {engine : Engine σ} {mine : Key → Prop} {Q : Shared σ → Shared σ → Prop}
  {a b : Shared σ}

/-! ## Before the writes -/

theorem fetchStamp (h : engine.ActsAlike mine Q) {key : Key} (hkey : mine key) (hab : Q a b) :
    Alike Q (engine.fetchStamp key a) (engine.fetchStamp key b) := by
  obtain ⟨answer, a', b', ha, hb, hab'⟩ := (h.lookupRaw hkey hab).cases
  unfold Engine.fetchStamp
  rw [ha, hb]
  cases answer with
  | error e => exact ⟨rfl, hab'⟩
  | ok record => cases record <;> exact ⟨rfl, hab'⟩

theorem timeAfter (h : engine.ActsAlike mine Q) {keys : List Key} (hkeys : ∀ key ∈ keys, mine key)
    (ts : Timestamp) (hab : Q a b) :
    Alike Q (engine.timeAfter keys ts a) (engine.timeAfter keys ts b) := by
  induction keys generalizing ts a b with
  | nil => exact ⟨rfl, hab⟩
  | cons key keys ih =>
    obtain ⟨answer, a', b', ha, hb, hab'⟩ := (h.fetchStamp (hkeys key List.mem_cons_self) hab).cases
    unfold Engine.timeAfter
    rw [ha, hb]
    cases answer with
    | error e => exact ⟨rfl, hab'⟩
    | ok stamp =>
      simp only
      cases (stamp.getD Stamp.zero).rts.next? with
      | none => exact ⟨rfl, hab'⟩
      | some next => exact ih (fun j hj => hkeys j (List.mem_cons_of_mem key hj)) _ hab'

theorem chooseWriteTime (h : engine.ActsAlike mine Q) {txn : Transaction}
    (hmine : txn.Within mine) (hab : Q a b) :
    ∃ answer chosen a' b', txn.chooseWriteTime engine a = ⟨answer, chosen, a'⟩ ∧
      txn.chooseWriteTime engine b = ⟨answer, chosen, b'⟩ ∧ chosen.Within mine ∧ Q a' b' := by
  obtain ⟨answer, a', b', ha, hb, hab'⟩ := (h.timeAfter hmine.writes txn.commitWts hab).cases
  unfold Transaction.chooseWriteTime
  rw [ha, hb]
  rcases answer with e | conflict | ts
  · exact ⟨_, _, a', b', rfl, rfl, hmine, hab'⟩
  · exact ⟨_, _, a', b', rfl, rfl, hmine, hab'⟩
  · exact ⟨_, _, a', b', rfl, rfl, ⟨hmine.reads, hmine.writes⟩, hab'⟩

theorem extendRts (h : engine.ActsAlike mine Q) {key : Key} (hkey : mine key) (ts : Timestamp)
    (current : Option Stamp) (hab : Q a b) :
    Alike Q (engine.extendRts key ts current a) (engine.extendRts key ts current b) := by
  unfold Engine.extendRts
  cases current with
  | none => exact ⟨rfl, hab⟩
  | some stamp =>
    simp only
    split
    · exact h.update ts.encode hkey hab
    · exact ⟨rfl, hab⟩

theorem close (h : engine.ActsAlike mine Q) (ts : Timestamp) (extend : Bool) {entry : ReadEntry}
    (hkey : mine entry.key) (current : Option Stamp) (hab : Q a b) :
    Alike Q (checkLocked.close engine ts extend entry current a)
      (checkLocked.close engine ts extend entry current b) := by
  unfold checkLocked.close
  split
  · obtain ⟨answer, a', b', ha, hb, hab'⟩ := (h.extendRts hkey ts current hab).cases
    rw [ha, hb]
    cases answer <;> exact ⟨rfl, hab'⟩
  · exact ⟨rfl, hab⟩

theorem checkLocked (h : engine.ActsAlike mine Q) (ts : Timestamp) (extend : Bool)
    {entry : ReadEntry} (hkey : mine entry.key) (lockedNow : Bool) (current : Option Stamp)
    (hab : Q a b) :
    Alike Q (engine.checkLocked ts extend entry lockedNow current a)
      (engine.checkLocked ts extend entry lockedNow current b) := by
  unfold Engine.checkLocked
  split
  · obtain ⟨answer, a', b', ha, hb, hab'⟩ := (h.fetchStamp hkey hab).cases
    rw [ha, hb]
    cases answer with
    | error e => exact ⟨rfl, hab'⟩
    | ok current =>
      simp only
      cases entry.conflictWith? current with
      | some conflict => exact ⟨rfl, hab'⟩
      | none => exact h.close ts extend hkey current hab'
  · exact h.close ts extend hkey current hab

theorem checkRead (h : engine.ActsAlike mine Q) (owner : TxnId) (ts : Timestamp) (extend : Bool)
    {entry : ReadEntry} (hkey : mine entry.key) (hab : Q a b) :
    Alike Q (engine.checkRead owner ts extend entry a)
      (engine.checkRead owner ts extend entry b) := by
  unfold Engine.checkRead
  split
  · exact ⟨rfl, hab⟩
  · obtain ⟨answer, a', b', ha, hb, hab'⟩ := (h.fetchStamp hkey hab).cases
    rw [ha, hb]
    cases answer with
    | error e => exact ⟨rfl, hab'⟩
    | ok current =>
      simp only
      cases entry.conflictWith? current with
      | some conflict => exact ⟨rfl, hab'⟩
      | none =>
        -- both runs ask the same table for the lock
        simp only [← h.locks hab']
        rcases a'.locks.tryAcquire entry.key owner with ⟨outcome, locks⟩
        cases outcome with
        | busy => exact ⟨rfl, hab'⟩
        | deadlock => exact h.checkLocked ts extend hkey false current hab'
        | acquired =>
          obtain ⟨answer, left, right, hleft, hright, hlr⟩ :=
            (h.checkLocked ts extend hkey true current (h.relock hab' locks)).cases
          simp only [hleft, hright, ← h.locks hlr]
          exact ⟨rfl, h.relock hlr _⟩

theorem checkReads (h : engine.ActsAlike mine Q) (owner : TxnId) (ts : Timestamp) (extend : Bool)
    {entries : List ReadEntry} (hmine : ∀ entry ∈ entries, mine entry.key) (hab : Q a b) :
    Alike Q (engine.checkReads owner ts extend entries a)
      (engine.checkReads owner ts extend entries b) := by
  induction entries generalizing a b with
  | nil => exact ⟨rfl, hab⟩
  | cons entry entries ih =>
    obtain ⟨answer, a', b', ha, hb, hab'⟩ :=
      (h.checkRead owner ts extend (hmine entry List.mem_cons_self) hab).cases
    unfold Engine.checkReads
    rw [ha, hb]
    rcases answer with e | conflict | _
    · exact ⟨rfl, hab'⟩
    · exact ih (fun e he => hmine e (List.mem_cons_of_mem entry he)) hab'
    · exact ⟨rfl, hab'⟩

/-! ## The writes -/

theorem install (h : engine.ActsAlike mine Q) (ts : Timestamp) {entry : WriteEntry}
    (hkey : mine entry.key) (hab : Q a b) :
    Alike Q (engine.install ts entry a) (engine.install ts entry b) := by
  unfold Engine.install
  cases entry.op with
  | insert => exact h.insert _ hkey hab
  | update => exact h.update _ hkey hab
  | delete => exact h.delete hkey hab

theorem installAll (h : engine.ActsAlike mine Q) (ts : Timestamp) {entries : List WriteEntry}
    (hmine : ∀ entry ∈ entries, mine entry.key) (done : Nat) (hab : Q a b) :
    Alike Q (engine.installAll ts entries done a) (engine.installAll ts entries done b) := by
  induction entries generalizing done a b with
  | nil => exact ⟨rfl, hab⟩
  | cons entry entries ih =>
    obtain ⟨answer, a', b', ha, hb, hab'⟩ :=
      (h.install ts (hmine entry List.mem_cons_self) hab).cases
    unfold Engine.installAll
    rw [ha, hb]
    cases answer with
    | error e => exact ⟨rfl, hab'⟩
    | ok _ => exact ih (fun e he => hmine e (List.mem_cons_of_mem entry he)) (done + 1) hab'

theorem writeAll (h : engine.ActsAlike mine Q) {txn : Transaction} (hmine : txn.Within mine)
    (hab : Q a b) : Alike Q (txn.writeAll engine a) (txn.writeAll engine b) := by
  have hentries : ∀ entry ∈ txn.writes.entries, mine entry.key :=
    fun entry hentry => hmine.writes entry.key (List.mem_map_of_mem hentry)
  obtain ⟨stop, a', b', ha, hb, hab'⟩ := (h.installAll txn.commitWts hentries 0 hab).cases
  unfold Transaction.writeAll
  rw [ha, hb]
  cases stop <;> exact ⟨rfl, hab'⟩

/-! ## Whole commits -/

theorem underLocks (h : engine.ActsAlike mine Q) {txn : Transaction} (hmine : txn.Within mine)
    (hab : Q a b) :
    ∃ answer decided a' b', txn.underLocks engine a = ⟨answer, decided, a'⟩ ∧
      txn.underLocks engine b = ⟨answer, decided, b'⟩ ∧ Q a' b' := by
  obtain ⟨answer, chosen, a', b', ha, hb, hchosen, hab'⟩ := h.chooseWriteTime hmine hab
  unfold Transaction.underLocks
  rw [ha, hb]
  rcases answer with e | _ | conflict
  · exact ⟨_, _, _, _, rfl, rfl, hab'⟩
  · obtain ⟨answer, a', b', hleft, hright, hchecked⟩ := (h.checkReads chosen.id
      chosen.validationTime chosen.isolation.extendsReads hchosen.reads hab').cases
    simp only [Transaction.validateReads, hleft, hright]
    rcases answer with e | _ | conflict
    · exact ⟨_, _, _, _, rfl, rfl, hchecked⟩
    · obtain ⟨answer, a', b', hleft, hright, hwritten⟩ := (h.writeAll hchosen hchecked).cases
      simp only [hleft, hright]
      exact ⟨_, _, _, _, rfl, rfl, hwritten⟩
    · exact ⟨_, _, _, _, rfl, rfl, hchecked⟩
  · exact ⟨_, _, _, _, rfl, rfl, hab'⟩

/-- From related states a commit within `mine` goes the same way, and leaves related states. -/
theorem commit (h : engine.ActsAlike mine Q) {txn : Transaction} (hmine : txn.Within mine)
    (rounds : List LockTable.Releases) (hab : Q a b) :
    ∃ answer finished retries a' b',
      txn.commit engine rounds a = ⟨answer, finished, a', retries⟩ ∧
      txn.commit engine rounds b = ⟨answer, finished, b', retries⟩ ∧ Q a' b' := by
  cases hactive : txn.isActive with
  | false =>
    unfold Transaction.commit
    simp only [hactive, Bool.false_eq_true, if_false]
    exact ⟨_, _, _, _, _, rfl, rfl, hab⟩
  | true =>
    have hlocks := h.locks hab
    cases hlock : LockTable.lockWaiting txn.ready.writes.keys txn.id rounds a.locks with
    | none =>
      rw [commit_of_blocked engine hactive hlock, commit_of_blocked engine hactive (hlocks ▸ hlock)]
      exact ⟨_, _, _, _, _, rfl, rfl, hab⟩
    | some locked =>
      obtain ⟨answer, decided, a', b', ha, hb, hab'⟩ :=
        h.underLocks hmine.ready (h.relock hab locked.1)
      have hleft := commit_of_locked engine hactive hlock ha
      have hright := commit_of_locked engine hactive (hlocks ▸ hlock) hb
      rw [← h.locks hab'] at hright
      exact ⟨_, _, _, _, _, hleft, hright, h.relock hab' _⟩

end Engine.ActsAlike

/-! ## Records in memory -/

/-- Two states in memory agree under the keys of `mine`, and are under all others what `before` and
`other` are. -/
structure Records.Agree (mine : Key → Prop) (before other : Records) (a b : Shared Records) :
    Prop where
  locks : a.locks = b.locks
  inside : ∀ key, mine key → a.stored.get? key = b.stored.get? key
  left : ∀ key, ¬ mine key → a.stored.get? key = before.get? key
  right : ∀ key, ¬ mine key → b.stored.get? key = other.get? key

section Memory

variable {mine : Key → Prop} {before other : Records} {a b : Shared Records}

/-- The same record, or none, is put under a key of `mine` on both sides. -/
theorem Records.Agree.put (hab : Records.Agree mine before other a b) {key : Key}
    (hkey : mine key) {record : Option Bytes} {left right : Records}
    (hleft : ∀ j, left.get? j = if key = j then record else a.stored.get? j)
    (hright : ∀ j, right.get? j = if key = j then record else b.stored.get? j) :
    Records.Agree mine before other { a with stored := left } { b with stored := right } where
  locks := hab.locks
  inside j hj := by
    simp only [hleft, hright, hab.inside j hj]
  left j hj := by
    have hne : key ≠ j := fun h => hj (h ▸ hkey)
    simp only [hleft, if_neg hne, hab.left j hj]
  right j hj := by
    have hne : key ≠ j := fun h => hj (h ▸ hkey)
    simp only [hright, if_neg hne, hab.right j hj]

theorem actsAlike_memory (merge : MergeOperator) (mine : Key → Prop) (before other : Records) :
    (Engine.memory merge).ActsAlike mine (Records.Agree mine before other) where
  locks hab := hab.locks
  relock hab locks := ⟨rfl, hab.inside, hab.left, hab.right⟩
  lookupRaw hkey hab := ⟨congrArg Except.ok (hab.inside _ hkey), hab⟩
  insert record hkey hab :=
    ⟨rfl, hab.put hkey (fun j => KeyMap.get?_insert _ _ j record)
      fun j => KeyMap.get?_insert _ _ j record⟩
  update {key a b} delta hkey hab := by
    unfold Engine.memory Records.update
    simp only [hab.inside key hkey]
    cases merge.apply key (b.stored.get? key) delta with
    | error e => exact ⟨rfl, hab⟩
    | ok record =>
      exact ⟨rfl, hab.put hkey (fun j => KeyMap.get?_insert _ _ j record)
        fun j => KeyMap.get?_insert _ _ j record⟩
  delete hkey hab :=
    ⟨rfl, hab.put hkey (fun j => KeyMap.get?_erase _ _ j) fun j => KeyMap.get?_erase _ _ j⟩

/-! ## Commits that share no key -/

/-- The keys that the transaction has read, and those that it writes. -/
def Transaction.footprint (txn : Transaction) : List Key :=
  txn.reads.entries.map (·.key) ++ txn.writes.keys

theorem Transaction.within_footprint (txn : Transaction) : txn.Within (· ∈ txn.footprint) where
  reads _ hentry := List.mem_append_left _ (List.mem_map_of_mem hentry)
  writes _ hkey := List.mem_append_right _ hkey

/-- A commit goes by the records under its footprint, and leaves all others as they are. -/
theorem commit_of_agreeing (merge : MergeOperator) (txn : Transaction)
    (rounds : List LockTable.Releases) (locks : LockTable)
    (hagree : ∀ key ∈ txn.footprint, before.get? key = other.get? key) :
    ∃ answer finished retries a b,
      txn.commit (Engine.memory merge) rounds ⟨before, locks⟩ = ⟨answer, finished, a, retries⟩ ∧
      txn.commit (Engine.memory merge) rounds ⟨other, locks⟩ = ⟨answer, finished, b, retries⟩ ∧
      Records.Agree (· ∈ txn.footprint) before other a b :=
  (actsAlike_memory merge (· ∈ txn.footprint) before other).commit txn.within_footprint rounds
    ⟨rfl, hagree, fun _ _ => rfl, fun _ _ => rfl⟩

theorem stored_commit_away (merge : MergeOperator) (txn : Transaction)
    (rounds : List LockTable.Releases) (records : Records) (locks : LockTable) {key : Key}
    (hkey : key ∉ txn.footprint) :
    (txn.commit (Engine.memory merge) rounds ⟨records, locks⟩).shared.stored.get? key =
      records.get? key := by
  have hsame : ∀ key ∈ txn.footprint, records.get? key = records.get? key := fun _ _ => rfl
  obtain ⟨_, _, _, a, _, hleft, -, hagree⟩ := commit_of_agreeing merge txn rounds locks hsame
  rw [hleft]
  exact hagree.left key hkey

theorem locks_commit (merge : MergeOperator) (txn : Transaction)
    (rounds : List LockTable.Releases) (records : Records) :
    (txn.commit (Engine.memory merge) rounds ⟨records, LockTable.empty⟩).shared.locks =
      LockTable.empty := by
  cases hactive : txn.isActive with
  | false =>
    unfold Transaction.commit
    simp [hactive]
  | true =>
    exact (commit_unlocked (leavesLocks_memory merge) hactive (fun _ _ => rfl) rounds).2.2

/-- After a commit that shares no key with it, a commit goes as it goes without it, and what the two
leave is under each key what one of them leaves. -/
theorem commit_after_other (merge : MergeOperator) {txn earlier : Transaction}
    (hapart : ∀ key ∈ txn.footprint, key ∉ earlier.footprint)
    (rounds rounds' : List LockTable.Releases) (records : Records) :
    let engine := Engine.memory merge
    let alone := txn.commit engine rounds ⟨records, LockTable.empty⟩
    let first := earlier.commit engine rounds' ⟨records, LockTable.empty⟩
    let both := txn.commit engine rounds first.shared
    both.answer = alone.answer ∧ both.txn = alone.txn ∧ both.lockRetries = alone.lockRetries ∧
      both.shared.locks = LockTable.empty ∧
      ∀ key, both.shared.stored.get? key =
        if key ∈ txn.footprint then alone.shared.stored.get? key
        else first.shared.stored.get? key := by
  intro engine alone first both
  have hfirst : first.shared = ⟨first.shared.stored, LockTable.empty⟩ := by
    rw [← locks_commit merge earlier rounds' records]
  have hsame : ∀ key ∈ txn.footprint, records.get? key = first.shared.stored.get? key :=
    fun key hkey => (stored_commit_away merge earlier rounds' records _ (hapart key hkey)).symm
  obtain ⟨answer, finished, retries, a, b, hleft, hright, hagree⟩ :=
    commit_of_agreeing merge txn rounds LockTable.empty hsame
  have halone : alone = ⟨answer, finished, a, retries⟩ := hleft
  have hboth : both = ⟨answer, finished, b, retries⟩ := by
    rw [← hright, ← hfirst]
  have hunlocked : both.shared.locks = LockTable.empty := by
    have hlocks := locks_commit merge txn rounds first.shared.stored
    rw [← hfirst] at hlocks
    exact hlocks
  rw [halone, hboth]
  refine ⟨rfl, rfl, rfl, hboth ▸ hunlocked, fun key => ?_⟩
  split
  · exact (hagree.inside key ‹_›).symm
  · exact hagree.right key ‹_›

/-- Two transactions that share no key, at any levels, over any records in memory and with no key
locked: whichever commits first, both get the same answers and end in the same way, and the same
records are left. So it is also when one is aborted, fails, or stops among its writes. -/
theorem independent_commits_commute (app : MergeOperator) {txn other : Transaction}
    (hapart : ∀ key ∈ txn.footprint, key ∉ other.footprint)
    (rounds rounds' : List LockTable.Releases) (records : Records) :
    let engine := Engine.memory app.tuple
    let shared : Shared Records := ⟨records, LockTable.empty⟩
    -- `txn` commits first on the left, and second on the right
    let left := txn.commit engine rounds shared
    let left' := other.commit engine rounds' left.shared
    let right' := other.commit engine rounds' shared
    let right := txn.commit engine rounds right'.shared
    left'.shared = right.shared ∧
      (left.answer = right.answer ∧ left.txn = right.txn ∧ left.lockRetries = right.lockRetries) ∧
      (left'.answer = right'.answer ∧ left'.txn = right'.txn ∧
        left'.lockRetries = right'.lockRetries) := by
  intro engine shared left left' right' right
  have hapart' : ∀ key ∈ other.footprint, key ∉ txn.footprint :=
    fun key hother htxn => hapart key htxn hother
  obtain ⟨hanswer, hfinished, hretries, hlocks, hstored⟩ :=
    commit_after_other app.tuple hapart rounds rounds' records
  obtain ⟨hanswer', hfinished', hretries', hlocks', hstored'⟩ :=
    commit_after_other app.tuple hapart' rounds' rounds records
  refine ⟨?_, ⟨hanswer.symm, hfinished.symm, hretries.symm⟩, hanswer', hfinished', hretries'⟩
  have hrecords : left'.shared.stored = right.shared.stored := by
    apply KeyMap.ext_get?
    intro key
    have hl : left'.shared.stored.get? key = _ := hstored' key
    have hr : right.shared.stored.get? key = _ := hstored key
    rw [hl, hr]
    by_cases htxn : key ∈ txn.footprint
    · rw [if_neg (hapart key htxn), if_pos htxn]
    · rw [if_neg htxn]
      split
      · rfl
      · rename_i hother
        rw [stored_commit_away app.tuple txn rounds records _ htxn,
          stored_commit_away app.tuple other rounds' records _ hother]
  have hunlocked : left'.shared.locks = right.shared.locks := hlocks'.trans hlocks.symm
  exact congrArg₂ Shared.mk hrecords hunlocked

/-- One transaction is aborted for its second read, after the read time of its first has been raised;
the other stops at its second write. Either may commit first. -/
theorem aborted_and_stopped_commits_change_places :
    let a : Key := ⟨[97]⟩
    let b : Key := ⟨[98]⟩
    let c : Key := ⟨[99]⟩
    let d : Key := ⟨[100]⟩
    let m : Key := ⟨[109]⟩
    let old := Tuple.make ⟨1, 1⟩ (Counter.encode 1)
    let records : Records := (((KeyMap.empty.insert a old.bytes).insert b
      (Tuple.make ⟨2, 2⟩ (Counter.encode 2)).bytes).insert d
      (Tuple.make ⟨3, 3⟩ [1, 2, 3]).bytes).insert m (Tuple.make ⟨5, 5⟩ (Counter.encode 5)).bytes
    let txn : Transaction := { Transaction.start 1 .serializable with
      reads := ⟨[⟨a, old⟩, ⟨b, old⟩]⟩
      writes := ⟨[⟨m, .update, Tuple.unstamped (Counter.encode 1)⟩], by decide⟩ }
    let other : Transaction := { Transaction.start 2 .snapshot with
      writes := ⟨[⟨d, .update, Tuple.unstamped (Counter.encode 1)⟩,
        ⟨c, .insert, Tuple.unstamped (Counter.encode 7)⟩], by decide⟩ }
    let engine := Engine.memory MergeOperator.counter.tuple
    let left := txn.commit engine [] ⟨records, LockTable.empty⟩
    let left' := other.commit engine [] left.shared
    let right' := other.commit engine [] ⟨records, LockTable.empty⟩
    let right := txn.commit engine [] right'.shared
    (∀ key ∈ txn.footprint, key ∉ other.footprint) ∧
      right.answer = .ok (.aborted (.conflict (.mismatch b 1 2))) ∧
      left'.answer = .error (.error (.incompleteCommit 2 1 2
        (.merge d (.counterWidth .value 3)))) ∧
      left'.shared.stored.stamp? a = some ⟨1, 6⟩ ∧ left'.shared.stored.stamp? c = some ⟨4, 4⟩ ∧
      left'.shared = right.shared ∧ left.answer = right.answer ∧ left'.answer = right'.answer := by
  intro a b c d m old records txn other engine left left' right' right
  have hapart : ∀ key ∈ txn.footprint, key ∉ other.footprint := by decide
  obtain ⟨hshared, ⟨hanswer, -, -⟩, hanswer', -, -⟩ :=
    independent_commits_commute MergeOperator.counter hapart [] [] records
  exact ⟨hapart, by decide +kernel, by decide +kernel, by decide +kernel, by decide +kernel,
    hshared, hanswer, hanswer'⟩

end Memory

end StampStore
