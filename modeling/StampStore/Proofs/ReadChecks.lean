-- The rule that the checks of reads follow. They lock keys, look at them again and raise
-- read times as they go, but what they report is told from the records and the locks
-- before all of them: it is what is wrong with the first read that fails, in the order
-- of the reads. Those before it are noted at their keys, where the level allows it.
import StampStore.Proofs.Commits

namespace StampStore

/-! ## Reads that fail -/

/-- What is wrong with a read that is not known to be good at `ts`: its key has another write time
than was read, or it still has that one and somebody else holds its lock. -/
inductive ReadEntry.Fails (records : Records) (locks : LockTable) (owner : TxnId) (ts : Timestamp)
    (entry : ReadEntry) : Conflict → Prop where
  | mismatch (hlate : entry.tuple.stamp.rts < ts)
      (hother : entry.tuple.stamp.wts ≠ (records.stampAt entry.key).wts) :
      Fails records locks owner ts entry
        (.mismatch entry.key entry.tuple.stamp.wts (records.stampAt entry.key).wts)
  | busy {holder : TxnId} (hlate : entry.tuple.stamp.rts < ts)
      (hsame : entry.tuple.stamp.wts = (records.stampAt entry.key).wts)
      (hholder : locks.holder? entry.key = some holder) (hother : holder ≠ owner) :
      Fails records locks owner ts entry (.busy entry.key)

/-- How a look through `entries` ends that stops at the first which fails: the ones before it have
passed, and it decides what is found. -/
inductive FirstFailure (fails : ReadEntry → Conflict → Prop) (entries : List ReadEntry) :
    List ReadEntry → Option Conflict → Prop where
  | allPass (hall : ∀ entry ∈ entries, ∀ conflict, ¬ fails entry conflict) :
      FirstFailure fails entries entries none
  | stop {passed rest : List ReadEntry} {entry : ReadEntry} {conflict : Conflict}
      (hsplit : entries = passed ++ entry :: rest)
      (hpassed : ∀ entry ∈ passed, ∀ conflict, ¬ fails entry conflict)
      (hfails : fails entry conflict) :
      FirstFailure fails entries passed (some conflict)

section Rule

variable {records : Records} {locks : LockTable} {owner : TxnId} {ts : Timestamp}

theorem fault?_eq_some_iff {entry : ReadEntry} {conflict : Conflict} :
    entry.fault? records locks owner ts = some conflict ↔
      entry.Fails records locks owner ts conflict := by
  unfold ReadEntry.fault? ReadEntry.conflictWith?
  rw [← Records.stampAt]
  constructor
  · intro h
    split at h
    · cases h
    · rename_i hlate
      rw [not_le] at hlate
      by_cases hsame : entry.tuple.stamp.wts = (records.stampAt entry.key).wts
      · simp only [if_pos hsame] at h
        split at h
        · cases h
        · rename_i holder hholder
          split at h
          · cases h
          · rename_i hother
            cases h
            exact .busy hlate hsame hholder hother
      · simp only [if_neg hsame] at h
        cases h
        exact .mismatch hlate hsame
  · intro h
    cases h with
    | mismatch hlate hother => simp [not_le.mpr hlate, hother]
    | busy hlate hsame hholder hother => simp [not_le.mpr hlate, hsame, hholder, hother]

theorem fault?_eq_none_iff {entry : ReadEntry} :
    entry.fault? records locks owner ts = none ↔
      ∀ conflict, ¬ entry.Fails records locks owner ts conflict := by
  simp only [Option.eq_none_iff_forall_ne_some, ne_eq, fault?_eq_some_iff]

/-- The first fault, and the reads in front of it. -/
theorem firstFailure_fault? (entries : List ReadEntry) :
    FirstFailure (ReadEntry.Fails records locks owner ts) entries
      (entries.takeWhile fun entry => (entry.fault? records locks owner ts).isNone)
      (entries.findSome? (ReadEntry.fault? records locks owner ts)) := by
  cases hfound : entries.findSome? (ReadEntry.fault? records locks owner ts) with
  | none =>
    have hgood := List.findSome?_eq_none_iff.mp hfound
    rw [List.takeWhile_eq_self_iff.mpr fun entry hentry => by rw [hgood entry hentry]; rfl]
    exact .allPass fun entry hentry => fault?_eq_none_iff.mp (hgood entry hentry)
  | some conflict =>
    obtain ⟨passed, entry, rest, rfl, hfault, hpassed⟩ := List.findSome?_eq_some_iff.mp hfound
    have htake : (passed ++ entry :: rest).takeWhile
        (fun entry => (entry.fault? records locks owner ts).isNone) = passed := by
      rw [List.takeWhile_append_of_pos fun e he => by rw [hpassed e he]; rfl,
        List.takeWhile_cons_of_neg (by simp [hfault]), List.append_nil]
    rw [htake]
    exact .stop rfl (fun e he => fault?_eq_none_iff.mp (hpassed e he)) (fault?_eq_some_iff.mp hfault)

/-- Nothing is found where no read fails. -/
theorem FirstFailure.isValid_iff {fails : ReadEntry → Conflict → Prop}
    {entries passed : List ReadEntry} {found : Option Conflict}
    (h : FirstFailure fails entries passed found) :
    (Validation.stoppedAt found).isValid = true ↔
      ∀ entry ∈ entries, ∀ conflict, ¬ fails entry conflict := by
  rw [Validation.isValid_stoppedAt]
  cases h with
  | allPass hall => exact iff_of_true rfl hall
  | stop hsplit _ hfails =>
    refine iff_of_false Bool.false_ne_true fun hall => hall _ ?_ _ hfails
    rw [hsplit]
    exact List.mem_append_right _ List.mem_cons_self

end Rule

/-! ## Read times that the checks raise -/

namespace Records

variable {records : Records}

/-- Good reads that are not known to be good at `ts` already raise the read times of their keys, and
no other record changes. -/
theorem Whole.get?_refreshed (h : records.Whole) (ts : Timestamp) (extend : Bool)
    (entries : List ReadEntry) (key : Key) :
    (records.refreshed ts extend entries).get? key =
      if extend = true ∧ ∃ entry ∈ entries, entry.key = key ∧ entry.tuple.stamp.rts < ts then
        (records.tuple? key).map fun t =>
          (Tuple.make ⟨t.stamp.wts, max t.stamp.rts ts⟩ t.value).bytes
      else records.get? key := by
  rw [(h.refreshed ts extend entries).get?_eq, tuple?_refreshed]
  split
  · rw [Option.map_map]
    rfl
  · exact (h.get?_eq key).symm

end Records

/-! ## The rule -/

/-- Over whole records and any locks, the checks of any transaction's reads at any time: they report
what is wrong with the first read that fails, and nothing if none does. The locks are as before. Where
the level extends reads, the checks raise the read times of the keys that have been looked at and have
passed, up to the time of the checks; every other record stays as it was. -/
theorem checks_report_the_first_read_that_fails (app : MergeOperator) {records : Records}
    (h : records.Whole) (locks : LockTable) (txn : Transaction) (ts : Timestamp) :
    ∃ passed found after,
      txn.validateReads (Engine.memory app.tuple) ts ⟨records, locks⟩ =
        (.ok found, ⟨after, locks⟩) ∧
      FirstFailure (ReadEntry.Fails records locks txn.id ts) txn.reads.entries passed found ∧
      ((Validation.stoppedAt found).isValid = true ↔
        ∀ entry ∈ txn.reads.entries, ∀ conflict, ¬ entry.Fails records locks txn.id ts conflict) ∧
      ∀ key, after.get? key =
        if txn.isolation.extendsReads = true ∧
            ∃ entry ∈ passed, entry.key = key ∧ entry.tuple.stamp.rts < ts then
          (records.tuple? key).map fun t =>
            (Tuple.make ⟨t.stamp.wts, max t.stamp.rts ts⟩ t.value).bytes
        else records.get? key := by
  have hfirst : FirstFailure (ReadEntry.Fails records locks txn.id ts) txn.reads.entries _ _ :=
    firstFailure_fault? txn.reads.entries
  exact ⟨_, _, _, checkReads_memory app locks h txn.id ts txn.isolation.extendsReads
    txn.reads.entries, hfirst, hfirst.isValid_iff, h.get?_refreshed ts _ _⟩

/-- Checks at time 5. One read is known to be good then; a key was read twice, under two read times;
one key is absent, and one is locked by the transaction itself. These pass. The next key is locked by
another transaction; the last would not match, but is never looked at. -/
theorem checks_stop_at_a_foreign_lock :
    let a : Key := ⟨[97]⟩
    let b : Key := ⟨[98]⟩
    let c : Key := ⟨[99]⟩
    let d : Key := ⟨[100]⟩
    let e : Key := ⟨[101]⟩
    let seen (wts rts : Timestamp) : Tuple := Tuple.make ⟨wts, rts⟩ [49]
    let records : Records := (((KeyMap.empty.insert a (seen 1 2).bytes).insert b
      (seen 3 4).bytes).insert c (seen 2 2).bytes).insert d (seen 1 1).bytes
    let locks : LockTable := ⟨(KeyMap.empty.insert c 7).insert d 8⟩
    let txn : Transaction := { Transaction.start 7 .serializable with
      reads := ⟨[⟨a, seen 1 9⟩, ⟨b, seen 3 3⟩, ⟨b, seen 3 4⟩, ⟨e, seen 0 0⟩, ⟨c, seen 2 2⟩,
        ⟨d, seen 1 1⟩, ⟨a, seen 4 4⟩]⟩ }
    records.Whole ∧
      ∃ passed after, txn.validateReads (Engine.memory MergeOperator.append.tuple) 5
          ⟨records, locks⟩ = (.ok (some (.busy d)), ⟨after, locks⟩) ∧
        FirstFailure (ReadEntry.Fails records locks 7 5) txn.reads.entries passed
          (some (.busy d)) ∧
        after.get? a = some (seen 1 2).bytes ∧ after.get? b = some (seen 3 5).bytes ∧
        after.get? c = some (seen 2 5).bytes ∧ after.get? d = some (seen 1 1).bytes ∧
        after.get? e = none := by
  intro a b c d e seen records locks txn
  have hwhole : records.Whole :=
    (((Records.sound_empty.whole.insert a _).insert b _).insert c _).insert d _
  obtain ⟨passed, found, after, hrun, hfirst, -, -⟩ :=
    checks_report_the_first_read_that_fails MergeOperator.append hwhole locks txn 5
  have hfound : Except.ok found = (Except.ok (some (.busy d)) : Except Error _) :=
    (congrArg Prod.fst hrun).symm.trans (by decide +kernel)
  obtain rfl := Except.ok.inj hfound
  have hafter : after = (txn.validateReads (Engine.memory MergeOperator.append.tuple) 5
      ⟨records, locks⟩).2.stored := (congrArg (fun reply => reply.2.stored) hrun).symm
  refine ⟨hwhole, passed, after, hrun, hfirst, ?_⟩
  rw [hafter]
  decide +kernel

end StampStore
