-- Commits that fail. Before its first write a commit only looks records up and
-- raises read times, so that is all it can have done when it aborts or when one of
-- these calls fails. The calls of an engine with faults may fail at any moment, and
-- a call that fails has no effect.
import StampStore.Database
import StampStore.Proofs.Commits
import StampStore.Proofs.Walks

namespace StampStore

/-! ## Engines with faults -/

/-- The state of an engine, and the faults of its next calls: each call meets the next one, or
none. -/
structure Faulty (σ : Type) where
  stored : σ
  faults : List (Option Error)

section Frames

variable {σ α : Type}

/-- Serves one call, unless it is its turn to fail. -/
def Engine.serve (call : Shared σ → Reply σ α) (shared : Shared (Faulty σ)) : Reply (Faulty σ) α :=
  match shared.stored.faults with
  | some e :: faults => (.error e, { shared with stored := { shared.stored with faults } })
  | faults =>
    match call ⟨shared.stored.stored, shared.locks⟩ with
    | (answer, after) => (answer, ⟨⟨after.stored, faults.tail⟩, after.locks⟩)

/-- The engine with calls that may fail. -/
def Engine.faulty (engine : Engine σ) : Engine (Faulty σ) where
  lookup key := serve (engine.lookup key)
  lookupRaw key := serve (engine.lookupRaw key)
  insert key record := serve (engine.insert key record)
  update key delta := serve (engine.update key delta)
  delete key := serve (engine.delete key)

/-- The store over the engine with calls that may fail. -/
def Database.faulty (db : Database σ) : Database (Faulty σ) := { db with engine := db.engine.faulty }

/-- A call that may fail fails without an effect, or is served. -/
theorem serve_cases (call : Shared σ → Reply σ α) (shared : Shared (Faulty σ)) :
    ((∃ e, (Engine.serve call shared).1 = .error e) ∧
        (Engine.serve call shared).2.stored.stored = shared.stored.stored) ∨
      ((Engine.serve call shared).1 = (call ⟨shared.stored.stored, shared.locks⟩).1 ∧
        (Engine.serve call shared).2.stored.stored =
          (call ⟨shared.stored.stored, shared.locks⟩).2.stored) := by
  unfold Engine.serve
  split
  · exact Or.inl ⟨⟨_, rfl⟩, rfl⟩
  · exact Or.inr ⟨rfl, rfl⟩

/-! ## What the calls before the writes can do -/

/-- The state of the engine can move along `R`, also several times, and every look at a record
because of its stamp moves it so. -/
structure Engine.Frame (engine : Engine σ) (R : σ → σ → Prop) : Prop where
  refl : ∀ a, R a a
  trans : ∀ {a b c}, R a b → R b c → R a c
  lookupRaw : ∀ key shared, R shared.stored (engine.lookupRaw key shared).2.stored

/-- Raising the read time of `key` to `ts` moves the state of the engine along `R`. -/
def Engine.Raises (engine : Engine σ) (R : σ → σ → Prop) (key : Key) (ts : Timestamp) : Prop :=
  ∀ shared, R shared.stored (engine.update key ts.encode shared).2.stored

/-- A check has moved the state along `R`, and has found no conflict but one about a read. -/
structure CheckedAlong (R : σ → σ → Prop) (before : σ) (reply : Reply σ (Option Conflict)) :
    Prop where
  moved : R before reply.2.stored
  notExhausted : ∀ key, reply.1 ≠ .ok (some (.exhausted key))

/-- Locking does not move the state of the engine, so the frame is walked along by all that comes
before the writes. -/
theorem Engine.Frame.walk {engine : Engine σ} {R : σ → σ → Prop} (h : engine.Frame R)
    (owner : TxnId) : engine.Walk owner fun before after => R before.stored after.stored where
  refl shared := h.refl shared.stored
  trans := h.trans
  lookupRaw := h.lookupRaw
  bracket _ hmoved := hmoved

/-- The errors of the calls that a commit makes before its writes, and those of damaged records, are
all in `E`. -/
structure Engine.FailsWith (engine : Engine σ) (E : Error → Prop) : Prop where
  lookupRaw : ∀ key shared e, (engine.lookupRaw key shared).1 = .error e → E e
  raise : ∀ key (ts : Timestamp) shared e,
    (engine.update key ts.encode shared).1 = .error e → E e
  damaged : ∀ key record e, Tuple.ofRecord key record = .error e → E e

/-- What a check can answer. Only the choice of a write time finds that timestamps are exhausted. -/
inductive CheckAnswer (E : Error → Prop) : Except Error (Option Conflict) → Prop where
  | good : CheckAnswer E (.ok none)
  | mismatch (key : Key) (read current : Timestamp) :
      CheckAnswer E (.ok (some (.mismatch key read current)))
  | busy (key : Key) : CheckAnswer E (.ok (some (.busy key)))
  | failed {e : Error} (he : E e) : CheckAnswer E (.error e)

namespace Engine.FailsWith

variable {engine : Engine σ} {E : Error → Prop} (h : engine.FailsWith E)

include h

theorem fetchStamp (key : Key) (shared : Shared σ) (e : Error)
    (herror : (engine.fetchStamp key shared).1 = .error e) : E e := by
  have hlook := h.lookupRaw key shared
  unfold Engine.fetchStamp at herror
  generalize engine.lookupRaw key shared = reply at herror hlook
  obtain ⟨answer, after⟩ := reply
  rcases answer with e' | _ | record
  · cases herror
    exact hlook e rfl
  · cases herror
  · cases hrecord : Tuple.ofRecord key record with
    | error e' =>
      simp only [hrecord] at herror
      cases herror
      exact h.damaged key record e hrecord
    | ok t =>
      simp only [hrecord] at herror
      cases herror

variable (ts : Timestamp) (extend : Bool) (entry : ReadEntry)

theorem close (current : Option Stamp) (shared : Shared σ) :
    CheckAnswer E (checkLocked.close engine ts extend entry current shared).1 := by
  unfold checkLocked.close Engine.extendRts
  split
  · cases current with
    | none => exact .good
    | some stamp =>
      by_cases hlt : stamp.rts < ts
      · have hraise := h.raise entry.key ts shared
        simp only [if_pos hlt]
        generalize engine.update entry.key ts.encode shared = reply at hraise ⊢
        obtain ⟨answer, after⟩ := reply
        cases answer with
        | error e => exact .failed (hraise e rfl)
        | ok done => exact .good
      · simp only [if_neg hlt]
        exact .good
  · exact .good

theorem checkLocked (lockedNow : Bool) (current : Option Stamp) (shared : Shared σ) :
    CheckAnswer E (engine.checkLocked ts extend entry lockedNow current shared).1 := by
  unfold Engine.checkLocked
  split
  · have hfetch := h.fetchStamp entry.key shared
    generalize engine.fetchStamp entry.key shared = reply at hfetch ⊢
    obtain ⟨answer, after⟩ := reply
    cases answer with
    | error e => exact .failed (hfetch e rfl)
    | ok current =>
      simp only [ReadEntry.conflictWith?]
      by_cases hsame : entry.tuple.stamp.wts = (current.getD Stamp.zero).wts
      · simp only [if_pos hsame]
        exact h.close ts extend entry current after
      · simp only [if_neg hsame]
        exact .mismatch _ _ _
  · exact h.close ts extend entry current shared

theorem checkRead (owner : TxnId) (shared : Shared σ) :
    CheckAnswer E (engine.checkRead owner ts extend entry shared).1 := by
  unfold Engine.checkRead
  split
  · exact .good
  · have hfetch := h.fetchStamp entry.key shared
    generalize engine.fetchStamp entry.key shared = reply at hfetch ⊢
    obtain ⟨answer, after⟩ := reply
    cases answer with
    | error e => exact .failed (hfetch e rfl)
    | ok current =>
      simp only [ReadEntry.conflictWith?]
      by_cases hsame : entry.tuple.stamp.wts = (current.getD Stamp.zero).wts
      · simp only [if_pos hsame]
        rcases after.locks.tryAcquire entry.key owner with ⟨outcome, locks⟩
        cases outcome with
        | busy => exact .busy entry.key
        | deadlock => exact h.checkLocked ts extend entry false current after
        | acquired => exact h.checkLocked ts extend entry true current { after with locks }
      · simp only [if_neg hsame]
        exact .mismatch _ _ _

theorem checkReads (owner : TxnId) (entries : List ReadEntry) (shared : Shared σ) :
    CheckAnswer E (engine.checkReads owner ts extend entries shared).1 := by
  induction entries generalizing shared with
  | nil => exact .good
  | cons entry entries ih =>
    have hfirst := h.checkRead ts extend entry owner shared
    unfold Engine.checkReads
    generalize engine.checkRead owner ts extend entry shared = reply at hfirst ⊢
    obtain ⟨answer, after⟩ := reply
    rcases answer with e | _ | conflict
    · exact hfirst
    · exact ih after
    · exact hfirst

end Engine.FailsWith

theorem checkReads_ne_exhausted (engine : Engine σ) (ts : Timestamp) (extend : Bool)
    (owner : TxnId) (entries : List ReadEntry) (shared : Shared σ) (key : Key) :
    (engine.checkReads owner ts extend entries shared).1 ≠ .ok (some (.exhausted key)) := by
  have hany : engine.FailsWith fun _ => True :=
    ⟨fun _ _ _ _ => trivial, fun _ _ _ _ _ => trivial, fun _ _ _ _ => trivial⟩
  have hanswer := hany.checkReads ts extend owner entries shared
  intro hexhausted
  rw [hexhausted] at hanswer
  cases hanswer

theorem Engine.Frame.checkReads {engine : Engine σ} {R : σ → σ → Prop} (h : engine.Frame R)
    (owner : TxnId) {ts : Timestamp} {extend : Bool} {entries : List ReadEntry}
    (hraise : extend = true → ∀ entry ∈ entries, engine.Raises R entry.key ts)
    (shared : Shared σ) :
    CheckedAlong R shared.stored (engine.checkReads owner ts extend entries shared) where
  moved := (h.walk owner).checkReads ts extend entries hraise shared
  notExhausted := checkReads_ne_exhausted engine ts extend owner entries shared

theorem Engine.Frame.faulty {engine : Engine σ} {R : σ → σ → Prop} (h : engine.Frame R) :
    engine.faulty.Frame fun a b => R a.stored b.stored where
  refl a := h.refl a.stored
  trans hab hbc := h.trans hab hbc
  lookupRaw key shared := by
    rcases serve_cases (engine.lookupRaw key) shared with ⟨-, hsame⟩ | ⟨-, hserved⟩
    · exact hsame.symm ▸ h.refl _
    · exact hserved.symm ▸ h.lookupRaw key ⟨shared.stored.stored, shared.locks⟩

theorem Engine.Frame.raises_faulty {engine : Engine σ} {R : σ → σ → Prop} (h : engine.Frame R)
    {key : Key} {ts : Timestamp} (hraise : engine.Raises R key ts) :
    engine.faulty.Raises (fun a b => R a.stored b.stored) key ts := by
  intro shared
  rcases serve_cases (engine.update key ts.encode) shared with ⟨-, hsame⟩ | ⟨-, hserved⟩
  · exact hsame.symm ▸ h.refl _
  · exact hserved.symm ▸ hraise ⟨shared.stored.stored, shared.locks⟩

end Frames

/-! ## Raised read times -/

/-- From `before` to `after` some read times under `keys` have been raised to `ts`, and nothing else
has changed. -/
def Records.RaisedTo (ts : Timestamp) (keys : List Key) (before after : Records) : Prop :=
  ∀ key, after.get? key = before.get? key ∨
    (key ∈ keys ∧ ∃ t, before.tuple? key = some t ∧ t.stamp.rts < ts ∧
      after.get? key = some (t.raise ts).bytes)

namespace Records.RaisedTo

variable {a b c : Records} {ts : Timestamp} {keys : List Key}

theorem refl (ts : Timestamp) (keys : List Key) (a : Records) : a.RaisedTo ts keys a :=
  fun _ => Or.inl rfl

theorem tuple? (h : a.RaisedTo ts keys b) (key : Key) :
    b.tuple? key = a.tuple? key ∨ (key ∈ keys ∧ ∃ t, a.tuple? key = some t ∧
      t.stamp.rts < ts ∧ b.tuple? key = some (t.raise ts)) := by
  rcases h key with hsame | ⟨hkey, t, ht, hlt, hraised⟩
  · left
    rw [Records.tuple?, Records.tuple?, hsame]
  · refine Or.inr ⟨hkey, t, ht, hlt, ?_⟩
    rw [Records.tuple?, hraised]
    exact Tuple.ofBytes?_bytes _

theorem trans (hab : a.RaisedTo ts keys b) (hbc : b.RaisedTo ts keys c) :
    a.RaisedTo ts keys c := by
  intro key
  rcases hbc key with hsame | ⟨hkey, u, hu, hlt, hraised⟩
  · rw [hsame]
    exact hab key
  · right
    rcases hab.tuple? key with htuple | ⟨-, t, -, -, ht⟩
    · exact ⟨hkey, u, htuple ▸ hu, hlt, hraised⟩
    · -- a read time that was raised to `ts` is not below it
      rw [hu] at ht
      cases ht
      simp at hlt

theorem eq_of_nil (h : a.RaisedTo ts [] b) : b = a := by
  apply KeyMap.ext_get?
  intro key
  exact (h key).resolve_right fun hraised => List.not_mem_nil hraised.1

theorem sameVersions (h : a.RaisedTo ts keys b) : a.SameVersions b where
  present key := by
    unfold KeyMap.contains
    rcases h key with hsame | ⟨-, t, ht, -, hraised⟩
    · rw [hsame]
    · rw [hraised, get?_of_tuple? ht]
      rfl
  value key := by
    unfold Records.value?
    rcases h.tuple? key with hsame | ⟨-, t, ht, -, hraised⟩
    · rw [hsame]
    · rw [hraised, ht]
      simp
  wts key := by
    rcases h.tuple? key with hsame | ⟨-, t, ht, -, hraised⟩
    · unfold stampAt stamp?
      rw [hsame]
    · rw [stampAt_of_tuple? hraised, stampAt_of_tuple? ht]
      simp

theorem rts (h : a.RaisedTo ts keys b) (key : Key) :
    (b.stampAt key).rts = (a.stampAt key).rts ∨
      ((a.stampAt key).rts < ts ∧ (b.stampAt key).rts = ts ∧ key ∈ keys) := by
  rcases h.tuple? key with hsame | ⟨hkey, t, ht, hlt, hraised⟩
  · left
    unfold stampAt stamp?
    rw [hsame]
  · right
    rw [stampAt_of_tuple? hraised, stampAt_of_tuple? ht]
    refine ⟨hlt, ?_, hkey⟩
    simp [max_eq_right (le_of_lt hlt)]

end Records.RaisedTo

theorem frame_memory (merge : MergeOperator) (ts : Timestamp) (keys : List Key) :
    (Engine.memory merge).Frame (Records.RaisedTo ts keys) where
  refl := Records.RaisedTo.refl ts keys
  trans := Records.RaisedTo.trans
  lookupRaw _ shared := Records.RaisedTo.refl ts keys shared.stored

/-- A record that is no tuple is left alone, and so is one that is readable at `ts` already. -/
theorem raises_memory (app : MergeOperator) {ts : Timestamp} {keys : List Key} {key : Key}
    (hkey : key ∈ keys) :
    (Engine.memory app.tuple).Raises (Records.RaisedTo ts keys) key ts := by
  rintro ⟨records, locks⟩
  cases hget : records.get? key with
  | none =>
    simp only [Engine.memory, Records.update, MergeOperator.tuple, MergeOperator.applyToTuple,
      Timestamp.decode_encode, hget]
    exact Records.RaisedTo.refl ts keys records
  | some record =>
    cases htuple : Tuple.ofBytes? record with
    | none =>
      simp only [Engine.memory, Records.update, MergeOperator.tuple, MergeOperator.applyToTuple,
        Timestamp.decode_encode, hget, MergeOperator.refresh, MergeOperator.readTuple, htuple]
      exact Records.RaisedTo.refl ts keys records
    | some t =>
      obtain rfl := Tuple.ofBytes?_eq_some_iff.mp htuple
      have ht : records.tuple? key = some t := by
        rw [Records.tuple?, hget]
        exact Tuple.ofBytes?_bytes t
      simp only [Engine.memory, Records.update, MergeOperator.tuple, MergeOperator.applyToTuple,
        Timestamp.decode_encode, hget, MergeOperator.refresh, MergeOperator.readTuple, htuple]
      rw [← Tuple.raise]
      intro j
      rw [KeyMap.get?_insert]
      split
      · rename_i hkj
        subst hkj
        rcases lt_or_ge t.stamp.rts ts with hlt | hge
        · exact Or.inr ⟨hkey, t, ht, hlt, rfl⟩
        · left
          rw [Tuple.raise_of_le hge, hget]
      · exact Or.inl rfl

/-! ## The part of a commit before its writes -/

namespace Transaction

variable {σ : Type}

/-- The part of a commit that comes before its writes. -/
def prepare (engine : Engine σ) (txn : Transaction) (shared : Shared σ) :
    Turn (Shared σ) (Except Error (Option Conflict)) :=
  match txn.chooseWriteTime engine shared with
  | ⟨.error e, txn, shared⟩ => ⟨.error e, txn, shared⟩
  | ⟨.ok (some conflict), txn, shared⟩ => ⟨.ok (some conflict), txn, shared⟩
  | ⟨.ok none, txn, shared⟩ =>
    match txn.validateReads engine txn.validationTime shared with
    | (answer, shared) => ⟨answer, txn, shared⟩

/-- A commit writes once that part has found nothing wrong. -/
theorem underLocks_eq (engine : Engine σ) (txn : Transaction) (shared : Shared σ) :
    txn.underLocks engine shared =
      match txn.prepare engine shared with
      | ⟨.error e, txn, shared⟩ => ⟨.error e, txn, shared⟩
      | ⟨.ok (some conflict), txn, shared⟩ => ⟨.ok (.aborted (.conflict conflict)), txn, shared⟩
      | ⟨.ok none, txn, shared⟩ =>
        match txn.writeAll engine shared with
        | (answer, shared) => ⟨answer, txn, shared⟩ := by
  unfold underLocks prepare
  rcases txn.chooseWriteTime engine shared with ⟨answer, chosen, after⟩
  cases answer with
  | error e => rfl
  | ok found =>
    cases found with
    | some conflict => rfl
    | none =>
      simp only
      rcases chosen.validateReads engine chosen.validationTime after with ⟨answer, left⟩
      cases answer with
      | error e => rfl
      | ok found => cases found <;> rfl

/-- Writes never end with an abort, and with no error but one that says how far they went. -/
theorem writeAll_cases (engine : Engine σ) (txn : Transaction) (shared : Shared σ) :
    (∃ ts, (txn.writeAll engine shared).1 = .ok (.committed ts)) ∨
      ∃ id applied total source, (txn.writeAll engine shared).1 =
        .error (.incompleteCommit id applied total source) := by
  unfold writeAll
  rcases engine.installAll txn.commitWts txn.writes.entries 0 shared with ⟨stop, after⟩
  cases stop with
  | none => exact Or.inl ⟨_, rfl⟩
  | some stop => exact Or.inr ⟨_, _, _, _, rfl⟩

/-- How a commit ends after the part before its writes. -/
inductive EndsAfter : Turn (Shared σ) (Except Error (Option Conflict)) → Committed σ → Prop where
  | failed {e : Error} {decided : Transaction} {after : Shared σ} {left : Committed σ}
      (hanswer : left.answer = .error (.error e))
      (htime : left.txn.validationTime = decided.validationTime)
      (hstored : left.shared.stored = after.stored) :
      EndsAfter ⟨.error e, decided, after⟩ left
  | refused {conflict : Conflict} {decided : Transaction} {after : Shared σ}
      {left : Committed σ} (hanswer : left.answer = .ok (.aborted (.conflict conflict)))
      (htime : left.txn.validationTime = decided.validationTime)
      (hstored : left.shared.stored = after.stored) :
      EndsAfter ⟨.ok (some conflict), decided, after⟩ left
  | written {decided : Transaction} {after : Shared σ} {left : Committed σ}
      (hanswer : (∃ ts, left.answer = .ok (.committed ts)) ∨ ∃ id applied total source,
        left.answer = .error (.error (.incompleteCommit id applied total source))) :
      EndsAfter ⟨.ok none, decided, after⟩ left

section Commit

variable {engine : Engine σ} {txn : Transaction} {shared : Shared σ}
  {rounds : List LockTable.Releases} {held : LockTable} {retries : Nat}

theorem commit_blocked (hactive : txn.isActive = true)
    (hlock : LockTable.lockWaiting txn.ready.writes.keys txn.id rounds shared.locks = none) :
    (txn.commit engine rounds shared).answer = .error .blocked := by
  rw [commit_of_blocked engine hactive hlock]

theorem commit_endsAfter (hactive : txn.isActive = true)
    (hlock : LockTable.lockWaiting txn.ready.writes.keys txn.id rounds shared.locks =
      some (held, retries)) :
    EndsAfter (txn.ready.prepare engine { shared with locks := held })
      (txn.commit engine rounds shared) := by
  have hunder := underLocks_eq engine txn.ready { shared with locks := held }
  generalize txn.ready.prepare engine { shared with locks := held } = part at hunder ⊢
  obtain ⟨answer, decided, after⟩ := part
  cases answer with
  | error e =>
    have hcommit := commit_of_locked engine hactive hlock hunder
    exact .failed (congrArg Committed.answer hcommit)
      (congrArg (fun left => left.txn.validationTime) hcommit)
      (congrArg (fun left => left.shared.stored) hcommit)
  | ok found =>
    cases found with
    | some conflict =>
      have hcommit := commit_of_locked engine hactive hlock hunder
      exact .refused (congrArg Committed.answer hcommit)
        (congrArg (fun left => left.txn.validationTime) hcommit)
        (congrArg (fun left => left.shared.stored) hcommit)
    | none =>
      have hwrites := decided.writeAll_cases engine after
      simp only at hunder
      generalize decided.writeAll engine after = writes at hunder hwrites
      obtain ⟨answer, left⟩ := writes
      have hcommit := congrArg Committed.answer (commit_of_locked engine hactive hlock hunder)
      apply EndsAfter.written
      rw [show (txn.commit engine rounds shared).answer = _ from hcommit]
      rcases hwrites with ⟨ts, rfl⟩ | ⟨id, applied, total, source, rfl⟩
      · exact Or.inl ⟨ts, rfl⟩
      · exact Or.inr ⟨id, applied, total, source, rfl⟩

/-- The commit gets its locks, and a storage call before its writes fails. -/
def FailsBeforeWrites (engine : Engine σ) (rounds : List LockTable.Releases) (txn : Transaction)
    (shared : Shared σ) : Prop :=
  ∃ held retries e,
    LockTable.lockWaiting txn.ready.writes.keys txn.id rounds shared.locks =
      some (held, retries) ∧
    (txn.ready.prepare engine { shared with locks := held }).answer = .error e

/-- An error of a commit comes from the part before the writes, unless it says how far they went. -/
theorem failsBeforeWrites_of_error (hactive : txn.isActive = true) {e : Error}
    (herror : (txn.commit engine rounds shared).answer = .error (.error e))
    (hearly : ∀ id applied total source, e ≠ .incompleteCommit id applied total source) :
    txn.FailsBeforeWrites engine rounds shared := by
  cases hlock : LockTable.lockWaiting txn.ready.writes.keys txn.id rounds shared.locks with
  | none =>
    rw [commit_blocked hactive hlock] at herror
    cases herror
  | some locked =>
    refine ⟨locked.1, locked.2, e, hlock, ?_⟩
    have hends : EndsAfter (txn.ready.prepare engine { shared with locks := locked.1 })
        (txn.commit engine rounds shared) := commit_endsAfter hactive hlock
    generalize txn.ready.prepare engine { shared with locks := locked.1 } = part at hends ⊢
    cases hends with
    | failed hanswer =>
      rw [hanswer] at herror
      cases herror
      rfl
    | refused hanswer =>
      rw [hanswer] at herror
      cases herror
    | written hanswer =>
      exfalso
      rcases hanswer with ⟨ts, hanswer⟩ | ⟨id, applied, total, source, hanswer⟩
      · rw [hanswer] at herror
        cases herror
      · rw [hanswer] at herror
        cases herror
        exact hearly id applied total source rfl

/-- A commit that has not come to its writes leaves what the part before them has left. -/
theorem commit_unwritten (hactive : txn.isActive = true)
    (hfail : (∃ reason, (txn.commit engine rounds shared).answer = .ok (.aborted reason)) ∨
      txn.FailsBeforeWrites engine rounds shared) :
    ∃ held, (txn.commit engine rounds shared).shared.stored =
        (txn.ready.prepare engine { shared with locks := held }).after.stored ∧
      (txn.commit engine rounds shared).txn.validationTime =
        (txn.ready.prepare engine { shared with locks := held }).txn.validationTime ∧
      ∀ conflict, (txn.commit engine rounds shared).answer =
          .ok (.aborted (.conflict conflict)) →
        (txn.ready.prepare engine { shared with locks := held }).answer = .ok (some conflict) := by
  cases hlock : LockTable.lockWaiting txn.ready.writes.keys txn.id rounds shared.locks with
  | none =>
    exfalso
    rcases hfail with ⟨reason, hreason⟩ | ⟨held, retries, e, hheld, -⟩
    · rw [commit_blocked hactive hlock] at hreason
      cases hreason
    · rw [hlock] at hheld
      cases hheld
  | some locked =>
    refine ⟨locked.1, ?_⟩
    have hfault : txn.FailsBeforeWrites engine rounds shared → ∃ e,
        (txn.ready.prepare engine { shared with locks := locked.1 }).answer = .error e := by
      rintro ⟨held, retries, e, hheld, he⟩
      rw [hlock] at hheld
      cases hheld
      exact ⟨e, he⟩
    replace hfail := hfail.imp_right hfault
    have hends : EndsAfter (txn.ready.prepare engine { shared with locks := locked.1 })
        (txn.commit engine rounds shared) := commit_endsAfter hactive hlock
    generalize txn.commit engine rounds shared = left at hends hfail ⊢
    generalize txn.ready.prepare engine { shared with locks := locked.1 } = part at hends hfail ⊢
    cases hends with
    | failed hanswer htime hstored =>
      exact ⟨hstored, htime, fun conflict h => by rw [hanswer] at h; cases h⟩
    | refused hanswer htime hstored =>
      exact ⟨hstored, htime, fun conflict h => by rw [hanswer] at h; cases h; rfl⟩
    | written hanswer =>
      exfalso
      rcases hfail with ⟨reason, hreason⟩ | ⟨e, he⟩
      · rw [hreason] at hanswer
        rcases hanswer with ⟨ts, h⟩ | ⟨id, applied, total, source, h⟩ <;> cases h
      · cases he

end Commit

/-- The keys whose read times the commit may raise. -/
def raisable (txn : Transaction) : List Key :=
  if txn.isolation.extendsReads then txn.reads.entries.map (·.key) else []

theorem read_of_raisable {txn : Transaction} {key : Key} (h : key ∈ txn.ready.raisable) :
    ∃ entry ∈ txn.reads.entries, entry.key = key := by
  unfold raisable at h
  rw [ready_reads] at h
  split at h
  · exact List.mem_map.mp h
  · exact absurd h List.not_mem_nil

/-- Before its writes a commit over records in memory raises read times of its reads to the time
they are checked at, whatever calls fail. Without a write time it does not come to that. -/
theorem prepare_faulty (app : MergeOperator) (txn : Transaction)
    (shared : Shared (Faulty Records)) :
    let part := txn.prepare (Engine.memory app.tuple).faulty shared
    shared.stored.stored.RaisedTo part.txn.validationTime txn.raisable part.after.stored.stored ∧
      ∀ key, part.answer = .ok (some (.exhausted key)) →
        part.after.stored.stored = shared.stored.stored := by
  have hchoose := Records.RaisedTo.eq_of_nil
    (((frame_memory app.tuple 0 []).faulty.walk txn.id).chooseWriteTime txn shared)
  obtain ⟨ts, hchosen⟩ := txn.txn_chooseWriteTime (Engine.memory app.tuple).faulty shared
  have hlevel := congrArg isolation hchosen
  have hreads := congrArg reads hchosen
  unfold prepare
  generalize txn.chooseWriteTime (Engine.memory app.tuple).faulty shared = chosen at *
  obtain ⟨answer, next, after⟩ := chosen
  simp only at hchoose hlevel hreads
  cases answer with
  | error e =>
    simp only
    rw [hchoose]
    exact ⟨Records.RaisedTo.refl _ _ _, fun _ _ => rfl⟩
  | ok found =>
    cases found with
    | some conflict =>
      simp only
      rw [hchoose]
      exact ⟨Records.RaisedTo.refl _ _ _, fun _ _ => rfl⟩
    | none =>
      have hraise : next.isolation.extendsReads = true → ∀ entry ∈ next.reads.entries,
          (Engine.memory app.tuple).faulty.Raises (fun a b =>
            a.stored.RaisedTo next.validationTime txn.raisable b.stored) entry.key
            next.validationTime := by
        intro hext entry hentry
        apply (frame_memory app.tuple next.validationTime txn.raisable).raises_faulty
        apply raises_memory app
        unfold raisable
        rw [← hlevel, if_pos hext, ← hreads]
        exact List.mem_map_of_mem hentry
      have hchecks := (frame_memory app.tuple next.validationTime txn.raisable).faulty.checkReads
        next.id hraise after
      rw [← hchoose]
      exact ⟨hchecks.moved, fun key hkey => absurd hkey (hchecks.notExhausted key)⟩

end Transaction

/-! ## Failed commits are invisible -/

/-- Records in memory, with any lock table and with storage calls that may fail at any moment: a commit
that is aborted, or that fails before its writes, leaves every version as it is. A read time stays as
it is too, or it was below the validation time and is now that time, which happens to keys that the
transaction has read. Not even that happens at the weakest level, or when a key has run out of
timestamps. -/
theorem failed_commit_only_raises_read_times_of_its_reads (app : MergeOperator)
    {txn : Transaction} (hactive : txn.isActive = true) (rounds : List LockTable.Releases)
    (records : Records) (faults : List (Option Error)) (locks : LockTable) :
    let shared : Shared (Faulty Records) := ⟨⟨records, faults⟩, locks⟩
    let engine := (Engine.memory app.tuple).faulty
    let left := txn.commit engine rounds shared
    let after := left.shared.stored.stored
    (∃ reason, left.answer = .ok (.aborted reason)) ∨
        txn.FailsBeforeWrites engine rounds shared →
      records.SameVersions after ∧
        (∀ key, (after.stampAt key).rts = (records.stampAt key).rts ∨
          ((records.stampAt key).rts < left.txn.validationTime ∧
            (after.stampAt key).rts = left.txn.validationTime ∧
            ∃ entry ∈ txn.reads.entries, entry.key = key)) ∧
        (txn.isolation = .repeatableRead → after = records) ∧
        ∀ key, left.answer = .ok (.aborted (.conflict (.exhausted key))) → after = records := by
  intro shared engine left after hfail
  obtain ⟨held, hstored, htime, hconflict⟩ := Transaction.commit_unwritten hactive hfail
  obtain ⟨hraised, hexhausted⟩ :=
    Transaction.prepare_faulty app txn.ready { shared with locks := held }
  have hafter : after = (txn.ready.prepare engine
      { shared with locks := held }).after.stored.stored := congrArg Faulty.stored hstored
  rw [← htime, ← hafter] at hraised
  refine ⟨hraised.sameVersions, ?_, ?_, ?_⟩
  · intro key
    rcases hraised.rts key with hsame | ⟨hlt, hnow, hkey⟩
    · exact Or.inl hsame
    · exact Or.inr ⟨hlt, hnow, Transaction.read_of_raisable hkey⟩
  · intro hlevel
    have hnone : txn.ready.raisable = [] := by
      unfold Transaction.raisable
      rw [Transaction.ready_isolation, hlevel]
      rfl
    rw [hnone] at hraised
    exact hraised.eq_of_nil
  · intro key hkey
    rw [hafter]
    exact hexhausted key (hconflict _ hkey)

/-- The fifth storage call fails, the first look at the second read. The first read has been checked
at time 6 by then, and its read time stays raised. -/
theorem interrupted_commit_leaves_one_read_time_raised :
    let k : Key := ⟨[107]⟩
    let l : Key := ⟨[108]⟩
    let m : Key := ⟨[109]⟩
    let old := Tuple.make ⟨1, 1⟩ [49]
    let records : Records := ((KeyMap.empty.insert k old.bytes).insert l old.bytes).insert m
      (Tuple.make ⟨5, 5⟩ [50]).bytes
    let txn : Transaction := { Transaction.start 1 .serializable with
      reads := ⟨[⟨k, old⟩, ⟨l, old⟩]⟩
      writes := ⟨[⟨m, .insert, Tuple.unstamped [51]⟩], by decide⟩ }
    let left := txn.commit (Engine.memory MergeOperator.replace.tuple).faulty []
      ⟨⟨records, [none, none, none, none, some (.storage "lost")]⟩, LockTable.empty⟩
    left.answer = .error (.error (.storage "lost")) ∧
      left.shared.stored.stored.stamp? k = some ⟨1, 6⟩ ∧
      left.shared.stored.stored.stamp? l = some ⟨1, 1⟩ ∧
      records.SameVersions left.shared.stored.stored := by
  intro k l m old records txn left
  have hanswer : left.answer = .error (.error (.storage "lost")) := by decide +kernel
  have hspec := @failed_commit_only_raises_read_times_of_its_reads MergeOperator.replace
    txn rfl [] records [none, none, none, none, some (.storage "lost")] LockTable.empty
    (Or.inr (Transaction.failsBeforeWrites_of_error rfl hanswer (by simp)))
  exact ⟨hanswer, by decide +kernel, by decide +kernel, hspec.1⟩

end StampStore
