-- Commits that stop among their writes. The writes are made in key order, and the
-- first one that fails ends the commit: those before it are in place, and under
-- every other key no more has happened than that a read time was raised. The
-- answer, the status, the records and the counters agree on how far it went.
import StampStore.Proofs.Failures
import StampStore.Proofs.Sessions

namespace StampStore

variable {σ α : Type}

/-! ## How far the writes go -/

section Stops

variable {engine : Engine σ} {ts : Timestamp} {before between after : Shared σ} {e : Error}

/-- The engine makes these writes one after another, each without an error. -/
inductive Engine.Makes (engine : Engine σ) (ts : Timestamp) :
    List WriteEntry → Shared σ → Shared σ → Prop
  | nil {shared : Shared σ} : Makes engine ts [] shared shared
  | cons {entry : WriteEntry} {entries : List WriteEntry} {a b c : Shared σ}
      (hfirst : engine.install ts entry a = (.ok (), b)) (hrest : Makes engine ts entries b c) :
      Makes engine ts (entry :: entries) a c

/-- Behind writes that are made, one that fails ends the writing. -/
theorem Engine.Makes.installAll {made : List WriteEntry}
    (h : engine.Makes ts made before between) {entry : WriteEntry}
    (hfail : engine.install ts entry between = (.error e, after)) (rest : List WriteEntry)
    (done : Nat) :
    engine.installAll ts (made ++ entry :: rest) done before =
      (some (done + made.length, e), after) := by
  induction h generalizing done with
  | nil =>
    simp only [List.nil_append, Engine.installAll]
    rw [hfail]
    rfl
  | cons hfirst _ ih =>
    simp only [List.cons_append, Engine.installAll]
    rw [hfirst]
    simp only
    rw [ih hfail (done + 1), List.length_cons, Nat.add_assoc, Nat.add_comm 1]

theorem makes_of_installAll {entries : List WriteEntry} {done stop : Nat}
    (h : engine.installAll ts entries done before = (some (stop, e), after)) :
    ∃ n entry between, stop = done + n ∧ entries[n]? = some entry ∧
      engine.Makes ts (entries.take n) before between ∧
      engine.install ts entry between = (.error e, after) := by
  induction entries generalizing done before with
  | nil => cases h
  | cons entry entries ih =>
    unfold Engine.installAll at h
    rcases hfirst : engine.install ts entry before with ⟨answer, next⟩
    rw [hfirst] at h
    cases answer with
    | error _ =>
      cases h
      exact ⟨0, entry, before, rfl, rfl, .nil, hfirst⟩
    | ok _ =>
      obtain ⟨n, failed, between, rfl, hfailed, hmakes, hfail⟩ := ih h
      exact ⟨n + 1, failed, between, by omega, hfailed, .cons hfirst hmakes, hfail⟩

end Stops

namespace Transaction

/-- The commit comes to its writes and makes the first `n` of them, in key order; the next one fails
with `e`. -/
def StopsAt (engine : Engine σ) (rounds : List LockTable.Releases) (txn : Transaction)
    (shared : Shared σ) (n : Nat) (e : Error) : Prop :=
  ∃ held retries decided before between after entry,
    LockTable.lockWaiting txn.ready.writes.keys txn.id rounds shared.locks =
      some (held, retries) ∧
    txn.ready.prepare engine { shared with locks := held } = ⟨.ok none, decided, before⟩ ∧
    txn.writes.sorted.entries[n]? = some entry ∧
    engine.Makes decided.commitWts (txn.writes.sorted.entries.take n) before between ∧
    engine.install decided.commitWts entry between = (.error e, after)

/-- Before the writes only the write time of the transaction changes. -/
theorem txn_prepare (engine : Engine σ) (txn : Transaction) (shared : Shared σ) :
    ∃ ts, (txn.prepare engine shared).txn = { txn with commitWts := ts } := by
  obtain ⟨ts, hchosen⟩ := txn.txn_chooseWriteTime engine shared
  refine ⟨ts, ?_⟩
  unfold prepare
  generalize txn.chooseWriteTime engine shared = chosen at hchosen ⊢
  obtain ⟨answer, next, after⟩ := chosen
  rcases answer with e | _ | conflict <;> exact hchosen

section Commit

variable {engine : Engine σ} {txn : Transaction} {shared : Shared σ}
  {rounds : List LockTable.Releases} {n : Nat} {e : Error}

theorem writeAll_of_stop {ts : Timestamp} {before after : Shared σ}
    (h : engine.installAll ts txn.writes.sorted.entries 0 before = (some (n, e), after)) :
    (txn.readyAt ts).writeAll engine before =
      (.error (.incompleteCommit txn.id n txn.writes.length e), after) := by
  have hlength : txn.writes.sorted.length = txn.writes.length := txn.writes.sorted_perm.length_eq
  unfold writeAll
  rw [readyAt_writes, readyAt_id, hlength, show (txn.readyAt ts).commitWts = ts from rfl, h]

/-- A commit that stops at a write says so, and leaves what the writes before that one have left. -/
theorem commit_stopped (hactive : txn.isActive = true)
    (h : txn.StopsAt engine rounds shared n e) :
    ∃ held ts before between after entry,
      txn.ready.prepare engine { shared with locks := held } =
        ⟨.ok none, txn.readyAt ts, before⟩ ∧
      engine.Makes ts (txn.writes.sorted.entries.take n) before between ∧
      engine.install ts entry between = (.error e, after) ∧
      n < txn.writes.length ∧
      txn.commit engine rounds shared =
        ⟨.error (.error (.incompleteCommit txn.id n txn.writes.length e)),
          (txn.readyAt ts).finish (.partiallyApplied n txn.writes.length),
          { after with locks := after.locks.releaseAll txn.ready.writes.keys txn.id },
          (txn.commit engine rounds shared).lockRetries⟩ := by
  obtain ⟨held, retries, decided, before, between, after, entry, hlock, hprepare, hentry, hmakes,
    hfail⟩ := h
  obtain ⟨ts, hdecided⟩ := txn_prepare engine txn.ready { shared with locks := held }
  rw [hprepare] at hdecided
  obtain rfl : decided = txn.readyAt ts := hdecided
  obtain ⟨hlt, hget⟩ := List.getElem?_eq_some_iff.mp hentry
  have hsplit : txn.writes.sorted.entries =
      txn.writes.sorted.entries.take n ++ entry :: txn.writes.sorted.entries.drop (n + 1) := by
    rw [← hget, ← List.drop_eq_getElem_cons, List.take_append_drop]
  have hinstall := hmakes.installAll hfail (txn.writes.sorted.entries.drop (n + 1)) 0
  rw [← hsplit, List.length_take, Nat.min_eq_left hlt.le, Nat.zero_add] at hinstall
  have hwrite : (txn.readyAt ts).writeAll engine before =
      (.error (.incompleteCommit txn.id n txn.writes.length e), after) := writeAll_of_stop hinstall
  have hunder := underLocks_eq engine txn.ready { shared with locks := held }
  rw [hprepare] at hunder
  simp only [hwrite] at hunder
  have hcommit := commit_of_locked engine hactive hlock hunder
  refine ⟨held, ts, before, between, after, entry, hprepare, hmakes, hfail, ?_, ?_⟩
  · exact lt_of_lt_of_eq hlt txn.writes.sorted_perm.length_eq
  · rw [hcommit]
    rfl

/-- A commit that comes to its writes and answers that it is incomplete has stopped at a write. -/
theorem stopsAt_of_answer (hactive : txn.isActive = true) {held : LockTable} {retries : Nat}
    (hlock : LockTable.lockWaiting txn.ready.writes.keys txn.id rounds shared.locks =
      some (held, retries))
    (hready : (txn.ready.prepare engine { shared with locks := held }).answer = .ok none)
    {id : TxnId} {total : Nat}
    (hanswer : (txn.commit engine rounds shared).answer =
      .error (.error (.incompleteCommit id n total e))) :
    txn.StopsAt engine rounds shared n e := by
  have hunder := underLocks_eq engine txn.ready { shared with locks := held }
  rcases hprepare : txn.ready.prepare engine { shared with locks := held } with
    ⟨answer, decided, before⟩
  obtain ⟨ts, hdecided⟩ := txn_prepare engine txn.ready { shared with locks := held }
  rw [hprepare] at hready hdecided hunder
  cases hready
  obtain rfl : decided = txn.readyAt ts := hdecided
  simp only at hunder
  rw [commit_of_locked engine hactive hlock hunder] at hanswer
  rcases hinstall : engine.installAll ts txn.writes.sorted.entries 0 before with ⟨stop, after⟩
  cases stop with
  | none =>
    unfold writeAll at hanswer
    rw [readyAt_writes, show (txn.readyAt ts).commitWts = ts from rfl, hinstall] at hanswer
    cases hanswer
  | some stop =>
    rw [writeAll_of_stop hinstall] at hanswer
    cases hanswer
    obtain ⟨n, entry, between, hn, hentry, hmakes, hfail⟩ := makes_of_installAll hinstall
    rw [Nat.zero_add] at hn
    subst hn
    exact ⟨held, retries, txn.readyAt ts, before, between, after, entry, hlock, hprepare, hentry,
      hmakes, hfail⟩

end Commit

end Transaction

/-! ## Writes over records in memory -/

/-- `entries` have been written over `before` at `ts`, whatever else is stored. -/
structure Records.Applied (app : MergeOperator) (ts : Timestamp) (before : Records)
    (entries : List WriteEntry) (after : Records) : Prop where
  written : ∀ entry ∈ entries, ∃ value,
    entry.effect app (before.value? entry.key) = .ok value ∧
      after.get? entry.key = value.map fun v => (Tuple.make (Stamp.committedAt ts) v).bytes
  kept : ∀ key, key ∉ entries.map (·.key) → after.get? key = before.get? key

section Memory

variable {app : MergeOperator} {ts : Timestamp}

theorem value?_of_readBase {records : Records} {key : Key} {base : Option Bytes}
    (h : MergeOperator.readBase key (records.get? key) = .ok base) : records.value? key = base := by
  unfold Records.value? Records.tuple?
  cases hget : records.get? key with
  | none =>
    rw [hget] at h
    cases h
    rfl
  | some record =>
    rw [hget] at h
    simp only [MergeOperator.readBase, MergeOperator.readTuple] at h
    rw [Option.bind_some]
    cases htuple : Tuple.ofBytes? record with
    | none =>
      rw [htuple] at h
      cases h
    | some t =>
      rw [htuple] at h
      cases h
      rfl

/-- A write that storage takes puts what it makes of the value under its key, and a write that is
refused changes nothing. -/
theorem install_memory_cases (app : MergeOperator) (ts : Timestamp) (entry : WriteEntry)
    (shared : Shared Records) :
    (∃ e, (Engine.memory app.tuple).install ts entry shared = (.error e, shared)) ∨
      ∃ value next, entry.effect app (shared.stored.value? entry.key) = .ok value ∧
        (Engine.memory app.tuple).install ts entry shared =
          (.ok (), { shared with stored := next }) ∧
        ∀ key, next.get? key = if entry.key = key then
          value.map fun v => (Tuple.make (Stamp.committedAt ts) v).bytes
          else shared.stored.get? key := by
  unfold WriteEntry.effect Engine.install Engine.memory
  cases entry.op with
  | insert =>
    exact Or.inr ⟨_, _, rfl, rfl, fun key => KeyMap.get?_insert shared.stored entry.key key _⟩
  | delete =>
    exact Or.inr ⟨_, _, rfl, rfl, KeyMap.get?_erase shared.stored entry.key⟩
  | update =>
    simp only [Records.update, MergeOperator.tuple, MergeOperator.applyToTuple,
      Timestamp.decode_tuple, MergeOperator.readTuple, Tuple.ofBytes?_bytes]
    cases hbase : MergeOperator.readBase entry.key (shared.stored.get? entry.key) with
    | error e => exact Or.inl ⟨e, rfl⟩
    | ok base =>
      rw [value?_of_readBase hbase]
      simp only [Tuple.value_setStamp, Tuple.stamp_setStamp]
      cases app.apply entry.key base entry.tuple.value with
      | error e => exact Or.inl ⟨e, rfl⟩
      | ok value =>
        exact Or.inr ⟨_, _, rfl, rfl, fun key => KeyMap.get?_insert shared.stored entry.key key _⟩

theorem install_faulty (engine : Engine σ) (ts : Timestamp) (entry : WriteEntry) :
    engine.faulty.install ts entry = Engine.serve (engine.install ts entry) := by
  funext shared
  unfold Engine.install Engine.faulty
  cases entry.op <;> rfl

/-- A write whose call may fail does as much as one that storage refuses, or as one that it takes. -/
theorem install_faulty_cases (app : MergeOperator) (ts : Timestamp) (entry : WriteEntry)
    (shared : Shared (Faulty Records)) :
    let reply := (Engine.memory app.tuple).faulty.install ts entry shared
    ((∃ e, reply.1 = .error e) ∧ reply.2.stored.stored = shared.stored.stored) ∨
      (reply.1 = .ok () ∧ ∃ value,
        entry.effect app (shared.stored.stored.value? entry.key) = .ok value ∧
        ∀ key, reply.2.stored.stored.get? key = if entry.key = key then
          value.map fun v => (Tuple.make (Stamp.committedAt ts) v).bytes
          else shared.stored.stored.get? key) := by
  intro reply
  have hreply : reply = _ := congrFun (install_faulty (Engine.memory app.tuple) ts entry) shared
  rw [hreply]
  rcases serve_cases ((Engine.memory app.tuple).install ts entry) shared with
    hfailed | ⟨hanswer, hstored⟩
  · exact Or.inl hfailed
  · rw [hanswer, hstored]
    rcases install_memory_cases app ts entry ⟨shared.stored.stored, shared.locks⟩ with
      ⟨e, hrefused⟩ | ⟨value, next, heffect, hmade, hnext⟩
    · rw [hrefused]
      exact Or.inl ⟨⟨e, rfl⟩, rfl⟩
    · rw [hmade]
      exact Or.inr ⟨rfl, value, heffect, hnext⟩

/-- A write that fails, at storage or because it cannot be merged, changes nothing. -/
theorem install_failed {entry : WriteEntry} {shared after : Shared (Faulty Records)} {e : Error}
    (h : (Engine.memory app.tuple).faulty.install ts entry shared = (.error e, after)) :
    after.stored.stored = shared.stored.stored := by
  rcases install_faulty_cases app ts entry shared with ⟨-, hsame⟩ | ⟨hok, -⟩
  · rw [h] at hsame
    exact hsame
  · rw [h] at hok
    cases hok

theorem value?_of_get?_eq {a b : Records} {key : Key} (h : a.get? key = b.get? key) :
    a.value? key = b.value? key := by
  rw [Records.value?, Records.value?, Records.tuple?, Records.tuple?, h]

/-- One more write in front of others to other keys. -/
theorem Records.Applied.cons {entry : WriteEntry} {entries : List WriteEntry}
    {value : Option Bytes} {before next after : Records}
    (heffect : entry.effect app (before.value? entry.key) = .ok value)
    (hnext : ∀ key, next.get? key =
      if entry.key = key then value.map fun v => (Tuple.make (Stamp.committedAt ts) v).bytes
      else before.get? key)
    (hkey : entry.key ∉ entries.map (·.key)) (h : next.Applied app ts entries after) :
    before.Applied app ts (entry :: entries) after where
  written := by
    intro e he
    rcases List.mem_cons.mp he with rfl | he
    · exact ⟨value, heffect, by rw [h.kept _ hkey, hnext, if_pos rfl]⟩
    · obtain ⟨v, hv, hget⟩ := h.written e he
      have hne : entry.key ≠ e.key := fun heq => hkey (heq ▸ List.mem_map_of_mem he)
      have hbefore : next.get? e.key = before.get? e.key := by rw [hnext, if_neg hne]
      exact ⟨v, value?_of_get?_eq hbefore ▸ hv, hget⟩
  kept := by
    intro key hnot
    rw [List.map_cons, List.mem_cons, not_or] at hnot
    rw [h.kept key hnot.2, hnext, if_neg (Ne.symm hnot.1)]

/-- Writes to different keys that are made one after another have been written. -/
theorem Engine.Makes.applied {entries : List WriteEntry} {before after : Shared (Faulty Records)}
    (h : (Engine.memory app.tuple).faulty.Makes ts entries before after)
    (hdistinct : (entries.map (·.key)).Nodup) :
    before.stored.stored.Applied app ts entries after.stored.stored := by
  induction h with
  | nil => exact ⟨by simp, fun _ _ => rfl⟩
  | @cons entry entries a b c hfirst _ ih =>
    rw [List.map_cons, List.nodup_cons] at hdistinct
    obtain ⟨hkey, hrest⟩ := hdistinct
    obtain ⟨⟨e, herror⟩, -⟩ | ⟨-, value, heffect, hput⟩ := install_faulty_cases app ts entry a
    · rw [hfirst] at herror
      cases herror
    · rw [hfirst] at hput
      exact (ih hrest).cons heffect hput hkey

end Memory

/-! ## The least keys of a buffer -/

/-- The number of keys before `key` in the buffer. -/
def WriteBuffer.rank (buffer : WriteBuffer) (key : Key) : Nat :=
  buffer.keys.countP fun other => decide (other < key)

/-- In ascending order the keys before one are those that stand in front of it. -/
theorem countP_of_ascending {keys : List Key} (h : keys.Pairwise fun a b => a < b) {n : Nat}
    {key : Key} (hkey : keys[n]? = some key) :
    keys.countP (fun other => decide (other < key)) = n := by
  induction keys generalizing n with
  | nil => cases hkey
  | cons first keys ih =>
    obtain ⟨hfirst, hrest⟩ := List.pairwise_cons.mp h
    cases n with
    | zero =>
      simp only [List.getElem?_cons_zero, Option.some.injEq] at hkey
      subst hkey
      rw [List.countP_eq_zero]
      intro other hother
      rw [decide_eq_true_eq]
      rcases List.mem_cons.mp hother with rfl | hother
      · exact Key.lt_irrefl other
      · exact Key.lt_asymm (hfirst other hother)
    | succ n =>
      have hlt : first < key := hfirst key (List.mem_of_getElem? hkey)
      rw [List.countP_cons_of_pos (by simpa using hlt), ih hrest hkey]

theorem rank_of_sorted {buffer : WriteBuffer} {n : Nat} {entry : WriteEntry}
    (h : buffer.sorted.entries[n]? = some entry) : buffer.rank entry.key = n := by
  have hkey : buffer.sorted.keys[n]? = some entry.key := by
    rw [WriteBuffer.keys, List.getElem?_map, h]
    rfl
  rw [← countP_of_ascending buffer.sorted_ascending hkey]
  exact ((buffer.sorted_perm.map (·.key)).countP_eq _).symm

/-- The first `n` entries in key order are those with fewer than `n` keys before theirs. -/
theorem mem_take_sorted {buffer : WriteBuffer} {n : Nat} {entry : WriteEntry} :
    entry ∈ buffer.sorted.entries.take n ↔
      entry ∈ buffer.entries ∧ buffer.rank entry.key < n := by
  constructor
  · intro h
    obtain ⟨j, hj⟩ := List.mem_iff_getElem?.mp h
    rw [List.getElem?_take] at hj
    split at hj
    · refine ⟨WriteBuffer.mem_sorted.mp (List.mem_of_getElem? hj), ?_⟩
      rwa [rank_of_sorted hj]
    · cases hj
  · rintro ⟨hentry, hrank⟩
    obtain ⟨j, hj⟩ := List.mem_iff_getElem?.mp (WriteBuffer.mem_sorted.mpr hentry)
    rw [rank_of_sorted hj] at hrank
    refine List.mem_iff_getElem?.mpr ⟨j, ?_⟩
    rw [List.getElem?_take, if_pos hrank, hj]

/-- A key with `n` keys before it, or one that is not in the buffer, is not among the first `n`. -/
theorem not_mem_take_sorted {buffer : WriteBuffer} {n : Nat} {key : Key}
    (hkey : key ∈ buffer.keys → n ≤ buffer.rank key) :
    key ∉ (buffer.sorted.entries.take n).map (·.key) := by
  intro hmem
  obtain ⟨entry, hentry, rfl⟩ := List.mem_map.mp hmem
  obtain ⟨hmine, hrank⟩ := mem_take_sorted.mp hentry
  exact absurd (hkey (List.mem_map_of_mem hmine)) (Nat.not_le.mpr hrank)

theorem distinct_take_sorted (buffer : WriteBuffer) (n : Nat) :
    ((buffer.sorted.entries.take n).map (·.key)).Nodup :=
  ((List.take_sublist n buffer.sorted.entries).map (·.key)).nodup buffer.sorted.distinct

/-! ## Commits that stop at a write -/

theorem Tuple.raise_of_lt {t : Tuple} {ts : Timestamp} (h : t.stamp.rts < ts) :
    t.raise ts = Tuple.make ⟨t.stamp.wts, ts⟩ t.value := by
  rw [Tuple.raise, Tuple.setStamp_eq, Stamp.raiseRts, max_eq_right (le_of_lt h)]

/-- Records in memory, with storage calls that may fail at any moment: a commit makes its first `n`
writes in key order, and the next one fails with `e`. -/
theorem stopped_commit_applies_its_least_keys (app : MergeOperator)
    {db : Database (Faulty Records)} (hdb : db.engine = (Engine.memory app.tuple).faulty)
    {txn : Transaction} (hactive : txn.isActive = true) (rounds : List LockTable.Releases)
    {state : State (Faulty Records)} {n : Nat} {e : Error}
    (hstop : txn.StopsAt db.engine rounds state.shared n e) :
    let left := db.commit rounds txn state
    let total := txn.writes.length
    let before := state.shared.stored.stored
    let after := left.after.shared.stored.stored
    left.answer = .error (.error (.incompleteCommit txn.id n total e)) ∧
      left.txn.status = .partiallyApplied n total ∧ n < total ∧
      -- the `n` least keys that it writes hold what its writes make of the values there
      (∀ entry ∈ txn.writes.entries, txn.writes.rank entry.key < n → ∃ value,
        entry.effect app (before.value? entry.key) = .ok value ∧
        after.get? entry.key =
          value.map fun v => (Tuple.make (Stamp.committedAt left.txn.commitWts) v).bytes) ∧
      -- under any other key a read time may have been raised to the time of validation
      (∀ key, (key ∈ txn.writes.keys → n ≤ txn.writes.rank key) →
        after.get? key = before.get? key ∨
          (∃ entry ∈ txn.reads.entries, entry.key = key) ∧
            ∃ t, before.tuple? key = some t ∧ t.stamp.rts < left.txn.validationTime ∧
              after.get? key =
                some (Tuple.make ⟨t.stamp.wts, left.txn.validationTime⟩ t.value).bytes) ∧
      left.after.counters =
        { state.counters.land with partially := state.counters.partially + 1 } := by
  intro left total before after
  obtain ⟨held, ts, prepared, between, stopped, entry, hprepare, hmakes, hfail, hlt, hcommit⟩ :=
    Transaction.commit_stopped hactive hstop
  have hleft : left = _ := Database.commit_active hactive hcommit
  rw [hdb] at hprepare hmakes hfail
  have hraised := (Transaction.prepare_faulty app txn.ready { state.shared with locks := held }).1
  rw [hprepare] at hraised
  have happlied := hmakes.applied (distinct_take_sorted txn.writes n)
  rw [← install_failed hfail] at happlied
  have hafter : after = stopped.stored.stored :=
    congrArg (fun left => left.after.shared.stored.stored) hleft
  rw [← hafter] at happlied
  have hwts : left.txn.commitWts = ts := congrArg (fun left => left.txn.commitWts) hleft
  have htime : left.txn.validationTime = (txn.readyAt ts).validationTime :=
    congrArg (fun left => left.txn.validationTime) hleft
  have hcounters : left.after.counters = state.counters.finish .partiallyApplied :=
    congrArg (fun left => left.after.counters) hleft
  have hcounted : state.counters.finish .partiallyApplied =
      { state.counters.land with partially := state.counters.partially + 1 } := by
    rw [Counters.finish_eq, Counters.land_eq]
    rfl
  refine ⟨congrArg Turn.answer hleft, congrArg (fun left => left.txn.status) hleft, hlt, ?_, ?_,
    hcounters.trans hcounted⟩
  · intro entry hentry hrank
    obtain ⟨value, heffect, hget⟩ := happlied.written entry (mem_take_sorted.mpr ⟨hentry, hrank⟩)
    rw [hraised.sameVersions.value] at heffect
    exact ⟨value, heffect, hwts ▸ hget⟩
  · intro key hkey
    rw [happlied.kept key (not_mem_take_sorted hkey), htime]
    rcases hraised key with hsame | ⟨hread, t, ht, hlt, hget⟩
    · exact Or.inl hsame
    · right
      refine ⟨Transaction.read_of_raisable hread, t, ht, hlt, ?_⟩
      rw [hget, Tuple.raise_of_lt hlt]

/-- Four writes and a read, of a key that is written third. The first two are made, a removal and a
merge; then storage fails. The read time that the checks have raised is all that has happened to the
third key, and nothing has happened to the fourth. -/
theorem third_of_four_writes_fails :
    let a : Key := ⟨[97]⟩
    let b : Key := ⟨[98]⟩
    let c : Key := ⟨[99]⟩
    let d : Key := ⟨[100]⟩
    let seen := Tuple.make ⟨1, 1⟩ [49]
    let records : Records := ((KeyMap.empty.insert a (Tuple.make ⟨3, 3⟩ [51]).bytes).insert b
      (Tuple.make ⟨2, 4⟩ [50]).bytes).insert c seen.bytes
    let txn : Transaction := { Transaction.start 7 .serializable with
      reads := ⟨[⟨c, seen⟩]⟩
      writes := ⟨[⟨d, .insert, Tuple.unstamped [52]⟩, ⟨b, .update, Tuple.unstamped [53]⟩,
        ⟨c, .insert, Tuple.unstamped [54]⟩, ⟨a, .delete, Tuple.unstamped []⟩], by decide⟩ }
    -- four looks for the write time, a look and a raise for the read, two writes
    let faults : List (Option Error) := List.replicate 8 none ++ [some (.storage "lost")]
    let db := (Database.under .append).faulty
    let state : State (Faulty Records) := State.initial ⟨records, faults⟩ .serializable
    let left := db.commit [] txn state
    let after := left.after.shared.stored.stored
    txn.StopsAt db.engine [] state.shared 2 (.storage "lost") ∧
      left.answer = .error (.error (.incompleteCommit 7 2 4 (.storage "lost"))) ∧
      left.txn.status = .partiallyApplied 2 4 ∧
      after.get? a = none ∧
      after.get? b = some (Tuple.make ⟨5, 5⟩ [50, 53]).bytes ∧
      after.get? c = some (Tuple.make ⟨1, 5⟩ [49]).bytes ∧ after.get? d = none := by
  intro a b c d seen records txn faults db state left after
  let held := (LockTable.empty.lockAll txn.ready.writes.keys txn.id).2
  have hlock : LockTable.lockWaiting txn.ready.writes.keys txn.id [] state.shared.locks =
      some (held, 0) := rfl
  have hready : (txn.ready.prepare db.engine { state.shared with locks := held }).answer =
      .ok none := by decide +kernel
  have hincomplete : (txn.commit db.engine [] state.shared).answer =
      .error (.error (.incompleteCommit 7 2 4 (.storage "lost"))) := by decide +kernel
  have hstop : txn.StopsAt db.engine [] state.shared 2 (.storage "lost") :=
    Transaction.stopsAt_of_answer rfl hlock hready hincomplete
  obtain ⟨hanswer, hstatus, -⟩ :=
    stopped_commit_applies_its_least_keys MergeOperator.append rfl rfl [] hstop
  exact ⟨hstop, hanswer, hstatus, by decide +kernel, by decide +kernel, by decide +kernel,
    by decide +kernel⟩

end StampStore
