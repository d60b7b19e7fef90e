-- Read times during a commit. Between two storage calls of a commit somebody else
-- may see the store, so it matters what each single call does. The calls before the
-- writes only raise read times. A write at the write time lowers one exactly if the
-- commit has raised it past that time before, which takes a snapshot that has read
-- the key it writes and a later version of another.
import StampStore.Proofs.Failures
import StampStore.Proofs.Moments
import StampStore.Proofs.Walks
import Mathlib.Data.List.Chain

namespace StampStore

/-! ## What a single call may do -/

/-- No key that stays has a lower read time afterwards. -/
def Records.RtsKept (before after : Records) : Prop :=
  ∀ key old new, before.tuple? key = some old → after.tuple? key = some new →
    old.stamp.rts ≤ new.stamp.rts

theorem Records.rtsKept_refl (records : Records) : records.RtsKept records := by
  intro key old new hold hnew
  rw [hold] at hnew
  cases hnew
  exact le_refl _

theorem Records.RaisedTo.rtsKept {ts : Timestamp} {keys : List Key} {before after : Records}
    (h : before.RaisedTo ts keys after) : before.RtsKept after := by
  intro key old new hold hnew
  rcases h.tuple? key with hsame | ⟨-, t, ht, -, hraised⟩
  · rw [hsame, hold] at hnew
    cases hnew
    exact le_refl _
  · rw [hold] at ht
    cases ht
    rw [hraised] at hnew
    cases hnew
    simp

/-- Each of the calls so far has moved the state of the engine along `R`. -/
def Watched.Along {σ : Type} (R : σ → σ → Prop) (watched : Watched σ) : Prop :=
  (watched.seen.map (·.stored) ++ [watched.now]).IsChain R

section Along

variable {σ : Type} {R : σ → σ → Prop}

theorem Watched.along_start (R : σ → σ → Prop) (stored : σ) : (Watched.mk stored []).Along R :=
  List.isChain_singleton _

/-- One call more. -/
theorem Watched.along_next (watched : Watched σ) (after : σ) (locks : LockTable) :
    (Watched.mk after (watched.seen ++ [⟨watched.now, locks⟩])).Along R ↔
      watched.Along R ∧ R watched.now after := by
  unfold Watched.Along
  rw [List.map_append, List.append_assoc]
  exact List.isChain_append_cons_cons.trans (by simp)

/-- A watched engine whose looks move the state along `R` keeps what is said of all calls. -/
theorem Engine.walk_watched {engine : Engine σ} (owner : TxnId)
    (hlook : ∀ key shared, R shared.stored (engine.lookupRaw key shared).2.stored) :
    engine.watched.Walk owner fun before after =>
      before.stored.Along R → after.stored.Along R where
  refl _ h := h
  trans hab hbc h := hbc (hab h)
  lookupRaw key shared h :=
    (shared.stored.along_next _ shared.locks).mpr
      ⟨h, hlook key ⟨shared.stored.now, shared.locks⟩⟩
  bracket _ h := h

end Along

/-! ## The calls before the writes -/

variable {app : MergeOperator} {txn : Transaction} {records : Records} {held : LockTable}

theorem along_update (app : MergeOperator) (key : Key) (ts : Timestamp)
    (shared : Shared (Watched Records)) (h : shared.stored.Along Records.RtsKept) :
    ((Engine.memory app.tuple).watched.update key ts.encode shared).2.stored.Along
      Records.RtsKept :=
  (shared.stored.along_next _ shared.locks).mpr ⟨h,
    (raises_memory app (List.mem_singleton_self key) ⟨shared.stored.now, shared.locks⟩).rtsKept⟩

theorem walk_memory_watched (app : MergeOperator) (owner : TxnId) :
    (Engine.memory app.tuple).watched.Walk owner fun before after =>
      before.stored.Along Records.RtsKept → after.stored.Along Records.RtsKept :=
  Engine.walk_watched owner fun _ shared => shared.stored.rtsKept_refl

/-! ## The calls of the writes -/

theorem effect_delete {entry : WriteEntry} {base value : Option Bytes} (hop : entry.op = .delete)
    (h : entry.effect app base = .ok value) : value = none := by
  unfold WriteEntry.effect at h
  rw [hop] at h
  cases h
  rfl

/-- A write that does not remove its key keeps the read time there, if it is not made before it. -/
theorem rtsKept_iff_of_write {ts : Timestamp} {entry : WriteEntry} {value : Option Bytes}
    {next : Records} (heffect : entry.effect app (records.value? entry.key) = .ok value)
    (hnext : ∀ key, next.tuple? key =
      if entry.key = key then value.map (Tuple.make (Stamp.committedAt ts))
      else records.tuple? key) :
    records.RtsKept next ↔ (entry.op ≠ .delete → (records.stampAt entry.key).rts ≤ ts) := by
  constructor
  · intro h hop
    obtain ⟨v, rfl⟩ := effect_some hop heffect
    cases hold : records.tuple? entry.key with
    | none =>
      rw [Records.stampAt_of_absent hold]
      exact Timestamp.zero_le ts
    | some old =>
      have hle := h entry.key old _ hold ((hnext entry.key).trans (if_pos rfl))
      rwa [Tuple.stamp_make, ← Records.stampAt_of_tuple? hold] at hle
  · intro h key old new hold hnew
    rw [hnext] at hnew
    by_cases hkey : entry.key = key
    · subst hkey
      rw [if_pos rfl] at hnew
      obtain ⟨v, rfl, rfl⟩ := Option.map_eq_some_iff.mp hnew
      rw [Tuple.stamp_make, ← Records.stampAt_of_tuple? hold]
      apply h
      intro hop
      cases effect_delete hop heffect
    · rw [if_neg hkey, hold] at hnew
      cases hnew
      exact le_refl _

/-- The writes that are made keep all read times, if none of them is made before the read time
under its key. -/
theorem installAll_along (app : MergeOperator) (locks : LockTable) (h : records.Sound)
    (ts : Timestamp) {entries : List WriteEntry} (hdistinct : (entries.map (·.key)).Nodup)
    (done : Nat) (seen : List (Shared Records)) :
    let run := (Engine.memory app.tuple).watched.installAll ts entries done
      (Shared.since ⟨records, locks⟩ seen)
    ∃ n, ((n = entries.length ∧ run.1 = none) ∨ ∃ e, run.1 = some (done + n, e)) ∧
      (run.2.stored.Along Records.RtsKept ↔
        (Watched.mk records seen).Along Records.RtsKept ∧
          ∀ entry ∈ entries.take n, entry.op ≠ .delete →
            (records.stampAt entry.key).rts ≤ ts) := by
  induction entries generalizing records done seen with
  | nil => exact ⟨0, Or.inl ⟨rfl, rfl⟩, by simp [Engine.installAll, Shared.since]⟩
  | cons entry entries ih =>
    rw [List.map_cons, List.nodup_cons] at hdistinct
    obtain ⟨hkey, hrest⟩ := hdistinct
    unfold Engine.installAll
    rw [Engine.install_watched]
    cases heffect : entry.effect app (records.value? entry.key) with
    | error e =>
      rw [install_refused h ts heffect]
      refine ⟨0, Or.inr ⟨e, rfl⟩, ?_⟩
      refine (Watched.along_next ⟨records, seen⟩ records locks).trans ?_
      simp [records.rtsKept_refl]
    | ok value =>
      obtain ⟨next, hstep, hsound, hnext⟩ := install_done locks h ts heffect
      rw [hstep]
      obtain ⟨n, hanswer, hiff⟩ := ih hsound hrest (done + 1) (seen ++ [⟨records, locks⟩])
      refine ⟨n + 1, ?_, hiff.trans ?_⟩
      · rcases hanswer with ⟨hn, hnone⟩ | ⟨e, he⟩
        · exact Or.inl ⟨congrArg (· + 1) hn, hnone⟩
        · exact Or.inr ⟨e, he.trans (by rw [Nat.add_assoc, Nat.add_comm 1 n])⟩
      · -- the first write leaves the stamps of the other keys alone
        have hothers : ∀ other ∈ entries.take n, next.stampAt other.key =
            records.stampAt other.key := by
          intro other hother
          have hne : entry.key ≠ other.key := fun heq =>
            hkey (heq ▸ List.mem_map_of_mem (List.mem_of_mem_take hother))
          rw [Records.stampAt, Records.stamp?, hnext, if_neg hne]
          rfl
        rw [Watched.along_next ⟨records, seen⟩ next locks, rtsKept_iff_of_write heffect hnext,
          and_assoc, List.take_succ_cons, List.forall_mem_cons]
        refine and_congr_right fun _ => and_congr_right fun _ => ?_
        exact forall₂_congr fun other hother => by rw [hothers other hother]

/-! ## Writes behind a raised read time -/

/-- The write at `ts` is made before the read time that its own commit has raised under its key: a
snapshot overwrites a key that it has read, and has read a version that was written after `ts`. -/
def Transaction.FallsBack (txn : Transaction) (records : Records) (ts : Timestamp)
    (entry : WriteEntry) : Prop :=
  txn.isolation = .snapshot ∧ ts < txn.reads.maxWts ∧ entry.op ≠ .delete ∧
    records.tuple? entry.key ≠ none ∧
    ∃ read ∈ txn.reads.entries, read.key = entry.key ∧ read.tuple.stamp.rts < txn.reads.maxWts

theorem fallsBack_iff {ts : Timestamp} {entry : WriteEntry}
    (htime : records.timeAfter txn.ready.writes.keys txn.ready.commitWts = .ok ts)
    (hgood : (txn.readyAt ts).firstFault records held = none)
    (hentry : entry ∈ txn.writes.entries) :
    txn.FallsBack records ts entry ↔ entry.op ≠ .delete ∧
      ts < (((txn.readyAt ts).checked records held).stampAt entry.key).rts := by
  have hlt := rts_lt_of_timeAfter htime (List.mem_map_of_mem hentry)
  have htuple := Records.tuple?_refreshed (txn.readyAt ts).validationTime
    (txn.readyAt ts).isolation.extendsReads records (txn.readyAt ts).reads.entries entry.key
  rw [← checked_eq_of_good hgood, txn.readyAt_isolation, txn.readyAt_reads] at htuple
  cases hold : records.tuple? entry.key with
  | none =>
    have hnone : ((txn.readyAt ts).checked records held).tuple? entry.key = none := by
      rw [htuple, hold]
      simp
    rw [Records.stampAt_of_absent hnone]
    refine ⟨fun h => absurd hold h.2.2.2.1, fun h => absurd h.2 ?_⟩
    exact not_lt.mpr (Timestamp.zero_le ts)
  | some old =>
    rw [Records.stampAt_of_tuple? hold] at hlt
    rw [hold, Option.map_some] at htuple
    by_cases hraised : txn.isolation.extendsReads = true ∧ ∃ read ∈ txn.reads.entries,
        read.key = entry.key ∧ read.tuple.stamp.rts < (txn.readyAt ts).validationTime
    · rw [if_pos hraised] at htuple
      rw [Records.stampAt_of_tuple? htuple, Tuple.rts_raise, lt_max_iff]
      by_cases hlevel : txn.isolation = .snapshot
      · rw [Transaction.validationTime_of_snapshot hlevel] at hraised ⊢
        constructor
        · exact fun h => ⟨h.2.2.1, Or.inr h.2.1⟩
        · rintro ⟨hop, hback | hback⟩
          · exact absurd hback (lt_asymm hlt)
          · exact ⟨hlevel, hback, hop, by simp [hold], hraised.2⟩
      · rw [Transaction.validationTime_of_ne_snapshot hlevel]
        refine ⟨fun h => absurd h.1 hlevel, ?_⟩
        rintro ⟨-, hback | hback⟩
        · exact absurd hback (lt_asymm hlt)
        · exact absurd hback (lt_irrefl ts)
    · rw [if_neg hraised] at htuple
      rw [Records.stampAt_of_tuple? htuple]
      refine ⟨fun h => absurd ?_ hraised, fun h => absurd h.2 (lt_asymm hlt)⟩
      obtain ⟨hlevel, -, -, -, hread⟩ := h
      rw [Transaction.validationTime_of_snapshot hlevel, hlevel]
      exact ⟨rfl, hread⟩

/-! ## A whole commit -/

/-- How many of `total` writes were made by a commit with this answer. -/
def writesMade (total : Nat) : Except Failure Outcome → Nat
  | .ok (.committed _) => total
  | .error (.error (.incompleteCommit _ applied _ _)) => applied
  | _ => 0

theorem writeAll_along (app : MergeOperator) (held : LockTable) (h : records.Sound)
    (txn : Transaction) (seen : List (Shared Records)) :
    let reply := txn.writeAll (Engine.memory app.tuple).watched (Shared.since ⟨records, held⟩ seen)
    reply.2.stored.Along Records.RtsKept ↔
      (Watched.mk records seen).Along Records.RtsKept ∧
        ∀ entry ∈ txn.writes.entries.take
            (writesMade txn.writes.length (reply.1.mapError .error)),
          entry.op ≠ .delete → (records.stampAt entry.key).rts ≤ txn.commitWts := by
  obtain ⟨n, hanswer, hiff⟩ :=
    installAll_along app held h txn.commitWts txn.writes.distinct 0 seen
  unfold Transaction.writeAll
  generalize (Engine.memory app.tuple).watched.installAll txn.commitWts txn.writes.entries 0
    (Shared.since ⟨records, held⟩ seen) = run at hanswer hiff ⊢
  obtain ⟨stop, after⟩ := run
  rcases hanswer with ⟨rfl, hnone⟩ | ⟨e, hstop⟩
  · cases hnone
    exact hiff
  · cases hstop
    rw [Nat.zero_add]
    exact hiff

theorem underLocks_along (app : MergeOperator) (held : LockTable) (h : records.Sound)
    (txn : Transaction) :
    let turn := txn.ready.underLocks (Engine.memory app.tuple).watched
      (Shared.since ⟨records, held⟩ [])
    turn.after.stored.Along Records.RtsKept ↔
      ∀ entry ∈ txn.writes.sorted.entries.take
          (writesMade txn.writes.length (turn.answer.mapError .error)),
        ¬ txn.FallsBack records turn.txn.commitWts entry := by
  have hwalk := walk_memory_watched app txn.id
  obtain ⟨first, htimes, -⟩ :=
    timeAfter_through app held h txn.ready.writes.keys txn.ready.commitWts []
  have hfirst := hwalk.timeAfter txn.ready.writes.keys txn.ready.commitWts
    (Shared.since ⟨records, held⟩ []) (Watched.along_start Records.RtsKept records)
  rw [htimes, List.nil_append] at hfirst
  have hunwritten : ∀ {watched : Watched Records} {ts : Timestamp}, watched.Along Records.RtsKept →
      (watched.Along Records.RtsKept ↔
        ∀ entry ∈ txn.writes.sorted.entries.take 0, ¬ txn.FallsBack records ts entry) :=
    fun hkept => ⟨fun _ entry hentry => by simp at hentry, fun _ => hkept⟩
  unfold Transaction.underLocks Transaction.chooseWriteTime
  rw [htimes, List.nil_append]
  cases htime : records.timeAfter txn.ready.writes.keys txn.ready.commitWts with
  | error conflict => exact hunwritten hfirst
  | ok ts =>
    have hat : ({ txn.ready with commitWts := ts } : Transaction) = txn.readyAt ts := rfl
    simp only [hat]
    obtain ⟨second, hvalidate, -⟩ := validateReads_through app held h (txn.readyAt ts) first
    have hsecond := (walk_memory_watched app (txn.readyAt ts).id).validateReads
      (txn.readyAt ts).validationTime (fun _ entry _ shared => along_update app entry.key _ shared)
      (Shared.since ⟨records, held⟩ first) hfirst
    rw [hvalidate] at hsecond
    rw [hvalidate]
    cases hfault : (txn.readyAt ts).firstFault records held with
    | some conflict => exact hunwritten hsecond
    | none =>
      have hwrites := writeAll_along app held (sound_checked h (txn.readyAt ts) held)
        (txn.readyAt ts) (first ++ second)
      refine hwrites.trans ((and_iff_right hsecond).trans ?_)
      rw [txn.readyAt_writes, show txn.writes.sorted.length = txn.writes.length from
        txn.writes.sorted_perm.length_eq]
      refine forall₂_congr fun entry hentry => ?_
      have hmine := WriteBuffer.mem_sorted.mp (List.mem_of_mem_take hentry)
      have hback := not_congr (fallsBack_iff htime hfault hmine)
      rw [not_and, not_lt] at hback
      exact hback.symm

/-- The storage calls of a commit over records in memory, under any lock table and whatever others
give up while it waits: none of them lowers the read time of a key that stays, unless a write that
the commit makes falls back behind the read time that its own checks have raised. At the levels that
check reads at the write time no write does. -/
theorem calls_keep_read_times_iff_no_write_falls_back (app : MergeOperator) {txn : Transaction}
    (hactive : txn.isActive = true) {records : Records} (hsound : records.Sound)
    (locks : LockTable) (rounds : List LockTable.Releases) :
    let left := txn.commit (Engine.memory app.tuple).watched rounds
      (Shared.since ⟨records, locks⟩ [])
    left.shared.stored.Along Records.RtsKept ↔
      ∀ entry ∈ txn.writes.sorted.entries.take (writesMade txn.writes.length left.answer),
        ¬ txn.FallsBack records left.txn.commitWts entry := by
  intro left
  cases hlock : LockTable.lockWaiting txn.ready.writes.keys txn.id rounds locks with
  | none =>
    have hleft : left = ⟨.error .blocked, txn, Shared.since ⟨records, locks⟩ [], 0⟩ :=
      commit_of_blocked _ hactive hlock
    rw [hleft]
    exact ⟨fun _ entry hentry => by simp [writesMade] at hentry,
      fun _ => Watched.along_start Records.RtsKept records⟩
  | some locked =>
    obtain ⟨held, retries⟩ := locked
    have hunder := underLocks_along app held hsound txn
    rcases hrun : txn.ready.underLocks (Engine.memory app.tuple).watched
      (Shared.since ⟨records, held⟩ []) with ⟨answer, decided, after⟩
    rw [hrun] at hunder
    have hleft : left = _ := commit_of_locked _ hactive hlock hrun
    rw [hleft]
    exact hunder

/-- A snapshot has read a key at 2 and another at 4, and overwrites both at 10. Its check raises the
read time of the first to 4, and its write passes that. -/
theorem snapshot_write_passes_the_read_time_it_has_raised :
    let k : Key := ⟨[107]⟩
    let l : Key := ⟨[108]⟩
    let first := Tuple.make ⟨2, 3⟩ [49]
    let later := Tuple.make ⟨4, 9⟩ [50]
    let records : Records := (KeyMap.empty.insert k first.bytes).insert l later.bytes
    let txn : Transaction := { Transaction.start 1 .snapshot with
      reads := ⟨[⟨k, first⟩, ⟨l, later⟩]⟩
      writes := ⟨[⟨k, .insert, Tuple.unstamped [51]⟩, ⟨l, .delete, Tuple.unstamped []⟩],
        by decide⟩ }
    let left := txn.commit (Engine.memory MergeOperator.replace.tuple).watched []
      (Shared.since ⟨records, LockTable.empty⟩ [])
    txn.isActive = true ∧ records.Sound ∧ left.answer = .ok (.committed 10) ∧
      left.shared.stored.seen.map (fun moment => moment.stored.stamp? k) =
        [some ⟨2, 3⟩, some ⟨2, 3⟩, some ⟨2, 3⟩, some ⟨2, 3⟩, some ⟨2, 4⟩, some ⟨10, 10⟩] ∧
      left.shared.stored.Along Records.RtsKept := by
  intro k l first later records txn left
  have hsound : records.Sound :=
    (Records.sound_empty.insert k (t := first) (by decide)).insert l (t := later) (by decide)
  have hspec := @calls_keep_read_times_iff_no_write_falls_back MergeOperator.replace txn rfl records
    hsound LockTable.empty []
  have hlate : ¬ left.txn.commitWts < txn.reads.maxWts := by decide +kernel
  exact ⟨rfl, hsound, by decide +kernel, by decide +kernel,
    hspec.mpr fun entry _ hback => hlate hback.2.1⟩

/-- A snapshot has read one key at 1 and another at 3, and overwrites the first at 2. Its check has
raised the read time there to 3, so its write takes the key from 3 back to 2. -/
theorem snapshot_write_lowers_the_read_time_it_has_raised :
    let k : Key := ⟨[107]⟩
    let l : Key := ⟨[108]⟩
    let first := Tuple.make ⟨1, 1⟩ [49]
    let later := Tuple.make ⟨3, 3⟩ [51]
    let records : Records := (KeyMap.empty.insert k first.bytes).insert l later.bytes
    let txn : Transaction := { Transaction.start 4 .snapshot with
      reads := ⟨[⟨k, first⟩, ⟨l, later⟩]⟩
      writes := ⟨[⟨k, .insert, Tuple.unstamped [52]⟩], by decide⟩ }
    let left := txn.commit (Engine.memory MergeOperator.replace.tuple).watched []
      (Shared.since ⟨records, LockTable.empty⟩ [])
    records.Sound ∧ left.answer = .ok (.committed 2) ∧
      left.shared.stored.seen.map (fun moment => moment.stored.stamp? k) =
        [some ⟨1, 1⟩, some ⟨1, 1⟩, some ⟨1, 1⟩, some ⟨1, 3⟩] ∧
      left.shared.stored.now.stamp? k = some ⟨2, 2⟩ ∧
      ¬ left.shared.stored.Along Records.RtsKept := by
  intro k l first later records txn left
  have hsound : records.Sound :=
    (Records.sound_empty.insert k (t := first) (by decide)).insert l (t := later) (by decide)
  refine ⟨hsound, by decide +kernel, by decide +kernel, by decide +kernel, fun hkept => ?_⟩
  have hlast := List.isChain_iff_getElem.mp hkept 3 (by decide +kernel) k
    (Tuple.make ⟨1, 3⟩ [49]) (Tuple.make ⟨2, 2⟩ [52]) (by decide +kernel) (by decide +kernel)
  exact absurd hlast (by decide)

end StampStore
