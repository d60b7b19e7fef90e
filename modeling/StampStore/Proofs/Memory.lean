-- Calls and commits over records in memory. Each phase of a commit is a plain
-- function of the records: the write time is past every read time under the
-- written keys, the checks compare write times and only raise read times, and the
-- writes touch their own keys. A commit goes one of four ways.
import StampStore.Commit
import StampStore.Proofs.Buffers
import StampStore.Proofs.Versions

namespace StampStore

variable {app : MergeOperator} {records : Records} {locks : LockTable}

/-! ## Single calls -/

theorem fetchStamp_memory (h : records.Whole) (merge : MergeOperator) (key : Key) :
    (Engine.memory merge).fetchStamp key ⟨records, locks⟩ =
      (.ok (records.stamp? key), ⟨records, locks⟩) := by
  unfold Engine.fetchStamp Engine.memory Records.stamp?
  simp only
  rw [h.get?_eq]
  cases records.tuple? key with
  | none => rfl
  | some t => simp [Tuple.ofRecord_bytes, Except.map]

theorem extendRts_memory (h : records.Whole) (key : Key) (ts : Timestamp) :
    (Engine.memory app.tuple).extendRts key ts (records.stamp? key) ⟨records, locks⟩ =
      (.ok (), ⟨records.raise key ts, locks⟩) := by
  unfold Engine.extendRts Records.raise Records.stamp?
  cases ht : records.tuple? key with
  | none => rfl
  | some t =>
    simp only [Option.map_some]
    split
    · have hget : records.get? key = some t.bytes := by rw [h.get?_eq, ht]; rfl
      simp only [Engine.memory, Records.update, MergeOperator.tuple, MergeOperator.applyToTuple,
        Timestamp.decode_encode, hget, MergeOperator.refresh, MergeOperator.readTuple,
        Tuple.ofBytes?_bytes]
      rfl
    · rfl

/-! ## Reading -/

theorem readStored_memory (h : records.Sound) {merge stored : MergeOperator} (txn : Transaction)
    (key : Key) (pending : Option Bytes) :
    txn.readStored (Engine.memory stored) merge key pending ⟨records, locks⟩ =
      match records.tuple? key with
      | none =>
        ⟨match pending with
          | none => .ok none
          | some delta => (merge.apply key none delta).map some, txn, ⟨records, locks⟩⟩
      | some t =>
        match Transaction.withPending merge key t.value pending with
        | .error e => ⟨.error e, txn, ⟨records, locks⟩⟩
        | .ok value => ⟨.ok (some value), txn.noteRead key t, ⟨records, locks⟩⟩ := by
  unfold Transaction.readStored Engine.memory
  simp only
  rw [h.get?_eq]
  cases records.tuple? key with
  | none => cases pending <;> rfl
  | some t =>
    cases hvalue : Transaction.withPending merge key t.value pending with
    | error e => simp only [Option.map_some, Tuple.ofRecord_bytes, hvalue]
    | ok value => simp only [Option.map_some, Tuple.ofRecord_bytes, hvalue]

/-- A lookup changes nothing but the log of the transaction, shows what the buffered writes make
of the stored value, and notes what it saw under the stamp that is stored. -/
theorem read_memory (h : records.Sound) (merge stored : MergeOperator) (locks : LockTable)
    {txn : Transaction}
    (hactive : txn.isActive = true) (key : Key) :
    ∃ after, txn.read (Engine.memory stored) merge key ⟨records, locks⟩ =
        ⟨txn.writes.view merge key (records.value? key), after, ⟨records, locks⟩⟩ ∧
      (after = txn ∨
        ∃ t, after = txn.noteRead key t ∧ t.stamp = records.stampAt key) ∧
      (txn.asksStorage key = true → ∀ t value, records.tuple? key = some t →
        txn.writes.view merge key (records.value? key) = .ok value →
        after = txn.noteRead key t) := by
  unfold Transaction.read WriteBuffer.view Transaction.asksStorage
  simp only [hactive, if_true]
  cases hfind : txn.writes.find? key with
  | none =>
    simp only
    rw [readStored_memory h]
    cases ht : records.tuple? key with
    | none => exact ⟨txn, by simp [Records.value?, ht], Or.inl rfl, by simp⟩
    | some t =>
      refine ⟨txn.noteRead key t, by simp [Records.value?, ht, Transaction.withPending], ?_, ?_⟩
      · exact Or.inr ⟨t, rfl, (Records.stampAt_of_tuple? ht).symm⟩
      · rintro - u v hu -
        cases hu
        rfl
  | some entry =>
    have hkey := WriteBuffer.key_of_find? hfind
    cases hop : entry.op with
    | insert =>
      simp only [WriteEntry.effect, hop, Transaction.readOwn, fetchStamp_memory h.whole]
      refine ⟨_, rfl, Or.inr ⟨_, rfl, ?_⟩, by simp [WriteOp.isDefinitive]⟩
      rw [Tuple.stamp_setStamp, Records.stampAt]
    | delete =>
      simp only [WriteEntry.effect, hop]
      exact ⟨_, rfl, Or.inl rfl, by simp [WriteOp.isDefinitive]⟩
    | update =>
      simp only [WriteEntry.effect, hop, hkey]
      rw [readStored_memory h]
      cases ht : records.tuple? key with
      | none => exact ⟨txn, by simp [Records.value?, ht], Or.inl rfl, by simp⟩
      | some t =>
        simp only [Records.value?, ht, Option.map_some, Transaction.withPending]
        cases merge.apply key (some t.value) entry.tuple.value with
        | error e => exact ⟨txn, rfl, Or.inl rfl, by simp [Except.map]⟩
        | ok value =>
          refine ⟨txn.noteRead key t, rfl, ?_, ?_⟩
          · exact Or.inr ⟨t, rfl, (Records.stampAt_of_tuple? ht).symm⟩
          · rintro - u v hu -
            cases hu
            rfl

/-- A lookup that shows a value notes the stamp that is stored, unless it only shows what a delta
makes of an absent key. -/
theorem read_notes (h : records.Sound) (merge stored : MergeOperator) (locks : LockTable)
    {txn : Transaction} (hactive : txn.isActive = true) {key : Key} {value : Bytes}
    (hshown : txn.writes.view merge key (records.value? key) = .ok (some value))
    (hnoted : records.tuple? key ≠ none ∨ txn.asksStorage key = false) :
    ∃ t, (txn.read (Engine.memory stored) merge key ⟨records, locks⟩).txn = txn.noteRead key t ∧
      t.stamp = records.stampAt key := by
  cases hasks : txn.asksStorage key with
  | true =>
    obtain ⟨t, ht⟩ := Option.ne_none_iff_exists'.mp
      (hnoted.resolve_right (by simp [hasks]))
    obtain ⟨after, hread, -, hnote⟩ := read_memory h merge stored locks hactive key
    refine ⟨t, ?_, (Records.stampAt_of_tuple? ht).symm⟩
    rw [hread]
    exact hnote hasks t _ ht hshown
  | false =>
    unfold Transaction.asksStorage at hasks
    unfold WriteBuffer.view at hshown
    unfold Transaction.read
    rw [if_pos hactive]
    cases hfind : txn.writes.find? key with
    | none => simp [hfind] at hasks
    | some entry =>
      simp only [hfind] at hshown hasks ⊢
      cases hop : entry.op with
      | update => simp [hop, WriteOp.isDefinitive] at hasks
      | delete => simp [WriteEntry.effect, hop] at hshown
      | insert =>
        simp only [Transaction.readOwn, fetchStamp_memory h.whole]
        exact ⟨_, rfl, by rw [Tuple.stamp_setStamp, Records.stampAt]⟩

/-! ## The write time of a commit -/

namespace Records

/-- The least time that is not before `ts` and is after every read time under `keys`. -/
def timeAfter (records : Records) : List Key → Timestamp → Except Conflict Timestamp
  | [], ts => .ok ts
  | key :: keys, ts =>
    match (records.stampAt key).rts.next? with
    | none => .error (.exhausted key)
    | some next => records.timeAfter keys (max ts next)

theorem timeAfter_spec {keys : List Key} {ts time : Timestamp}
    (h : records.timeAfter keys ts = .ok time) :
    ts ≤ time ∧ ∀ key ∈ keys, (records.stampAt key).rts < time := by
  induction keys generalizing ts with
  | nil =>
    cases h
    exact ⟨le_refl _, by simp⟩
  | cons key keys ih =>
    unfold timeAfter at h
    split at h
    · cases h
    · rename_i next hnext
      obtain ⟨hle, hkeys⟩ := ih h
      refine ⟨le_trans (le_max_left _ _) hle, ?_⟩
      intro j hj
      rcases List.mem_cons.mp hj with rfl | hj
      · exact lt_of_lt_of_le (Timestamp.lt_of_next? hnext) (le_trans (le_max_right _ _) hle)
      · exact hkeys j hj

/-- Where all read times end before some time, there is a write time up to it. -/
theorem timeAfter_bounded {keys : List Key} {ts bound : Timestamp} (hts : ts ≤ bound)
    (h : ∀ key ∈ keys, (records.stampAt key).rts < bound) :
    ∃ time, records.timeAfter keys ts = .ok time ∧ time ≤ bound := by
  induction keys generalizing ts with
  | nil => exact ⟨ts, rfl, hts⟩
  | cons key keys ih =>
    have hlt := h key List.mem_cons_self
    obtain ⟨next, hnext⟩ := Timestamp.next?_of_lt hlt
    have hmax : max ts next ≤ bound := max_le hts (Timestamp.next?_le hnext hlt)
    unfold timeAfter
    rw [hnext]
    exact ih hmax fun j hj => h j (List.mem_cons_of_mem key hj)

end Records

theorem timeAfter_memory (h : records.Whole) (merge : MergeOperator) (keys : List Key)
    (ts : Timestamp) :
    (Engine.memory merge).timeAfter keys ts ⟨records, locks⟩ =
      (.ok (records.timeAfter keys ts), ⟨records, locks⟩) := by
  induction keys generalizing ts with
  | nil => rfl
  | cons key keys ih =>
    unfold Engine.timeAfter Records.timeAfter
    rw [fetchStamp_memory h]
    simp only [Records.stampAt]
    cases ((records.stamp? key).getD Stamp.zero).rts.next? with
    | none => rfl
    | some next => exact ih (max ts next)

/-! ## The checks of reads -/

/-- What is wrong with a read at `ts`, if anything: its key has another write time than was
read, or somebody else holds its lock. A read known to be good up to `ts` is not looked at. -/
def ReadEntry.fault? (records : Records) (locks : LockTable) (owner : TxnId) (ts : Timestamp)
    (entry : ReadEntry) : Option Conflict :=
  if ts ≤ entry.tuple.stamp.rts then none
  else
    match entry.conflictWith? (records.stamp? entry.key) with
    | some conflict => some conflict
    | none =>
      match locks.holder? entry.key with
      | none => none
      | some holder => if holder = owner then none else some (.busy entry.key)

namespace Records

/-- The records once a read has been found good at `ts`. -/
def refresh (ts : Timestamp) (extend : Bool) (records : Records) (entry : ReadEntry) : Records :=
  if extend = true ∧ entry.tuple.stamp.rts < ts then records.raise entry.key ts else records

/-- The records once all these reads have been found good at `ts`. -/
def refreshed (ts : Timestamp) (extend : Bool) (records : Records) (entries : List ReadEntry) :
    Records :=
  entries.foldl (refresh ts extend) records

theorem tuple?_refresh (ts : Timestamp) (extend : Bool) (records : Records) (entry : ReadEntry)
    (key : Key) :
    (records.refresh ts extend entry).tuple? key =
      if extend = true ∧ entry.key = key ∧ entry.tuple.stamp.rts < ts then
        (records.tuple? key).map (·.raise ts)
      else records.tuple? key := by
  unfold refresh
  by_cases hr : extend = true ∧ entry.tuple.stamp.rts < ts
  · rw [if_pos hr, tuple?_raise]
    simp only [hr.1, hr.2, true_and, and_true]
  · rw [if_neg hr, if_neg fun h => hr ⟨h.1, h.2.2⟩]

/-- Good reads raise the read times of their keys to `ts`, and change nothing else. -/
theorem tuple?_refreshed (ts : Timestamp) (extend : Bool) (records : Records)
    (entries : List ReadEntry) (key : Key) :
    (records.refreshed ts extend entries).tuple? key =
      if extend = true ∧ ∃ entry ∈ entries, entry.key = key ∧ entry.tuple.stamp.rts < ts then
        (records.tuple? key).map (·.raise ts)
      else records.tuple? key := by
  unfold refreshed
  induction entries generalizing records with
  | nil => simp
  | cons entry entries ih =>
    rw [List.foldl_cons, ih, tuple?_refresh]
    by_cases hrest : extend = true ∧ ∃ e ∈ entries, e.key = key ∧ e.tuple.stamp.rts < ts
    · obtain ⟨hext, e, he, hk⟩ := hrest
      have hcons : extend = true ∧
          ∃ e ∈ entry :: entries, e.key = key ∧ e.tuple.stamp.rts < ts :=
        ⟨hext, e, List.mem_cons_of_mem entry he, hk⟩
      rw [if_pos ⟨hext, e, he, hk⟩, if_pos hcons]
      split
      · cases records.tuple? key with
        | none => rfl
        | some t => simp
      · rfl
    · rw [if_neg hrest]
      have hcons : (extend = true ∧ ∃ e ∈ entry :: entries, e.key = key ∧ e.tuple.stamp.rts < ts) ↔
          (extend = true ∧ entry.key = key ∧ entry.tuple.stamp.rts < ts) := by
        constructor
        · rintro ⟨he, e, hmem, hk⟩
          rcases List.mem_cons.mp hmem with rfl | hmem
          · exact ⟨he, hk⟩
          · exact absurd ⟨he, e, hmem, hk⟩ hrest
        · rintro ⟨he, hk⟩
          exact ⟨he, entry, List.mem_cons_self, hk⟩
      simp only [hcons]

theorem tuple?_refreshed_or (ts : Timestamp) (extend : Bool) (records : Records)
    (entries : List ReadEntry) (key : Key) :
    (records.refreshed ts extend entries).tuple? key = records.tuple? key ∨
      (records.refreshed ts extend entries).tuple? key = (records.tuple? key).map (·.raise ts) := by
  rw [tuple?_refreshed]
  split
  · exact Or.inr rfl
  · exact Or.inl rfl

theorem Whole.refresh (h : records.Whole) (ts : Timestamp) (extend : Bool) (entry : ReadEntry) :
    (records.refresh ts extend entry).Whole := by
  unfold Records.refresh
  split
  · exact h.raise entry.key ts
  · exact h

theorem Whole.refreshed (h : records.Whole) (ts : Timestamp) (extend : Bool)
    (entries : List ReadEntry) : (records.refreshed ts extend entries).Whole := by
  unfold Records.refreshed
  induction entries generalizing records with
  | nil => exact h
  | cons entry entries ih => exact ih (h.refresh ts extend entry)

theorem Sound.refreshed (h : records.Sound) (ts : Timestamp) (extend : Bool)
    (entries : List ReadEntry) : (records.refreshed ts extend entries).Sound := by
  unfold Records.refreshed
  induction entries generalizing records with
  | nil => exact h
  | cons entry entries ih =>
    rw [List.foldl_cons]
    apply ih
    unfold refresh
    split
    · exact h.raise entry.key ts
    · exact h

theorem wts_stampAt_refreshed (ts : Timestamp) (extend : Bool) (records : Records)
    (entries : List ReadEntry) (key : Key) :
    ((records.refreshed ts extend entries).stampAt key).wts = (records.stampAt key).wts := by
  unfold stampAt stamp?
  rcases tuple?_refreshed_or ts extend records entries key with h | h
  · rw [h]
  · rw [h]
    cases records.tuple? key <;> simp

theorem value?_refreshed (ts : Timestamp) (extend : Bool) (records : Records)
    (entries : List ReadEntry) (key : Key) :
    (records.refreshed ts extend entries).value? key = records.value? key := by
  unfold value?
  rcases tuple?_refreshed_or ts extend records entries key with h | h
  · rw [h]
  · rw [h]
    cases records.tuple? key <;> simp

theorem leadsTo_refreshed (ts : Timestamp) (extend : Bool) (records : Records)
    (entries : List ReadEntry) (key : Key) :
    LeadsTo key records (records.refreshed ts extend entries) := by
  intro t ht
  rcases tuple?_refreshed_or ts extend records entries key with h | h
  · exact ⟨t, h.trans ht, t.leadsTo_refl⟩
  · exact ⟨t.raise ts, by rw [h, ht]; rfl, t.leadsTo_raise ts⟩

end Records

theorem fault?_refresh (ts time : Timestamp) (extend : Bool) (owner : TxnId) (other : ReadEntry) :
    ReadEntry.fault? (records.refresh ts extend other) locks owner time =
      ReadEntry.fault? records locks owner time := by
  funext entry
  have hwts := Records.wts_stampAt_refreshed ts extend records [other] entry.key
  unfold Records.refreshed Records.stampAt at hwts
  simp only [List.foldl_cons, List.foldl_nil] at hwts
  unfold ReadEntry.fault? ReadEntry.conflictWith?
  simp only [hwts]

theorem checkRead_memory (h : records.Whole) (owner : TxnId) (ts : Timestamp) (extend : Bool)
    (entry : ReadEntry) :
    (Engine.memory app.tuple).checkRead owner ts extend entry ⟨records, locks⟩ =
      match entry.fault? records locks owner ts with
      | some conflict => (.ok (some conflict), ⟨records, locks⟩)
      | none => (.ok none, ⟨records.refresh ts extend entry, locks⟩) := by
  unfold Engine.checkRead ReadEntry.fault? Records.refresh
  by_cases hskip : ts ≤ entry.tuple.stamp.rts
  · simp [hskip, not_lt.mpr hskip]
  · simp only [hskip, if_false, not_le.mp hskip, and_true]
    rw [fetchStamp_memory h]
    cases hc : entry.conflictWith? (records.stamp? entry.key) with
    | some conflict => simp only [hc]
    | none =>
      have hclose : ∀ held : LockTable,
          Engine.checkLocked.close (Engine.memory app.tuple) ts extend entry
            (records.stamp? entry.key) ⟨records, held⟩ =
          (.ok none, ⟨if extend = true then records.raise entry.key ts else records, held⟩) := by
        intro held
        unfold Engine.checkLocked.close
        split
        · rw [extendRts_memory h]
        · rfl
      simp only
      cases hheld : locks.holder? entry.key with
      | none =>
        rw [LockTable.tryAcquire_free hheld]
        simp only [Engine.checkLocked, if_true, fetchStamp_memory h, hc, hclose,
          LockTable.release_after_acquire hheld]
      | some holder =>
        by_cases hown : holder = owner
        · subst hown
          rw [LockTable.tryAcquire_own hheld]
          simp [Engine.checkLocked, hc, hclose]
        · rw [LockTable.tryAcquire_taken hheld hown]
          simp [hc, hown]

/-- The checks stop at the first fault, measured against the records before all checks, and the
reads before it are refreshed. -/
theorem checkReads_memory (app : MergeOperator) (locks : LockTable) (h : records.Whole)
    (owner : TxnId) (ts : Timestamp) (extend : Bool) (entries : List ReadEntry) :
    (Engine.memory app.tuple).checkReads owner ts extend entries ⟨records, locks⟩ =
      (.ok (entries.findSome? (ReadEntry.fault? records locks owner ts)),
        ⟨records.refreshed ts extend
          (entries.takeWhile fun entry => (entry.fault? records locks owner ts).isNone),
          locks⟩) := by
  induction entries generalizing records with
  | nil => rfl
  | cons entry entries ih =>
    unfold Engine.checkReads
    rw [checkRead_memory h]
    cases hf : entry.fault? records locks owner ts with
    | some conflict => simp [hf, Records.refreshed]
    | none =>
      simp only
      rw [ih (h.refresh ts extend entry), fault?_refresh]
      simp [hf, Records.refreshed]

/-- Reads without a fault are good: their keys have the write time that was read, unless they
need not be looked at. -/
theorem good_of_fault?_eq_none {owner : TxnId} {ts : Timestamp} {entry : ReadEntry}
    (h : entry.fault? records locks owner ts = none) :
    ts ≤ entry.tuple.stamp.rts ∨ entry.tuple.stamp.wts = (records.stampAt entry.key).wts := by
  unfold ReadEntry.fault? at h
  split at h
  · exact Or.inl ‹_›
  · right
    cases hc : entry.conflictWith? (records.stamp? entry.key) with
    | some conflict => simp [hc] at h
    | none =>
      unfold ReadEntry.conflictWith? at hc
      by_contra hne
      exact absurd hc (by simpa [Records.stampAt] using hne)

/-- A good read has no fault, unless somebody else holds the lock of its key. -/
theorem fault?_eq_none_of_good {owner : TxnId} {ts : Timestamp} {entry : ReadEntry}
    (hgood : ts ≤ entry.tuple.stamp.rts ∨
      entry.tuple.stamp.wts = (records.stampAt entry.key).wts)
    (hfree : locks.holder? entry.key = none ∨ locks.holder? entry.key = some owner) :
    entry.fault? records locks owner ts = none := by
  unfold ReadEntry.fault?
  rcases hgood with hcovered | hsame
  · rw [if_pos hcovered]
  · unfold Records.stampAt at hsame
    unfold ReadEntry.conflictWith?
    rcases hfree with hfree | hfree <;> simp [hsame, hfree]

/-! ## The writes of a commit -/

/-- `entries` have been written over `before` at `ts`. -/
structure Records.Installed (app : MergeOperator) (ts : Timestamp) (before : Records)
    (entries : List WriteEntry) (after : Records) : Prop where
  sound : after.Sound
  written : ∀ entry ∈ entries, ∃ value,
    entry.effect app (before.value? entry.key) = .ok value ∧
      after.tuple? entry.key = value.map (Tuple.make (Stamp.committedAt ts))
  kept : ∀ key, key ∉ entries.map (·.key) → after.tuple? key = before.tuple? key

theorem Timestamp.decode_tuple (t : Tuple) : Timestamp.decode t.bytes = none := by
  have := t.size_le
  unfold Timestamp.decode
  rw [if_neg]
  unfold Timestamp.size
  unfold Stamp.size at this
  omega

theorem applyToTuple_tuple (h : records.Sound) (key : Key) (t : Tuple) :
    app.applyToTuple key (records.get? key) t.bytes =
      MergeOperator.restamp t.stamp (app.apply key (records.value? key) t.value) := by
  unfold MergeOperator.applyToTuple MergeOperator.readTuple Records.value?
  rw [Timestamp.decode_tuple, Tuple.ofBytes?_bytes, h.get?_eq]
  simp only
  cases records.tuple? key with
  | none => rfl
  | some u => simp [MergeOperator.readBase, MergeOperator.readTuple, Tuple.ofBytes?_bytes]

theorem install_refused (h : records.Sound) (ts : Timestamp) {entry : WriteEntry} {e : Error}
    (heffect : entry.effect app (records.value? entry.key) = .error e) :
    (Engine.memory app.tuple).install ts entry ⟨records, locks⟩ =
      (.error e, ⟨records, locks⟩) := by
  unfold WriteEntry.effect at heffect
  unfold Engine.install Engine.memory
  cases hop : entry.op with
  | insert => simp [hop] at heffect
  | delete => simp [hop] at heffect
  | update =>
    simp only [Records.update, MergeOperator.tuple, applyToTuple_tuple h, Tuple.stamp_setStamp,
      Tuple.value_setStamp]
    simp only [hop] at heffect
    cases happ : app.apply entry.key (records.value? entry.key) entry.tuple.value with
    | error e' =>
      rw [happ] at heffect
      cases heffect
      rfl
    | ok value =>
      rw [happ] at heffect
      cases heffect

/-- A write that can be merged leaves what it makes of the value, under the commit time. -/
theorem install_done (locks : LockTable) (h : records.Sound) (ts : Timestamp) {entry : WriteEntry}
    {value : Option Bytes} (heffect : entry.effect app (records.value? entry.key) = .ok value) :
    ∃ next, (Engine.memory app.tuple).install ts entry ⟨records, locks⟩ =
        (.ok (), ⟨next, locks⟩) ∧ next.Sound ∧
      ∀ key, next.tuple? key =
        if entry.key = key then value.map (Tuple.make (Stamp.committedAt ts))
        else records.tuple? key := by
  have hput : ∀ v, Records.Sound (records.insert entry.key
      (Tuple.make (Stamp.committedAt ts) v).bytes) := fun v =>
    h.insert entry.key (Tuple.wellFormed_make_committedAt ts v)
  unfold WriteEntry.effect at heffect
  unfold Engine.install Engine.memory
  cases hop : entry.op with
  | insert =>
    simp only [hop] at heffect
    cases heffect
    exact ⟨_, rfl, hput _, fun key => records.tuple?_insert entry.key key _⟩
  | delete =>
    simp only [hop] at heffect
    cases heffect
    exact ⟨_, rfl, h.erase entry.key, records.tuple?_erase entry.key⟩
  | update =>
    simp only [Records.update, MergeOperator.tuple, applyToTuple_tuple h, Tuple.stamp_setStamp,
      Tuple.value_setStamp]
    simp only [hop] at heffect
    cases happ : app.apply entry.key (records.value? entry.key) entry.tuple.value with
    | error e =>
      rw [happ] at heffect
      cases heffect
    | ok merged =>
      rw [happ] at heffect
      cases heffect
      exact ⟨_, rfl, hput merged, fun key => records.tuple?_insert entry.key key _⟩

theorem installed_nil (h : records.Sound) (ts : Timestamp) :
    records.Installed app ts [] records :=
  ⟨h, by simp, fun _ _ => rfl⟩

/-- One more write in front of others to other keys. -/
theorem Records.Installed.cons {ts : Timestamp} {entry : WriteEntry} {entries : List WriteEntry}
    {value : Option Bytes} {next after : Records}
    (heffect : entry.effect app (records.value? entry.key) = .ok value)
    (hnext : ∀ key, next.tuple? key =
      if entry.key = key then value.map (Tuple.make (Stamp.committedAt ts))
      else records.tuple? key)
    (hkey : entry.key ∉ entries.map (·.key))
    (h : next.Installed app ts entries after) :
    records.Installed app ts (entry :: entries) after where
  sound := h.sound
  written := by
    intro e he
    rcases List.mem_cons.mp he with rfl | he
    · exact ⟨value, heffect, by rw [h.kept _ hkey, hnext, if_pos rfl]⟩
    · obtain ⟨v, hv, ht⟩ := h.written e he
      have hne : entry.key ≠ e.key := fun heq => hkey (heq ▸ List.mem_map_of_mem he)
      refine ⟨v, ?_, ht⟩
      rw [← hv, Records.value?, Records.value?, hnext, if_neg hne]
  kept := by
    intro key hnot
    rw [List.map_cons, List.mem_cons, not_or] at hnot
    rw [h.kept key hnot.2, hnext, if_neg (Ne.symm hnot.1)]

/-- The writes are made in order, up to the first that cannot be merged. -/
theorem installAll_memory (app : MergeOperator) (locks : LockTable) (h : records.Sound)
    (ts : Timestamp) {entries : List WriteEntry} (hdistinct : (entries.map (·.key)).Nodup)
    (done : Nat) :
    ∃ n after, records.Installed app ts (entries.take n) after ∧
      ((n = entries.length ∧
          (Engine.memory app.tuple).installAll ts entries done ⟨records, locks⟩ =
            (none, ⟨after, locks⟩)) ∨
        ∃ entry e, entries[n]? = some entry ∧
          entry.effect app (records.value? entry.key) = .error e ∧
          (Engine.memory app.tuple).installAll ts entries done ⟨records, locks⟩ =
            (some (done + n, e), ⟨after, locks⟩)) := by
  induction entries generalizing records done with
  | nil => exact ⟨0, records, installed_nil h ts, Or.inl ⟨rfl, rfl⟩⟩
  | cons entry entries ih =>
    rw [List.map_cons, List.nodup_cons] at hdistinct
    obtain ⟨hkey, hrest⟩ := hdistinct
    unfold Engine.installAll
    cases heffect : entry.effect app (records.value? entry.key) with
    | error e =>
      refine ⟨0, records, installed_nil h ts, Or.inr ⟨entry, e, rfl, heffect, ?_⟩⟩
      rw [install_refused h ts heffect]
      rfl
    | ok value =>
      obtain ⟨next, hstep, hsound, hnext⟩ := install_done locks h ts heffect
      obtain ⟨n, after, hinst, hcase⟩ := ih hsound hrest (done + 1)
      have hkey' : entry.key ∉ (entries.take n).map (·.key) := by
        rw [List.map_take]
        exact fun hmem => hkey (List.mem_of_mem_take hmem)
      rw [hstep]
      refine ⟨n + 1, after, hinst.cons heffect hnext hkey', ?_⟩
      rcases hcase with ⟨hn, hrun⟩ | ⟨other, e, hother, heff, hrun⟩
      · exact Or.inl ⟨by simp [hn], hrun⟩
      · right
        refine ⟨other, e, by simpa using hother, ?_, ?_⟩
        · have hne : entry.key ≠ other.key := by
            intro heq
            rw [heq] at hkey
            exact hkey (List.mem_map_of_mem (List.mem_of_getElem? hother))
          rw [← heff, Records.value?, Records.value?, hnext, if_neg hne]
        · simp only
          rw [hrun, Nat.add_assoc, Nat.add_comm 1 n]

end StampStore
