-- Operators that never refuse. A named operator accepts values and deltas of one
-- kind, and on those it always answers, with a value of the same kind. So a
-- transaction that removes nothing has a buffer that can always be merged.
import StampStore.Proofs.Buffers

namespace StampStore

/-! ## Closed operators -/

/-- What the operator accepts is good, and on good values it answers with good values. -/
structure MergeOperator.Closed (merge : MergeOperator) (good : Bytes → Prop) : Prop where
  accepts : ∀ key value, merge.validate key value = .ok () → good value
  applies : ∀ key base delta, (∀ value, base = some value → good value) → good delta →
    ∃ value, merge.apply key base delta = .ok value ∧ good value
  combines : ∀ key older newer, good older → good newer →
    ∃ delta, merge.combine key older newer = .ok delta ∧ good delta

namespace Counter

theorem read_of_length {bs : Bytes} (h : bs.length = size) (key : Key) (part : CounterPart) :
    ∃ n, read key part bs = .ok n := by
  unfold read decode
  rw [if_pos h]
  exact ⟨_, rfl⟩

theorem length_of_read {key : Key} {part : CounterPart} {bs : Bytes} {n : UInt64}
    (h : read key part bs = .ok n) : bs.length = size := by
  unfold read decode at h
  by_cases hlen : bs.length = size
  · exact hlen
  · rw [if_neg hlen] at h
    cases h

theorem add_closed (key : Key) (base : Option Bytes) (delta : Bytes)
    (hbase : ∀ value, base = some value → value.length = size) (hdelta : delta.length = size) :
    ∃ value, add key base delta = .ok value ∧ value.length = size := by
  obtain ⟨d, hd⟩ := read_of_length hdelta key .delta
  unfold add
  cases base with
  | none =>
    simp only [hd]
    exact ⟨_, rfl, length_encode d⟩
  | some value =>
    obtain ⟨n, hn⟩ := read_of_length (hbase value rfl) key .value
    simp only [hn, hd]
    exact ⟨_, rfl, length_encode (n + d)⟩

end Counter

namespace MergeOperator

theorem closed_replace : replace.Closed fun _ => True :=
  ⟨fun _ _ _ => trivial, fun _ _ delta _ _ => ⟨delta, rfl, trivial⟩,
    fun _ _ newer _ _ => ⟨newer, rfl, trivial⟩⟩

theorem closed_append : append.Closed fun _ => True :=
  ⟨fun _ _ _ => trivial, fun _ base delta _ _ => ⟨base.getD [] ++ delta, rfl, trivial⟩,
    fun _ older newer _ _ => ⟨older ++ newer, rfl, trivial⟩⟩

theorem closed_counter : counter.Closed fun value => value.length = Counter.size where
  accepts key value h := by
    unfold counter at h
    simp only at h
    cases hread : Counter.read key .operand value with
    | error e =>
      rw [hread] at h
      cases h
    | ok n => exact Counter.length_of_read hread
  applies := Counter.add_closed
  combines key older newer holder hnewer :=
    Counter.add_closed key (some older) newer
      (fun value hvalue => by rwa [Option.some.inj hvalue] at holder) hnewer

/-- The operators that have a name. -/
theorem ofName?_cases {name : String} {merge : MergeOperator} (h : ofName? name = some merge) :
    merge = replace ∨ merge = append ∨ merge = counter := by
  unfold ofName? at h
  split at h
  · cases h
    exact Or.inl rfl
  · split at h
    · cases h
      exact Or.inr (Or.inl rfl)
    · split at h
      · cases h
        exact Or.inr (Or.inr rfl)
      · cases h

theorem closed_ofName? {name : String} {merge : MergeOperator} (h : ofName? name = some merge) :
    ∃ good, merge.Closed good := by
  rcases ofName?_cases h with rfl | rfl | rfl
  · exact ⟨_, closed_replace⟩
  · exact ⟨_, closed_append⟩
  · exact ⟨_, closed_counter⟩

end MergeOperator

/-! ## Buffers that can be merged -/

variable {merge : MergeOperator} {good : Bytes → Prop}

/-- Every entry is a good value or a good delta. -/
def WriteBuffer.Good (good : Bytes → Prop) (buffer : WriteBuffer) : Prop :=
  ∀ entry ∈ buffer.entries, entry.op ≠ .delete ∧ good entry.tuple.value

theorem WriteBuffer.good_empty (good : Bytes → Prop) : WriteBuffer.empty.Good good :=
  fun _ h => absurd h List.not_mem_nil

/-- Every entry that does not remove its key is a good value or a good delta. -/
def WriteBuffer.Mergeable (good : Bytes → Prop) (buffer : WriteBuffer) : Prop :=
  ∀ entry ∈ buffer.entries, entry.op ≠ .delete → good entry.tuple.value

theorem WriteBuffer.Good.mergeable {buffer : WriteBuffer} (h : buffer.Good good) :
    buffer.Mergeable good := fun entry hentry _ => (h entry hentry).2

theorem WriteBuffer.mergeable_empty (good : Bytes → Prop) : WriteBuffer.empty.Mergeable good :=
  (good_empty good).mergeable

/-- A good entry makes a good value of every good value, or removes it. -/
theorem effect_of_mergeable (hclosed : merge.Closed good) {entry : WriteEntry}
    (hentry : entry.op ≠ .delete → good entry.tuple.value) {base : Option Bytes}
    (hbase : ∀ value, base = some value → good value) :
    ∃ value, entry.effect merge base = .ok value ∧ ∀ v, value = some v → good v := by
  unfold WriteEntry.effect
  cases hkind : entry.op with
  | delete => exact ⟨none, rfl, fun v hv => by cases hv⟩
  | insert =>
    refine ⟨_, rfl, fun v hv => ?_⟩
    cases hv
    exact hentry (by simp [hkind])
  | update =>
    obtain ⟨value, happ, hgood⟩ :=
      hclosed.applies entry.key base _ hbase (hentry (by simp [hkind]))
    simp only [happ]
    refine ⟨some value, rfl, fun v hv => ?_⟩
    cases hv
    exact hgood

/-- A mergeable buffer shows a good value, or nothing, over every good value. -/
theorem view_of_mergeable (hclosed : merge.Closed good) {buffer : WriteBuffer}
    (h : buffer.Mergeable good) (key : Key) {base : Option Bytes}
    (hbase : ∀ value, base = some value → good value) :
    ∃ shown, buffer.view merge key base = .ok shown ∧ ∀ value, shown = some value → good value := by
  unfold WriteBuffer.view
  cases hfind : buffer.find? key with
  | none => exact ⟨base, rfl, hbase⟩
  | some entry =>
    exact effect_of_mergeable hclosed (h entry (List.mem_of_find?_eq_some hfind)) hbase

theorem mergeable_write (hclosed : merge.Closed good) {txn after : Transaction} {key : Key}
    {message : Message} (h : txn.write merge key message = .ok after)
    (hgood : txn.writes.Mergeable good) : after.writes.Mergeable good := by
  have hcheck := (write_cases h).1
  have hpayload : message ≠ .delete → good message.payload := by
    intro hkeep
    cases message with
    | insert value => exact hclosed.accepts key value hcheck
    | update delta => exact hclosed.accepts key delta hcheck
    | delete => exact absurd rfl hkeep
  refine forall_write (Q := fun op value => op ≠ .delete → good value) h hgood ?_ ?_
  · intro hop
    apply hpayload
    rintro rfl
    exact hop rfl
  · intro entry hentry op tuple _ hfold hop
    cases message with
    | insert value =>
      cases hfold
      rw [Tuple.value_unstamped]
      exact hpayload (by simp)
    | delete =>
      cases hfold
      exact absurd rfl hop
    | update delta =>
      have hdelta : good delta := hpayload (by simp)
      unfold Transaction.foldMessage Transaction.foldDelta at hfold
      simp only at hfold
      cases hkind : entry.op with
      | delete =>
        simp only [hkind] at hfold
        cases hfold
      | insert =>
        have hold : good entry.tuple.value := hgood entry hentry (by simp [hkind])
        obtain ⟨value, happ, hvalue⟩ := hclosed.applies entry.key (some entry.tuple.value) delta
          (fun v hv => by rwa [← Option.some.inj hv]) hdelta
        simp only [hkind, happ] at hfold
        cases hfold
        rwa [Tuple.value_setValue]
      | update =>
        have hold : good entry.tuple.value := hgood entry hentry (by simp [hkind])
        obtain ⟨value, hcomb, hvalue⟩ := hclosed.combines entry.key _ delta hold hdelta
        simp only [hkind, hcomb] at hfold
        cases hfold
        rwa [Tuple.value_setValue]

/-- A good entry takes every message that the operator accepts, unless it removes its key and the
message is a delta. -/
theorem refusal_of_fold (hclosed : merge.Closed good) {txn : Transaction} {entry : WriteEntry}
    (hentry : entry.op ≠ .delete → good entry.tuple.value) {message : Message} {failure : Failure}
    (hcheck : Transaction.checkPayload merge entry.key message = .ok ())
    (h : txn.foldMessage merge entry message = .error failure) :
    ∃ delta, message = .update delta ∧ entry.op = .delete ∧
      failure = .misuse (.updateAfterDelete entry.key txn.id) := by
  cases message with
  | insert value => cases h
  | delete => cases h
  | update delta =>
    have hdelta : good delta := hclosed.accepts entry.key delta hcheck
    unfold Transaction.foldMessage Transaction.foldDelta at h
    simp only at h
    cases hop : entry.op with
    | delete =>
      simp only [hop] at h
      cases h
      exact ⟨delta, rfl, rfl, rfl⟩
    | insert =>
      obtain ⟨value, happ, -⟩ := hclosed.applies entry.key (some entry.tuple.value) delta
        (fun v hv => Option.some.inj hv ▸ hentry (by simp [hop])) hdelta
      simp only [hop, happ] at h
      cases h
    | update =>
      obtain ⟨value, hcomb, -⟩ :=
        hclosed.combines entry.key _ delta (hentry (by simp [hop])) hdelta
      simp only [hop, hcomb] at h
      cases h

/-- A mergeable buffer refuses a write for what it carries, or as a delta for a key that the
transaction has removed. -/
theorem refusal_of_mergeable (hclosed : merge.Closed good) {txn : Transaction} {key : Key}
    {message : Message} {failure : Failure} (hactive : txn.isActive = true)
    (hgood : txn.writes.Mergeable good) (h : txn.write merge key message = .error failure) :
    (∃ e, Transaction.checkPayload merge key message = .error e ∧ failure = .error e) ∨
      ∃ delta entry, message = .update delta ∧ txn.writes.find? key = some entry ∧
        entry.op = .delete ∧ failure = .misuse (.updateAfterDelete key txn.id) := by
  unfold Transaction.write at h
  rw [if_pos hactive] at h
  cases hcheck : Transaction.checkPayload merge key message with
  | error e =>
    rw [hcheck] at h
    cases h
    exact Or.inl ⟨e, rfl, rfl⟩
  | ok u =>
    right
    rw [hcheck] at h
    unfold Transaction.bufferMessage at h
    cases hfind : txn.writes.find? key with
    | none =>
      simp only [hfind, WriteBuffer.insert, dif_pos] at h
      cases h
    | some entry =>
      obtain rfl := WriteBuffer.key_of_find? hfind
      cases hfold : txn.foldMessage merge entry message with
      | ok folded =>
        simp only [hfind, hfold] at h
        cases h
      | error refusal =>
        simp only [hfind, hfold] at h
        cases h
        obtain ⟨delta, rfl, hop, rfl⟩ := refusal_of_fold hclosed
          (hgood entry (List.mem_of_find?_eq_some hfind)) hcheck hfold
        exact ⟨delta, entry, rfl, rfl, hop, rfl⟩

theorem good_write (hclosed : merge.Closed good) {txn after : Transaction} {key : Key}
    {message : Message} (h : txn.write merge key message = .ok after) (hkeep : message ≠ .delete)
    (hgood : txn.writes.Good good) : after.writes.Good good := by
  intro entry hentry
  have hop := write_keeps h hkeep (fun entry hentry => (hgood entry hentry).1) entry hentry
  exact ⟨hop, mergeable_write hclosed h hgood.mergeable entry hentry hop⟩

end StampStore
