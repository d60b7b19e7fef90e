-- Buffered writes: what they make of the value under their key, and what a new
-- write leaves of them. A buffer only gains keys, and each entry is a new write or
-- an old entry that a new write was folded into. A lookup leaves the buffer alone.
import StampStore.Transaction

namespace StampStore

/-! ## The effect of a buffer -/

/-- What a buffered write makes of the value under its key. -/
def WriteEntry.effect (merge : MergeOperator) (entry : WriteEntry) (base : Option Bytes) :
    Except Error (Option Bytes) :=
  match entry.op with
  | .insert => .ok (some entry.tuple.value)
  | .update => (merge.apply entry.key base entry.tuple.value).map some
  | .delete => .ok none

/-- What a key holds for somebody who has buffered writes, over what is stored. -/
def WriteBuffer.view (merge : MergeOperator) (buffer : WriteBuffer) (key : Key)
    (base : Option Bytes) : Except Error (Option Bytes) :=
  match buffer.find? key with
  | none => .ok base
  | some entry => entry.effect merge base

/-- Whether a lookup of `key` goes to storage: the transaction has buffered neither a full value
for it nor its removal. -/
def Transaction.asksStorage (txn : Transaction) (key : Key) : Bool :=
  match txn.writes.find? key with
  | none => true
  | some entry => !entry.op.isDefinitive

theorem WriteBuffer.key_of_find? {buffer : WriteBuffer} {key : Key} {entry : WriteEntry}
    (h : buffer.find? key = some entry) : entry.key = key := by
  have := List.find?_some h
  simpa using this

theorem WriteBuffer.mem_keys_of_find? {buffer : WriteBuffer} {key : Key} {entry : WriteEntry}
    (h : buffer.find? key = some entry) : key ∈ buffer.keys := by
  rw [← key_of_find? h]
  exact List.mem_map_of_mem (List.mem_of_find?_eq_some h)

theorem mem_keys_of_hidden {txn : Transaction} {key : Key} (h : txn.asksStorage key = false) :
    key ∈ txn.writes.keys := by
  unfold Transaction.asksStorage at h
  cases hfind : txn.writes.find? key with
  | none =>
    rw [hfind] at h
    cases h
  | some entry => exact WriteBuffer.mem_keys_of_find? hfind

/-- A buffered value or removal hides what is stored. -/
theorem view_of_hidden {txn : Transaction} {key : Key} (h : txn.asksStorage key = false)
    (merge : MergeOperator) (base base' : Option Bytes) :
    txn.writes.view merge key base = txn.writes.view merge key base' := by
  unfold Transaction.asksStorage at h
  unfold WriteBuffer.view
  cases hfind : txn.writes.find? key with
  | none =>
    rw [hfind] at h
    cases h
  | some entry =>
    rw [hfind] at h
    unfold WriteEntry.effect
    cases hop : entry.op with
    | insert => simp only [hop]
    | delete => simp only [hop]
    | update =>
      simp only [hop] at h
      cases h

theorem effect_some {merge : MergeOperator} {entry : WriteEntry} {base value : Option Bytes}
    (hop : entry.op ≠ .delete) (h : entry.effect merge base = .ok value) : ∃ v, value = some v := by
  unfold WriteEntry.effect at h
  cases hkind : entry.op with
  | delete => exact absurd hkind hop
  | insert =>
    rw [hkind] at h
    cases h
    exact ⟨_, rfl⟩
  | update =>
    rw [hkind] at h
    cases happ : merge.apply entry.key base entry.tuple.value with
    | error e =>
      simp only [happ] at h
      cases h
    | ok v =>
      simp only [happ] at h
      cases h
      exact ⟨v, rfl⟩

/-! ## Sorted buffers -/

namespace WriteBuffer

variable {buffer : WriteBuffer}

theorem mem_sorted {entry : WriteEntry} :
    entry ∈ buffer.sorted.entries ↔ entry ∈ buffer.entries := buffer.sorted_perm.mem_iff

theorem mem_keys_sorted {key : Key} : key ∈ buffer.sorted.keys ↔ key ∈ buffer.keys :=
  (buffer.sorted_perm.map (·.key)).mem_iff

theorem isEmpty_of_mem_keys {key : Key} (h : key ∈ buffer.keys) : buffer.isEmpty = false := by
  obtain ⟨entry, hentry, -⟩ := List.mem_map.mp h
  exact List.isEmpty_eq_false_iff_exists_mem.mpr ⟨entry, hentry⟩

theorem isEmpty_sorted (buffer : WriteBuffer) : buffer.sorted.isEmpty = buffer.isEmpty :=
  buffer.sorted_perm.isEmpty_eq

end WriteBuffer

/-! ## A lookup -/

section Lookup

variable {σ : Type}

/-- What is shared is as it was, or as one call has left it that looks `key` up. -/
def Engine.LookedUp (engine : Engine σ) (key : Key) (before after : Shared σ) : Prop :=
  after = before ∨ after = (engine.lookup key before).2 ∨ after = (engine.fetchStamp key before).2

/-- The ways a lookup can go. Only one that has an answer notes what it saw. -/
inductive Transaction.Looks (engine : Engine σ) (txn : Transaction) (key : Key)
    (before : Shared σ) : Turn (Shared σ) (Except Error (Option Bytes)) → Prop where
  | silent {answer : Except Error (Option Bytes)} {after : Shared σ}
      (hafter : engine.LookedUp key before after) : Looks engine txn key before ⟨answer, txn, after⟩
  | noted {value : Option Bytes} {after : Shared σ} (tuple : Tuple)
      (hafter : engine.LookedUp key before after) :
      Looks engine txn key before ⟨.ok value, txn.noteRead key tuple, after⟩

theorem looks_own (engine : Engine σ) (txn : Transaction) (key : Key) (own : Tuple)
    (shared : Shared σ) :
    txn.Looks engine key shared (txn.readOwn engine key own shared) := by
  unfold Transaction.readOwn
  rcases hcall : engine.fetchStamp key shared with ⟨answer, after⟩
  have hafter : engine.LookedUp key shared after :=
    Or.inr (Or.inr (congrArg Prod.snd hcall).symm)
  cases answer with
  | error e => exact .silent hafter
  | ok stamp => exact .noted _ hafter

theorem looks_stored (engine : Engine σ) (merge : MergeOperator) (txn : Transaction) (key : Key)
    (pending : Option Bytes) (shared : Shared σ) :
    txn.Looks engine key shared (txn.readStored engine merge key pending shared) := by
  unfold Transaction.readStored
  rcases hcall : engine.lookup key shared with ⟨answer, after⟩
  have hafter : engine.LookedUp key shared after :=
    Or.inr (Or.inl (congrArg Prod.snd hcall).symm)
  rcases answer with e | _ | record
  · exact .silent hafter
  · cases pending <;> exact .silent hafter
  · simp only
    split
    · exact .silent hafter
    · split
      · exact .silent hafter
      · exact .noted _ hafter

/-- What a lookup can do, over any engine. -/
theorem looks_read (engine : Engine σ) (merge : MergeOperator) (txn : Transaction) (key : Key)
    (shared : Shared σ) : txn.Looks engine key shared (txn.read engine merge key shared) := by
  unfold Transaction.read
  split
  · split
    · exact looks_stored engine merge txn key none shared
    · split
      · exact looks_own engine txn key _ shared
      · exact looks_stored engine merge txn key _ shared
      · exact .silent (Or.inl rfl)
  · exact .silent (Or.inl rfl)

end Lookup

/-! ## A new write -/

section NewWrite

variable {txn after : Transaction} {merge : MergeOperator} {key : Key} {message : Message}

/-- A write that is accepted changes the buffer only: it adds an entry, or folds into one. -/
theorem write_cases (h : txn.write merge key message = .ok after) :
    Transaction.checkPayload merge key message = .ok () ∧
      ∃ writes, after = { txn with writes } ∧
        ((∃ hnew, writes =
            txn.writes.push ⟨key, message.op, Tuple.unstamped message.payload⟩ hnew) ∨
          ∃ entry op tuple, txn.writes.find? key = some entry ∧
            txn.foldMessage merge entry message = .ok (op, tuple) ∧
            writes = txn.writes.set key op tuple) := by
  unfold Transaction.write Transaction.bufferMessage at h
  split at h
  · cases hcheck : Transaction.checkPayload merge key message with
    | error e =>
      rw [hcheck] at h
      cases h
    | ok u =>
      rw [hcheck] at h
      refine ⟨rfl, ?_⟩
      by_cases hfind : txn.writes.find? key = none
      · simp only [hfind, WriteBuffer.insert, dif_pos] at h
        cases h
        exact ⟨_, rfl, Or.inl ⟨hfind, rfl⟩⟩
      · obtain ⟨entry, hentry⟩ := Option.ne_none_iff_exists'.mp hfind
        cases hfold : txn.foldMessage merge entry message with
        | error failure =>
          simp only [hentry, hfold] at h
          cases h
        | ok folded =>
          simp only [hentry, hfold] at h
          cases h
          exact ⟨_, rfl, Or.inr ⟨entry, folded.1, folded.2, hentry, hfold, rfl⟩⟩
  · cases h

/-- A buffer keeps its keys, and gains the key of a write that is accepted. -/
theorem write_keys (h : txn.write merge key message = .ok after) :
    ∃ writes, after = { txn with writes } ∧
      ∀ k, k ∈ writes.keys ↔ k ∈ txn.writes.keys ∨ k = key := by
  obtain ⟨-, writes, rfl, ⟨hnew, rfl⟩ | ⟨entry, op, tuple, hfind, -, rfl⟩⟩ := write_cases h
  · refine ⟨_, rfl, ?_⟩
    intro k
    simp
  · refine ⟨_, rfl, ?_⟩
    intro k
    rw [WriteBuffer.keys_set]
    constructor
    · exact Or.inl
    · rintro (hk | rfl)
      · exact hk
      · exact WriteBuffer.mem_keys_of_find? hfind

/-- What holds of the new write and of every entry it is folded into holds of the whole buffer
afterwards. -/
theorem forall_write (h : txn.write merge key message = .ok after)
    {Q : WriteOp → Bytes → Prop} (hold : ∀ entry ∈ txn.writes.entries, Q entry.op entry.tuple.value)
    (hnew : Q message.op message.payload)
    (hfold : ∀ entry ∈ txn.writes.entries, ∀ op tuple, entry.key = key →
      txn.foldMessage merge entry message = .ok (op, tuple) → Q op tuple.value) :
    ∀ entry ∈ after.writes.entries, Q entry.op entry.tuple.value := by
  obtain ⟨-, writes, rfl, ⟨hfresh, rfl⟩ | ⟨entry, op, tuple, hfind, hfolded, rfl⟩⟩ := write_cases h
  · intro e he
    rcases List.mem_append.mp he with he | he
    · exact hold e he
    · rw [List.mem_singleton] at he
      subst he
      simpa using hnew
  · intro e he
    obtain ⟨e', he', rfl⟩ := List.mem_map.mp he
    by_cases hkey : e'.key = key
    · simp only [hkey, if_true]
      exact hfold entry (List.mem_of_find?_eq_some hfind) op tuple
        (WriteBuffer.key_of_find? hfind) hfolded
    · simp only [hkey, if_false]
      exact hold e' he'

/-- Only a removal makes an entry a removal. -/
theorem op_foldMessage {entry : WriteEntry} {op : WriteOp} {tuple : Tuple}
    (h : txn.foldMessage merge entry message = .ok (op, tuple)) (hmessage : message ≠ .delete) :
    op ≠ .delete := by
  cases message with
  | insert value =>
    cases h
    simp
  | delete => exact absurd rfl hmessage
  | update delta =>
    unfold Transaction.foldMessage Transaction.foldDelta at h
    simp only at h
    split at h
    · split at h
      · cases h
      · cases h
        simp
    · split at h
      · cases h
      · cases h
        simp
    · cases h

theorem write_keeps (h : txn.write merge key message = .ok after) (hmessage : message ≠ .delete)
    (hold : ∀ entry ∈ txn.writes.entries, entry.op ≠ .delete) :
    ∀ entry ∈ after.writes.entries, entry.op ≠ .delete := by
  refine forall_write (Q := fun op _ => op ≠ .delete) h hold ?_ ?_
  · cases message with
    | insert => simp [Message.op]
    | update => simp [Message.op]
    | delete => exact absurd rfl hmessage
  · intro entry _ op tuple _ hfold
    exact op_foldMessage hfold hmessage

end NewWrite

end StampStore
