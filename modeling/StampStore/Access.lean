-- What a transaction has touched: a log of the reads that found something, in
-- order and with repeats, and a buffer of writes with one entry per key. A write
-- is asked for as a full value, a delta, or the removal of the key.
import StampStore.Tuple

namespace StampStore

/-! ## Reads -/

/-- A tuple as it was when a transaction read it. -/
structure ReadEntry where
  key : Key
  tuple : Tuple
  deriving DecidableEq

/-- The reads of a transaction, oldest first. -/
structure ReadLog where
  entries : List ReadEntry
  deriving DecidableEq

namespace ReadLog

/-- The log without reads. -/
def empty : ReadLog := ⟨[]⟩

/-- Adds a read. -/
def push (log : ReadLog) (key : Key) (tuple : Tuple) : ReadLog := ⟨log.entries ++ [⟨key, tuple⟩]⟩

/-- The latest write time that was read, zero when nothing was. -/
def maxWts (log : ReadLog) : Timestamp :=
  log.entries.foldl (fun ts entry => max ts entry.tuple.stamp.wts) 0

/-- The number of reads. -/
def length (log : ReadLog) : Nat := log.entries.length

/-- Whether nothing was read. -/
def isEmpty (log : ReadLog) : Bool := log.entries.isEmpty

end ReadLog

/-! ## Writes -/

/-- What a buffered write does to its key. -/
inductive WriteOp where
  | insert
  | update
  | delete
  deriving DecidableEq, Repr, Inhabited

/-- A full value and a removal fix what the key will hold; a delta does not. -/
def WriteOp.isDefinitive : WriteOp → Bool
  | .insert => true
  | .update => false
  | .delete => true

/-- One write as it is asked for. -/
inductive Message where
  | insert (value : Bytes)
  | update (delta : Bytes)
  | delete
  deriving DecidableEq, Repr, Inhabited

namespace Message

/-- What the write does. -/
def op : Message → WriteOp
  | .insert _ => .insert
  | .update _ => .update
  | .delete => .delete

/-- Whether the write fixes what the key will hold. -/
def isDefinitive (m : Message) : Bool := m.op.isDefinitive

/-- The bytes the write carries; a removal carries none. -/
def payload : Message → Bytes
  | .insert value => value
  | .update delta => delta
  | .delete => []

end Message

/-- A buffered write; its tuple has the zero stamp until the commit installs it. -/
structure WriteEntry where
  key : Key
  op : WriteOp
  tuple : Tuple
  deriving DecidableEq

/-- The buffered writes of a transaction, one per key, in the order of their first write. -/
structure WriteBuffer where
  entries : List WriteEntry
  distinct : (entries.map (·.key)).Nodup
  deriving DecidableEq

namespace WriteBuffer

/-- The buffer without writes. -/
def empty : WriteBuffer := ⟨[], List.Pairwise.nil⟩

/-- The keys, in the order of the entries. -/
def keys (buffer : WriteBuffer) : List Key := buffer.entries.map (·.key)

/-- The entry of `key`. -/
def find? (buffer : WriteBuffer) (key : Key) : Option WriteEntry :=
  buffer.entries.find? fun entry => decide (entry.key = key)

/-- Whether `key` has an entry. -/
def contains (buffer : WriteBuffer) (key : Key) : Bool := (buffer.find? key).isSome

/-- The number of keys. -/
def length (buffer : WriteBuffer) : Nat := buffer.entries.length

/-- Whether nothing is buffered. -/
def isEmpty (buffer : WriteBuffer) : Bool := buffer.entries.isEmpty

theorem find?_eq_none_iff {buffer : WriteBuffer} {key : Key} :
    buffer.find? key = none ↔ key ∉ buffer.keys := by
  simp only [find?, keys, List.find?_eq_none, List.mem_map, decide_eq_true_eq, not_exists, not_and]

/-- Adds an entry behind the others, which must not hold the key. -/
def push (buffer : WriteBuffer) (entry : WriteEntry) (h : buffer.find? entry.key = none) :
    WriteBuffer where
  entries := buffer.entries ++ [entry]
  distinct := by
    rw [List.map_append, List.nodup_append]
    refine ⟨buffer.distinct, by simp, ?_⟩
    intro a ha b hb
    simp only [List.map_cons, List.map_nil, List.mem_singleton] at hb
    rintro rfl
    exact find?_eq_none_iff.mp h (hb ▸ ha)

/-- Adds an entry; a second one for the same key is a misuse. -/
def insert (buffer : WriteBuffer) (entry : WriteEntry) : Except Misuse WriteBuffer :=
  if h : buffer.find? entry.key = none then .ok (buffer.push entry h)
  else .error (.duplicateWrite entry.key)

/-- Changes the entries without changing their keys. -/
def mapEntries (buffer : WriteBuffer) (f : WriteEntry → WriteOp × Tuple) : WriteBuffer where
  entries := buffer.entries.map fun entry => ⟨entry.key, (f entry).1, (f entry).2⟩
  distinct := by
    rw [List.map_map]
    exact buffer.distinct

/-- Sets what the entry of `key` does; a key without an entry gets none. -/
def set (buffer : WriteBuffer) (key : Key) (op : WriteOp) (tuple : Tuple) : WriteBuffer :=
  buffer.mapEntries fun entry => if entry.key = key then (op, tuple) else (entry.op, entry.tuple)

/-- Stamps every entry as committed at `ts`. -/
def stampAll (buffer : WriteBuffer) (ts : Timestamp) : WriteBuffer :=
  buffer.mapEntries fun entry => (entry.op, entry.tuple.setStamp (Stamp.committedAt ts))

/-- The entries in ascending order of their keys, the order of locking and writing. -/
def sorted (buffer : WriteBuffer) : WriteBuffer where
  entries := Key.sortBy (·.key) buffer.entries
  distinct := ((Key.sortBy_perm (·.key) buffer.entries).map (·.key)).nodup_iff.mpr buffer.distinct

/-! ## The keys and entries of each -/

@[simp] theorem keys_push (buffer : WriteBuffer) (entry : WriteEntry)
    (h : buffer.find? entry.key = none) : (buffer.push entry h).keys = buffer.keys ++ [entry.key] := by
  simp [keys, push]

@[simp] theorem keys_mapEntries (buffer : WriteBuffer) (f : WriteEntry → WriteOp × Tuple) :
    (buffer.mapEntries f).keys = buffer.keys := by
  simp [keys, mapEntries, Function.comp_def]

@[simp] theorem keys_set (buffer : WriteBuffer) (key : Key) (op : WriteOp) (tuple : Tuple) :
    (buffer.set key op tuple).keys = buffer.keys := keys_mapEntries _ _

theorem sorted_perm (buffer : WriteBuffer) : buffer.sorted.entries.Perm buffer.entries :=
  Key.sortBy_perm WriteEntry.key buffer.entries

/-- Sorted entries stand in strictly ascending order, since no key occurs twice. -/
theorem sorted_ascending (buffer : WriteBuffer) :
    buffer.sorted.keys.Pairwise fun a b => a < b := by
  have hle : buffer.sorted.keys.Pairwise fun a b => ¬ b < a :=
    List.pairwise_map.mpr (Key.sortBy_ordered WriteEntry.key buffer.entries)
  refine (hle.and buffer.sorted.distinct).imp ?_
  rintro a b ⟨hba, hne⟩
  by_cases hab : a < b
  · exact hab
  · exact absurd (Key.eq_of_not_lt hab hba) hne

theorem find?_push (buffer : WriteBuffer) (entry : WriteEntry)
    (h : buffer.find? entry.key = none) (k : Key) :
    (buffer.push entry h).find? k = if entry.key = k then some entry else buffer.find? k := by
  by_cases hk : entry.key = k
  · subst hk
    simp only [find?] at h
    simp [find?, push, List.find?_append, h]
  · simp [find?, push, List.find?_append, hk]

theorem find?_mapEntries (buffer : WriteBuffer) (f : WriteEntry → WriteOp × Tuple) (k : Key) :
    (buffer.mapEntries f).find? k =
      (buffer.find? k).map fun entry => ⟨entry.key, (f entry).1, (f entry).2⟩ := by
  rw [find?, mapEntries, List.find?_map]
  rfl

end WriteBuffer

end StampStore
