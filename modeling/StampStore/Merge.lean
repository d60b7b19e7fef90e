-- Merge operators: how a delta changes a value. Three work on plain values and
-- one lifts any operator to stored tuples, where a four-byte delta only raises
-- the read time.
import StampStore.Tuple

namespace StampStore

/-- How deltas and values compose. -/
structure MergeOperator where
  /-- The name in settings and diagnosis. -/
  name : String
  /-- The value under a key, if there is one, with a delta applied. -/
  apply : Key → Option Bytes → Bytes → Except Error Bytes
  /-- One delta that stands for an older and a newer one. -/
  combine : Key → Bytes → Bytes → Except Error Bytes
  /-- Whether a value or delta can be merged at all, asked before it is buffered. -/
  validate : Key → Bytes → Except Error Unit

/-! ## Counters -/

namespace Counter

/-- The bytes of a counter. -/
def size : Nat := 8

/-- The eight bytes of `n`. -/
def encode (n : UInt64) : Bytes := Bytes.littleEndian size n.toNat

/-- Reads a counter from exactly eight bytes. -/
def decode (bs : Bytes) : Option UInt64 :=
  if bs.length = size then some (UInt64.ofNat (Bytes.ofLittleEndian bs)) else none

/-- Reads a counter, refusing any other width. -/
def read (key : Key) (part : CounterPart) (bs : Bytes) : Except Error UInt64 :=
  match decode bs with
  | some n => .ok n
  | none => .error (.merge key (.counterWidth part bs.length))

/-- The sum of the counter at `key`, zero when there is none, and a delta; it wraps around. -/
def add (key : Key) (base : Option Bytes) (delta : Bytes) : Except Error Bytes :=
  match base with
  | none =>
    match read key .delta delta with
    | .error e => .error e
    | .ok d => .ok (encode d)
  | some value =>
    match read key .value value with
    | .error e => .error e
    | .ok n =>
      match read key .delta delta with
      | .error e => .error e
      | .ok d => .ok (encode (n + d))

@[simp] theorem length_encode (n : UInt64) : (encode n).length = size :=
  Bytes.length_littleEndian _ _

@[simp] theorem decode_encode (n : UInt64) : decode (encode n) = some n := by
  rw [decode, if_pos (length_encode n), Option.some.injEq]
  apply UInt64.toNat_inj.mp
  have hn := n.toNat_lt
  simp only [encode, size, Bytes.ofLittleEndian_littleEndian, Nat.pow_eq, UInt64.toNat_ofNat']
  omega

end Counter

namespace MergeOperator

/-! ## Operators on plain values -/

/-- The delta is the new value. -/
def replace : MergeOperator where
  name := "replace"
  apply _ _ delta := .ok delta
  combine _ _ newer := .ok newer
  validate _ _ := .ok ()

/-- The delta is put behind the value. -/
def append : MergeOperator where
  name := "append"
  apply _ base delta := .ok (base.getD [] ++ delta)
  combine _ older newer := .ok (older ++ newer)
  validate _ _ := .ok ()

/-- Values and deltas are counters, and they are added. -/
def counter : MergeOperator where
  name := "counter"
  apply := Counter.add
  combine key older newer := Counter.add key (some older) newer
  validate key operand := (Counter.read key .operand operand).map fun _ => ()

/-- The operators that settings can name. -/
def ofName? (name : String) : Option MergeOperator :=
  if name = "replace" then some replace
  else if name = "append" then some append
  else if name = "counter" then some counter
  else none

/-! ## Operators on tuples -/

/-- Takes bytes as a tuple, refusing those that are too short. -/
def readTuple (key : Key) (part : TuplePart) (bs : Bytes) : Except Error Tuple :=
  match Tuple.ofBytes? bs with
  | some t => .ok t
  | none => .error (.merge key (.noTuple part bs.length))

/-- The value of the tuple under `key`, if there is one. -/
def readBase (key : Key) : Option Bytes → Except Error (Option Bytes)
  | none => .ok none
  | some record =>
    match readTuple key .storedRecord record with
    | .error e => .error e
    | .ok t => .ok (some t.value)

/-- Raises the read time of a tuple. -/
def refresh (key : Key) (part : TuplePart) (bs : Bytes) (rts : Timestamp) : Except Error Bytes :=
  match readTuple key part bs with
  | .error e => .error e
  | .ok t => .ok (t.setStamp (t.stamp.raiseRts rts)).bytes

/-- Puts a stamp before a merged value. -/
def restamp (s : Stamp) : Except Error Bytes → Except Error Bytes
  | .error e => .error e
  | .ok value => .ok (Tuple.make s value).bytes

/-- A record with a delta applied: four bytes raise its read time, and a tuple merges the
values under its own stamp. -/
def applyToTuple (app : MergeOperator) (key : Key) (base : Option Bytes) (delta : Bytes) :
    Except Error Bytes :=
  match Timestamp.decode delta with
  | some rts =>
    match base with
    | none => .error (.merge key .refreshOnAbsent)
    | some record => refresh key .storedRecord record rts
  | none =>
    match readTuple key .update delta with
    | .error e => .error e
    | .ok update =>
      match readBase key base with
      | .error e => .error e
      | .ok value => restamp update.stamp (app.apply key value update.value)

/-- One delta for two: read times meet at the later one, a tuple keeps the later stamp. -/
def combineTuples (app : MergeOperator) (key : Key) (older newer : Bytes) : Except Error Bytes :=
  match Timestamp.decode older, Timestamp.decode newer with
  | some a, some b => .ok (max a b).encode
  | none, some rts => refresh key .update older rts
  | some _, none =>
    match readTuple key .update newer with
    | .error e => .error e
    | .ok t => .ok t.bytes
  | none, none =>
    match readTuple key .update older with
    | .error e => .error e
    | .ok a =>
      match readTuple key .update newer with
      | .error e => .error e
      | .ok b => restamp b.stamp (app.combine key a.value b.value)

/-- An operator lifted to tuples, as storage needs it underneath transactions. -/
def tuple (app : MergeOperator) : MergeOperator where
  name := "tuple"
  apply := applyToTuple app
  combine := combineTuples app
  validate _ _ := .ok ()

/-- An operator named with any number of `tuple:` in front. -/
def ofPath? : List String → Option MergeOperator
  | [] => none
  | [name] => ofName? name
  | layer :: path => if layer = "tuple" then (ofPath? path).map tuple else none

/-! ## Applying several deltas -/

/-- The value with the deltas applied one after another. -/
def applyEach (m : MergeOperator) (key : Key) (base : Option Bytes) :
    List Bytes → Except Error (Option Bytes)
  | [] => .ok base
  | delta :: deltas =>
    match m.apply key base delta with
    | .error e => .error e
    | .ok value => m.applyEach key (some value) deltas

/-- The deltas folded into one, oldest first. -/
def combineAll (m : MergeOperator) (key : Key) (delta : Bytes) :
    List Bytes → Except Error Bytes
  | [] => .ok delta
  | newer :: deltas =>
    match m.combine key delta newer with
    | .error e => .error e
    | .ok folded => m.combineAll key folded deltas

/-- The value with the deltas folded into one first and then applied at once. -/
def applyCombined (m : MergeOperator) (key : Key) (base : Option Bytes) :
    List Bytes → Except Error (Option Bytes)
  | [] => .ok base
  | delta :: deltas =>
    match m.combineAll key delta deltas with
    | .error e => .error e
    | .ok folded => (m.apply key base folded).map some

end MergeOperator

end StampStore
