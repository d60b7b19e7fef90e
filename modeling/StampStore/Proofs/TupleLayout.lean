-- Tuples as buffers. Whatever is written into a tuple, its bytes are those of its two
-- times and of its value, one behind the other, and nothing else is in it. A record of
-- eight bytes or more is such a buffer, and no read time on its own is one.
import StampStore.Tuple

namespace StampStore

/-! ## The contents of a buffer -/

/-- A number of 32 bits as four bytes, the lowest first. -/
def fourBytes (n : Nat) : Bytes :=
  [UInt8.ofNat n, UInt8.ofNat (n / 256), UInt8.ofNat (n / 65536), UInt8.ofNat (n / 16777216)]

namespace Tuple

/-- What a tuple has in it. -/
structure Contents where
  wts : Timestamp
  rts : Timestamp
  value : Bytes
  deriving DecidableEq, Repr

/-- Both times and the value, one behind the other. -/
def Contents.layout (c : Contents) : Bytes :=
  fourBytes c.wts.toNat ++ fourBytes c.rts.toNat ++ c.value

/-- How a tuple comes about. -/
inductive Source where
  | make (s : Stamp) (value : Bytes)
  | unstamped (value : Bytes)
  | record (key : Key) (bytes : Bytes)

/-- The tuple, if the record is long enough. -/
def Source.build : Source → Except Error Tuple
  | .make s value => .ok (Tuple.make s value)
  | .unstamped value => .ok (Tuple.unstamped value)
  | .record key bytes => ofRecord key bytes

/-- What a new tuple has in it. A record has what it is laid out from. -/
inductive Source.Holds : Source → Contents → Prop where
  | make (s : Stamp) (value : Bytes) : Holds (.make s value) ⟨s.wts, s.rts, value⟩
  | unstamped (value : Bytes) : Holds (.unstamped value) ⟨0, 0, value⟩
  | record (key : Key) (c : Contents) : Holds (.record key c.layout) c

/-- One change to a buffer, in place. -/
inductive Edit where
  | stamp (s : Stamp)
  | value (v : Bytes)

/-- The buffer after a change. -/
def edit (t : Tuple) : Edit → Tuple
  | .stamp s => t.setStamp s
  | .value v => t.setValue v

/-- What is in it after a change. -/
def Contents.edit (c : Contents) : Edit → Contents
  | .stamp s => { c with wts := s.wts, rts := s.rts }
  | .value v => { c with value := v }

/-- The buffer has these contents, and every question about it is answered from them. -/
structure Represents (t : Tuple) (c : Contents) : Prop where
  bytes_eq : t.bytes = c.layout
  stamp_eq : t.stamp = ⟨c.wts, c.rts⟩
  value_eq : t.value = c.value
  length_eq : t.length = 8 + c.value.length
  reread : ∀ key, ofRecord key t.bytes = .ok t

/-! ## One change after another -/

theorem encode_eq_fourBytes (ts : Timestamp) : ts.encode = fourBytes ts.toNat := by
  simp [Timestamp.encode, Timestamp.size, Bytes.littleEndian, fourBytes, Nat.div_div_eq_div_mul]

theorem bytes_make (s : Stamp) (value : Bytes) :
    (make s value).bytes = Contents.layout ⟨s.wts, s.rts, value⟩ := by
  simp only [make, Stamp.encode, encode_eq_fourBytes, Contents.layout]

theorem make_represents (s : Stamp) (value : Bytes) :
    (make s value).Represents ⟨s.wts, s.rts, value⟩ where
  bytes_eq := bytes_make s value
  stamp_eq := stamp_make s value
  value_eq := value_make s value
  length_eq := by simp [length, make, Stamp.size]
  reread key := ofRecord_bytes key _

/-- A tuple has its own stamp and value in it. -/
theorem represents_self (t : Tuple) : t.Represents ⟨t.stamp.wts, t.stamp.rts, t.value⟩ := by
  have h := make_represents t.stamp t.value
  rwa [make_stamp_value] at h

theorem represents_edit {t : Tuple} {c : Contents} (h : t.Represents c) (e : Edit) :
    (t.edit e).Represents (c.edit e) := by
  cases e with
  | stamp s =>
    rw [edit, setStamp_eq, h.value_eq]
    exact make_represents s c.value
  | value v =>
    rw [edit, setValue_eq, h.stamp_eq]
    exact make_represents ⟨c.wts, c.rts⟩ v

theorem represents_edits {t : Tuple} {c : Contents} (h : t.Represents c) (edits : List Edit) :
    (edits.foldl edit t).Represents (edits.foldl Contents.edit c) := by
  induction edits generalizing t c with
  | nil => exact h
  | cons e edits ih => exact ih (represents_edit h e)

/-- What is built represents what it was built from. -/
theorem represents_build {source : Source} {t : Tuple} (h : source.build = .ok t) :
    ∃ c, source.Holds c ∧ t.Represents c := by
  cases source with
  | make s value =>
    cases h
    exact ⟨_, .make s value, make_represents s value⟩
  | unstamped value =>
    cases h
    exact ⟨_, .unstamped value, make_represents Stamp.zero value⟩
  | record key bytes =>
    have hbytes : t.bytes = bytes := ofRecord_eq_ok_iff.mp h
    have hself := represents_self t
    have hholds := Source.Holds.record key ⟨t.stamp.wts, t.stamp.rts, t.value⟩
    rw [← hself.bytes_eq, hbytes] at hholds
    exact ⟨_, hholds, hself⟩

/-! ## Which records are tuples -/

theorem exists_ofRecord_iff {key : Key} {record : Bytes} :
    (∃ t, ofRecord key record = .ok t) ↔ 8 ≤ record.length := by
  constructor
  · rintro ⟨t, ht⟩
    rw [← ofRecord_eq_ok_iff.mp ht]
    exact t.size_le
  · intro hsize
    exact ⟨⟨record, hsize⟩, ofRecord_eq_ok_iff.mpr rfl⟩

theorem decode_bytes_eq_none (t : Tuple) : Timestamp.decode t.bytes = none := by
  have hsize : 8 ≤ t.bytes.length := t.size_le
  have hlength : t.bytes.length ≠ Timestamp.size := by
    rw [Timestamp.size]
    omega
  rw [Timestamp.decode, if_neg hlength]

theorem ofRecord_of_decode {delta : Bytes} {rts : Timestamp}
    (h : Timestamp.decode delta = some rts) (key : Key) :
    ofRecord key delta = .error (.corruption key (.short 4)) := by
  unfold Timestamp.decode at h
  by_cases hlength : delta.length = Timestamp.size
  · rw [ofRecord_short (by rw [hlength]; decide), hlength, Timestamp.size]
  · rw [if_neg hlength] at h
    cases h

end Tuple

/-- A tuple is a buffer of two times and a value. However it was built and whatever was written into
it since, its bytes are its write time, its read time (both lowest byte first) and its value; the
stamp, the value and the length are read off these, and the bytes taken as a record are the tuple
again. Exactly the records of at least eight bytes are tuples, and each is the bytes of its own stamp
and value. No tuple is read as a read time on its own, and nothing that is read as one is a tuple. -/
theorem tuple_is_two_times_and_a_value :
    (∀ (source : Tuple.Source) (t : Tuple), source.build = .ok t →
      ∃ c, source.Holds c ∧ ∀ edits : List Tuple.Edit,
        (edits.foldl Tuple.edit t).Represents (edits.foldl Tuple.Contents.edit c)) ∧
      (∀ (key : Key) (record : Bytes),
        ((∃ t, Tuple.ofRecord key record = .ok t) ↔ 8 ≤ record.length) ∧
          ∀ t, Tuple.ofRecord key record = .ok t →
            (Tuple.make t.stamp t.value).bytes = record) ∧
      (∀ t : Tuple, Timestamp.decode t.bytes = none) ∧
      ∀ rts : Timestamp, Timestamp.decode rts.encode = some rts ∧
        ∀ (key : Key) (delta : Bytes), Timestamp.decode delta = some rts →
          Tuple.ofRecord key delta = .error (.corruption key (.short 4)) := by
  refine ⟨fun source t hbuild => ?_, fun key record => ⟨Tuple.exists_ofRecord_iff, fun t ht => ?_⟩,
    Tuple.decode_bytes_eq_none, fun rts => ⟨Timestamp.decode_encode rts, fun key delta h => ?_⟩⟩
  · obtain ⟨c, hholds, hrepresents⟩ := Tuple.represents_build hbuild
    exact ⟨c, hholds, Tuple.represents_edits hrepresents⟩
  · rw [Tuple.make_stamp_value]
    exact Tuple.ofRecord_eq_ok_iff.mp ht
  · exact Tuple.ofRecord_of_decode h key

/-- A record is given a longer value and then other times. The four bytes of a read time are no
record. -/
theorem record_is_changed_in_place :
    let k : Key := ⟨[107]⟩
    let record : Bytes := [1, 0, 0, 0, 2, 0, 0, 0, 9]
    let edits : List Tuple.Edit := [.value [7, 7, 7], .stamp ⟨258, 4294967295⟩]
    (∃ t, Tuple.ofRecord k record = .ok t ∧ t.stamp = ⟨1, 2⟩ ∧
        (edits.foldl Tuple.edit t).bytes = [2, 1, 0, 0, 255, 255, 255, 255, 7, 7, 7] ∧
        (edits.foldl Tuple.edit t).stamp = ⟨258, 4294967295⟩ ∧
        (edits.foldl Tuple.edit t).length = 11) ∧
      Timestamp.decode [5, 0, 0, 0] = some 5 ∧
      Tuple.ofRecord k [5, 0, 0, 0] = .error (.corruption k (.short 4)) := by
  intro k record edits
  obtain ⟨hbuffers, -, -, htimes⟩ := tuple_is_two_times_and_a_value
  have hfive : Timestamp.decode [5, 0, 0, 0] = some 5 := by decide
  have hbuild : (Tuple.Source.record k record).build = .ok ⟨record, by decide⟩ := rfl
  obtain ⟨c, -, hedits⟩ := hbuffers _ _ hbuild
  have hafter := hedits edits
  have hlayout : Tuple.Contents.layout ⟨258, 4294967295, [7, 7, 7]⟩ =
      [2, 1, 0, 0, 255, 255, 255, 255, 7, 7, 7] := by decide
  exact ⟨⟨_, hbuild, by decide, hafter.bytes_eq.trans hlayout, hafter.stamp_eq, hafter.length_eq⟩,
    hfive, (htimes 5).2 k _ hfive⟩

end StampStore
