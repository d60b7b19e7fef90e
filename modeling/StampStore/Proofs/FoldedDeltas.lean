-- Several deltas to one key. They can be applied one after another, or folded into one
-- delta first, the oldest first, and applied at once. Both ways fail together, and
-- otherwise give the same value: over any value that is stored, under each named
-- operator and however many times it is lifted to tuples.
import StampStore.Proofs.MessageOrder
import Mathlib.Logic.Function.Iterate

namespace StampStore

/-! ## Two deltas, and more -/

/-- Over `base`, if the older delta is one of `starts`: two deltas folded into one do what the older
and then the newer one do, and are refused if one of those is. -/
structure MergeOperator.FoldsExactly (m : MergeOperator) (base : Option Bytes)
    (starts : Bytes → Prop) : Prop where
  pair : ∀ key older newer value, starts older →
    ((∃ between, m.apply key base older = .ok between ∧
        m.apply key (some between) newer = .ok value) ↔
      ∃ folded, m.combine key older newer = .ok folded ∧ m.apply key base folded = .ok value)
  keeps : ∀ key older newer folded, starts older → m.combine key older newer = .ok folded →
    starts folded

namespace MergeOperator

variable {m app : MergeOperator} {key : Key} {base : Option Bytes} {starts : Bytes → Prop}

theorem applyEach_cons_eq_ok_iff {delta : Bytes} {deltas : List Bytes} {value : Option Bytes} :
    m.applyEach key base (delta :: deltas) = .ok value ↔
      ∃ next, m.apply key base delta = .ok next ∧
        m.applyEach key (some next) deltas = .ok value := by
  rw [applyEach]
  cases m.apply key base delta <;> simp

theorem applyCombined_cons_eq_ok_iff {first newer : Bytes} {rest : List Bytes}
    {value : Option Bytes} :
    m.applyCombined key base (first :: newer :: rest) = .ok value ↔
      ∃ folded, m.combine key first newer = .ok folded ∧
        m.applyCombined key base (folded :: rest) = .ok value := by
  simp only [applyCombined, combineAll]
  cases m.combine key first newer <;> simp

/-- What holds of two deltas holds of any number of them: the two oldest are folded, and what they
give takes their place. -/
theorem FoldsExactly.applyEach_iff (h : m.FoldsExactly base starts) {first : Bytes}
    (hfirst : starts first) (rest : List Bytes) (value : Option Bytes) :
    m.applyEach key base (first :: rest) = .ok value ↔
      m.applyCombined key base (first :: rest) = .ok value := by
  induction rest generalizing first with
  | nil =>
    rw [applyEach_cons_eq_ok_iff]
    simp only [applyEach, applyCombined, combineAll]
    cases m.apply key base first <;> simp [Except.map]
  | cons newer rest ih =>
    rw [applyCombined_cons_eq_ok_iff, applyEach_cons_eq_ok_iff]
    simp only [applyEach_cons_eq_ok_iff]
    constructor
    · rintro ⟨between, hfirst', next, hnewer, hrest⟩
      obtain ⟨folded, hcombine, happly⟩ :=
        (h.pair key first newer next hfirst).mp ⟨between, hfirst', hnewer⟩
      refine ⟨folded, hcombine, (ih (h.keeps key first newer folded hfirst hcombine)).mp ?_⟩
      exact applyEach_cons_eq_ok_iff.mpr ⟨next, happly, hrest⟩
    · rintro ⟨folded, hcombine, hrest⟩
      have heach := (ih (h.keeps key first newer folded hfirst hcombine)).mpr hrest
      obtain ⟨next, happly, hrest⟩ := applyEach_cons_eq_ok_iff.mp heach
      obtain ⟨between, hfirst', hnewer⟩ :=
        (h.pair key first newer next hfirst).mpr ⟨folded, hcombine, happly⟩
      exact ⟨between, hfirst', next, hnewer, hrest⟩

/-! ## Operators on plain values -/

theorem foldsExactly_replace (base : Option Bytes) : replace.FoldsExactly base fun _ => True where
  pair key older newer value _ := by simp [replace]
  keeps _ _ _ _ _ _ := trivial

theorem foldsExactly_append (base : Option Bytes) : append.FoldsExactly base fun _ => True where
  pair key older newer value _ := by simp [append]
  keeps _ _ _ _ _ _ := trivial

/-- Counters are added in any grouping, and a part that is no counter stops both ways. -/
theorem foldsExactly_counter (base : Option Bytes) : counter.FoldsExactly base fun _ => True where
  pair key older newer value _ := by
    simp only [counter, Counter.add_eq_ok_iff, Option.elim_some]
    constructor
    · rintro ⟨between, ⟨n, a, hn, ha, rfl⟩, n', b, hn', hb, rfl⟩
      obtain rfl : n + a = n' := Option.some.inj ((Counter.decode_encode _).symm.trans hn')
      exact ⟨_, ⟨a, b, ha, hb, rfl⟩, n, a + b, hn, Counter.decode_encode _,
        by rw [UInt64.add_assoc]⟩
    · rintro ⟨folded, ⟨a, b, ha, hb, rfl⟩, n, d, hn, hd, rfl⟩
      obtain rfl : a + b = d := Option.some.inj ((Counter.decode_encode _).symm.trans hd)
      exact ⟨_, ⟨n, a, hn, ha, rfl⟩, n + a, b, Counter.decode_encode _, hb,
        by rw [UInt64.add_assoc]⟩
  keeps _ _ _ _ _ _ := trivial

theorem foldsExactly_ofName? {name : String} (h : ofName? name = some m) (base : Option Bytes) :
    m.FoldsExactly base fun _ => True := by
  rcases ofName?_cases h with rfl | rfl | rfl
  · exact foldsExactly_replace base
  · exact foldsExactly_append base
  · exact foldsExactly_counter base

end MergeOperator

/-! ## Deltas to tuples -/

theorem Tuple.raise_max (t : Tuple) (a b : Timestamp) : (t.raise a).raise b = t.raise (max a b) := by
  rw [eq_iff]
  simp [raise, Stamp.raiseRts, max_assoc]

theorem Tuple.stamp_raise (t : Tuple) (ts : Timestamp) :
    (t.raise ts).stamp = t.stamp.raiseRts ts := stamp_setStamp _ _

theorem Tuple.raise_make (s : Stamp) (value : Bytes) (ts : Timestamp) :
    (make s value).raise ts = make (s.raiseRts ts) value := by
  rw [eq_iff]
  simp [raise]

theorem Tuple.bytes_inj {t u : Tuple} : t.bytes = u.bytes ↔ t = u :=
  ⟨ext, fun h => h ▸ rfl⟩

theorem Timestamp.encode_of_decode {bs : Bytes} {ts : Timestamp} (h : decode bs = some ts) :
    bs = ts.encode := by
  unfold decode at h
  split at h
  · rename_i hlen
    cases h
    exact (encode_ofNat_ofLittleEndian hlen).symm
  · cases h

namespace MergeOperator

variable {app : MergeOperator} {key : Key} {base : Option Bytes} {older value : Bytes}

/-- Bytes that are neither a read time nor a tuple. -/
def Malformed (delta : Bytes) : Prop :=
  Timestamp.decode delta = none ∧ Tuple.ofBytes? delta = none

/-- A delta to a tuple is a read time, or a tuple, or malformed. -/
theorem delta_cases (delta : Bytes) :
    (∃ ts : Timestamp, delta = ts.encode) ∨ (∃ t : Tuple, delta = t.bytes) ∨ Malformed delta := by
  cases hts : Timestamp.decode delta with
  | some ts => exact Or.inl ⟨ts, Timestamp.encode_of_decode hts⟩
  | none =>
    cases ht : Tuple.ofBytes? delta with
    | some t => exact Or.inr (Or.inl ⟨t, (Tuple.ofBytes?_eq_some_iff.mp ht).symm⟩)
    | none => exact Or.inr (Or.inr ⟨hts, ht⟩)

theorem readBase_tuple (key : Key) (t : Tuple) :
    readBase key (some t.bytes) = .ok (some t.value) := by
  simp [readBase, readTuple, Tuple.ofBytes?_bytes]

theorem apply_readTime {ts : Timestamp} {value : Bytes} :
    app.tuple.apply key base ts.encode = .ok value ↔
      ∃ t : Tuple, base = some t.bytes ∧ value = (t.raise ts).bytes := by
  simp only [tuple, applyToTuple, Timestamp.decode_encode]
  cases base with
  | none => simp
  | some record =>
    cases ht : Tuple.ofBytes? record with
    | none =>
      simp only [refresh, readTuple, ht, reduceCtorEq, false_iff, not_exists, not_and]
      rintro t hrecord -
      rw [Option.some.inj hrecord, Tuple.ofBytes?_bytes] at ht
      cases ht
    | some t =>
      obtain rfl := Tuple.ofBytes?_eq_some_iff.mp ht
      simp only [refresh, readTuple, ht, Except.ok.injEq]
      constructor
      · rintro rfl
        exact ⟨t, rfl, rfl⟩
      · rintro ⟨u, hu, rfl⟩
        rw [Tuple.ext (Option.some.inj hu)]
        rfl

theorem apply_tuple {t : Tuple} {value : Bytes} :
    app.tuple.apply key base t.bytes = .ok value ↔
      ∃ old merged, readBase key base = .ok old ∧ app.apply key old t.value = .ok merged ∧
        value = (Tuple.make t.stamp merged).bytes := by
  simp only [tuple, applyToTuple, Timestamp.decode_tuple, readTuple, Tuple.ofBytes?_bytes]
  cases readBase key base with
  | error e => simp
  | ok old => cases hmerge : app.apply key old t.value <;> simp [restamp, hmerge, eq_comm]

theorem apply_malformed {delta value : Bytes} (h : Malformed delta) :
    ¬ app.tuple.apply key base delta = .ok value := by
  simp [tuple, applyToTuple, readTuple, h.1, h.2]

theorem combine_readTimes (a b : Timestamp) :
    app.tuple.combine key a.encode b.encode = .ok (max a b).encode := by
  simp [tuple, combineTuples]

theorem combine_tuple_readTime (t : Tuple) (ts : Timestamp) :
    app.tuple.combine key t.bytes ts.encode = .ok (t.raise ts).bytes := by
  simp [tuple, combineTuples, refresh, readTuple, Timestamp.decode_tuple, Tuple.ofBytes?_bytes,
    Tuple.raise]

theorem combine_readTime_tuple (ts : Timestamp) (t : Tuple) :
    app.tuple.combine key ts.encode t.bytes = .ok t.bytes := by
  simp [tuple, combineTuples, readTuple, Timestamp.decode_tuple, Tuple.ofBytes?_bytes]

theorem combine_tuples {a b : Tuple} {folded : Bytes} :
    app.tuple.combine key a.bytes b.bytes = .ok folded ↔
      ∃ merged, app.combine key a.value b.value = .ok merged ∧
        folded = (Tuple.make b.stamp merged).bytes := by
  simp only [tuple, combineTuples, Timestamp.decode_tuple, readTuple, Tuple.ofBytes?_bytes]
  cases app.combine key a.value b.value <;> simp [restamp, eq_comm]

theorem combine_malformed {older newer folded : Bytes} (h : Malformed older ∨ Malformed newer) :
    ¬ app.tuple.combine key older newer = .ok folded := by
  simp only [tuple, combineTuples]
  rcases h with ⟨hts, ht⟩ | ⟨hts, ht⟩
  · cases Timestamp.decode newer <;> simp [hts, ht, refresh, readTuple]
  · cases Timestamp.decode older with
    | some a => simp [hts, ht, readTuple]
    | none =>
      simp only [hts, readTuple, ht]
      cases Tuple.ofBytes? older <;> simp

theorem readBase_eq_ok_iff {record : Bytes} {old : Option Bytes} :
    readBase key (some record) = .ok old ↔ ∃ t : Tuple, record = t.bytes ∧ old = some t.value := by
  simp only [readBase, readTuple]
  cases ht : Tuple.ofBytes? record with
  | none =>
    simp only [reduceCtorEq, false_iff, not_exists, not_and]
    rintro t rfl
    rw [Tuple.ofBytes?_bytes] at ht
    cases ht
  | some t =>
    obtain rfl := Tuple.ofBytes?_eq_some_iff.mp ht
    simp [Tuple.bytes_inj, eq_comm]

/-- A delta, and then a read time: folded, the delta carries the later read time. -/
theorem fold_readTime (ts : Timestamp) :
    (∃ between, app.tuple.apply key base older = .ok between ∧
        app.tuple.apply key (some between) ts.encode = .ok value) ↔
      ∃ folded, app.tuple.combine key older ts.encode = .ok folded ∧
        app.tuple.apply key base folded = .ok value := by
  rcases delta_cases older with ⟨a, rfl⟩ | ⟨a, rfl⟩ | hbad
  · simp only [combine_readTimes, Except.ok.injEq, exists_eq_left', apply_readTime,
      Option.some.injEq]
    constructor
    · rintro ⟨_, ⟨t, rfl, rfl⟩, u, hu, rfl⟩
      exact ⟨t, rfl, by rw [← Tuple.bytes_inj.mp hu, Tuple.raise_max]⟩
    · rintro ⟨t, rfl, rfl⟩
      exact ⟨_, ⟨t, rfl, rfl⟩, t.raise a, rfl, by rw [Tuple.raise_max]⟩
  · simp only [combine_tuple_readTime, Except.ok.injEq, exists_eq_left', apply_tuple,
      apply_readTime, Option.some.injEq, Tuple.value_raise]
    constructor
    · rintro ⟨_, ⟨old, merged, hold, happly, rfl⟩, u, hu, rfl⟩
      refine ⟨old, merged, hold, happly, ?_⟩
      rw [← Tuple.bytes_inj.mp hu, Tuple.raise_make, Tuple.stamp_raise]
    · rintro ⟨old, merged, hold, happly, rfl⟩
      refine ⟨_, ⟨old, merged, hold, happly, rfl⟩, _, rfl, ?_⟩
      rw [Tuple.raise_make, Tuple.stamp_raise]
  · simp [apply_malformed hbad, combine_malformed (Or.inl hbad)]

/-- A delta, and then a tuple: the stamp of the tuple stands, and the operator below folds the
values. -/
theorem fold_tuple (hstart : base = none → older.length ≠ Timestamp.size)
    (h : ∀ old, readBase key base = .ok old → app.FoldsExactly old fun _ => True) (t : Tuple) :
    (∃ between, app.tuple.apply key base older = .ok between ∧
        app.tuple.apply key (some between) t.bytes = .ok value) ↔
      ∃ folded, app.tuple.combine key older t.bytes = .ok folded ∧
        app.tuple.apply key base folded = .ok value := by
  rcases delta_cases older with ⟨a, rfl⟩ | ⟨a, rfl⟩ | hbad
  · obtain ⟨record, rfl⟩ := Option.ne_none_iff_exists'.mp fun hnone =>
      hstart hnone (Timestamp.length_encode a)
    simp only [combine_readTime_tuple, Except.ok.injEq, exists_eq_left', apply_tuple,
      apply_readTime, Option.some.injEq, readBase_eq_ok_iff]
    constructor
    · rintro ⟨_, ⟨u, rfl, rfl⟩, _, merged, ⟨v, hv, rfl⟩, happly, rfl⟩
      refine ⟨_, merged, ⟨u, rfl, rfl⟩, ?_, rfl⟩
      rwa [← Tuple.bytes_inj.mp hv, Tuple.value_raise] at happly
    · rintro ⟨_, merged, ⟨u, rfl, rfl⟩, happly, rfl⟩
      exact ⟨_, ⟨u, rfl, rfl⟩, _, merged, ⟨_, rfl, rfl⟩, by rwa [Tuple.value_raise], rfl⟩
  · simp only [apply_tuple, combine_tuples]
    constructor
    · rintro ⟨_, ⟨old, middle, hold, hfirst, rfl⟩, _, merged, hmiddle, hsecond, rfl⟩
      rw [readBase_tuple, Tuple.value_make] at hmiddle
      cases hmiddle
      obtain ⟨delta, hcombine, happly⟩ :=
        ((h old hold).pair key a.value t.value merged trivial).mp ⟨middle, hfirst, hsecond⟩
      refine ⟨_, ⟨delta, hcombine, rfl⟩, ?_⟩
      exact apply_tuple.mpr ⟨old, merged, hold, by rwa [Tuple.value_make], by rw [Tuple.stamp_make]⟩
    · rintro ⟨_, ⟨delta, hcombine, rfl⟩, hfolded⟩
      obtain ⟨old, merged, hold, happly, rfl⟩ := apply_tuple.mp hfolded
      rw [Tuple.value_make] at happly
      obtain ⟨middle, hfirst, hsecond⟩ :=
        ((h old hold).pair key a.value t.value merged trivial).mpr ⟨delta, hcombine, happly⟩
      refine ⟨_, ⟨old, middle, hold, hfirst, rfl⟩, some middle, merged, ?_, hsecond, ?_⟩
      · rw [readBase_tuple, Tuple.value_make]
      · rw [Tuple.stamp_make]
  · simp [apply_malformed hbad, combine_malformed (Or.inl hbad)]

/-- Lifted to tuples an operator folds exactly what it folds on plain values. A read time that stands
in front needs a tuple to be raised in. -/
theorem FoldsExactly.tuple
    (h : ∀ key old, readBase key base = .ok old → app.FoldsExactly old fun _ => True) :
    app.tuple.FoldsExactly base fun delta => base = none → delta.length ≠ Timestamp.size where
  pair key older newer value hstart := by
    rcases delta_cases newer with ⟨ts, rfl⟩ | ⟨t, rfl⟩ | hbad
    · exact fold_readTime ts
    · exact fold_tuple hstart (h key) t
    · simp [apply_malformed hbad, combine_malformed (Or.inr hbad)]
  keeps key older newer folded hstart hcombine hnone := by
    have hlong : ∀ t : Tuple, t.bytes.length ≠ Timestamp.size := fun t heq => by
      have := t.size_le
      rw [heq] at this
      exact absurd this (by decide)
    rcases delta_cases older with ⟨a, rfl⟩ | ⟨a, rfl⟩ | hbad
    · exact absurd (Timestamp.length_encode a) (hstart hnone)
    · rcases delta_cases newer with ⟨ts, rfl⟩ | ⟨b, rfl⟩ | hbad
      · rw [combine_tuple_readTime] at hcombine
        cases hcombine
        exact hlong _
      · obtain ⟨merged, -, rfl⟩ := combine_tuples.mp hcombine
        exact hlong _
      · exact absurd hcombine (combine_malformed (Or.inr hbad))
    · exact absurd hcombine (combine_malformed (Or.inl hbad))

/-- Over a stored value an operator folds exactly at every depth. -/
theorem foldsExactly_iterate (h : ∀ base, app.FoldsExactly (some base) fun _ => True) (depth : Nat)
    (base : Bytes) : (MergeOperator.tuple^[depth] app).FoldsExactly (some base) fun _ => True := by
  induction depth generalizing base with
  | zero => exact h base
  | succ depth ih =>
    rw [Function.iterate_succ_apply']
    have hbase : ∀ key old, readBase key (some base) = .ok old →
        (MergeOperator.tuple^[depth] app).FoldsExactly old fun _ => True := by
      intro key old hold
      obtain ⟨t, -, rfl⟩ := readBase_eq_ok_iff.mp hold
      exact ih t.value
    have hlifted := FoldsExactly.tuple hbase
    exact ⟨fun key older newer value _ => hlifted.pair key older newer value (by simp),
      fun _ _ _ _ _ _ => trivial⟩

end MergeOperator

/-! ## Any number of deltas -/

/-- Under a named operator, lifted to tuples any number of times, deltas applied to a stored value one
after another give what they give folded into one, and are refused exactly if that is. For an absent
key the same holds of the operator itself, and of its lift to tuples if the first delta is no read
time. -/
theorem folded_deltas_do_what_they_do_one_by_one {name : String} {app : MergeOperator}
    (happ : MergeOperator.ofName? name = some app) (key : Key) (first : Bytes)
    (rest : List Bytes) :
    (∀ depth base value,
      (MergeOperator.tuple^[depth] app).applyEach key (some base) (first :: rest) = .ok value ↔
        (MergeOperator.tuple^[depth] app).applyCombined key (some base) (first :: rest) =
          .ok value) ∧
      (∀ value, app.applyEach key none (first :: rest) = .ok value ↔
        app.applyCombined key none (first :: rest) = .ok value) ∧
      (first.length ≠ Timestamp.size → ∀ value,
        app.tuple.applyEach key none (first :: rest) = .ok value ↔
          app.tuple.applyCombined key none (first :: rest) = .ok value) := by
  have hplain := MergeOperator.foldsExactly_ofName? happ
  refine ⟨fun depth base value => ?_, fun value => ?_, fun hfirst value => ?_⟩
  · have hnested := MergeOperator.foldsExactly_iterate (fun base => hplain (some base)) depth base
    exact hnested.applyEach_iff trivial rest value
  · exact (hplain none).applyEach_iff trivial rest value
  · have hlifted : app.tuple.FoldsExactly none _ :=
      MergeOperator.FoldsExactly.tuple fun _ old _ => hplain old
    exact hlifted.applyEach_iff (fun _ => hfirst) rest value

/-- A counter under two stamps, and under one. Read times on either level, records and a sum that
wraps around fold to what they do one by one; a counter that is too short stops both ways. -/
theorem stamped_counters_fold :
    let k : Key := ⟨[107]⟩
    let twice := MergeOperator.tuple^[2] MergeOperator.counter
    let once := MergeOperator.counter.tuple
    let inner := fun (ts : Timestamp) (n : UInt64) =>
      (Tuple.make (Stamp.committedAt ts) (Counter.encode n)).bytes
    let outer := fun (ts : Timestamp) (value : Bytes) => (Tuple.make ⟨ts, 8⟩ value).bytes
    let deltas := [Timestamp.encode 9, outer 2 (inner 3 1), outer 4 (Timestamp.encode 7),
      Timestamp.encode 8, outer 5 (inner 6 4)]
    twice.applyCombined k (some (outer 1 (inner 1 18446744073709551615))) deltas =
        .ok (some (outer 5 (inner 6 4))) ∧
      (∀ value, twice.applyCombined k (some (outer 1 (inner 1 0)))
        (outer 2 (outer 3 [1]) :: deltas) ≠ .ok value) ∧
      once.applyCombined k none [inner 2 5, Timestamp.encode 4, inner 3 6] =
        .ok (some (inner 3 11)) := by
  intro k twice once inner outer deltas
  have happ : MergeOperator.ofName? "counter" = some MergeOperator.counter := rfl
  obtain ⟨hstored, -, -⟩ := folded_deltas_do_what_they_do_one_by_one happ k (Timestamp.encode 9)
    deltas.tail
  obtain ⟨hrefused, -, -⟩ := folded_deltas_do_what_they_do_one_by_one happ k
    (outer 2 (outer 3 [1])) deltas
  obtain ⟨-, -, habsent⟩ := folded_deltas_do_what_they_do_one_by_one happ k (inner 2 5)
    [Timestamp.encode 4, inner 3 6]
  refine ⟨(hstored 2 _ _).mp (by decide +kernel), fun value h => ?_,
    (habsent (by decide) _).mp (by decide +kernel)⟩
  have heach := (hrefused 2 _ value).mpr h
  cases heach

/-- A read time in front is refused for an absent key, while the fold has forgotten it. -/
example : (MergeOperator.append.tuple.applyEach ⟨[107]⟩ none
      [Timestamp.encode 1, (Tuple.unstamped [49]).bytes]).isOk = false ∧
    (MergeOperator.append.tuple.applyCombined ⟨[107]⟩ none
      [Timestamp.encode 1, (Tuple.unstamped [49]).bytes]).isOk = true := by decide

end StampStore
