-- Serial histories: transactions that run one at a time, each on the values that
-- the ones before it have left. What a transaction is told on its own depends on
-- its requests and on those values only.
import StampStore.Proofs.Operators
import StampStore.Proofs.Sessions
import Mathlib.Data.List.TakeWhile

namespace StampStore

/-- The application's value under each key. -/
abbrev Values := Key → Option Bytes

variable {merge : MergeOperator} {V W : Values} {buffer : WriteBuffer}

/-! ## One transaction on its own -/

namespace WriteBuffer

/-- An active transaction that has done nothing but buffer these writes. -/
def scribe (buffer : WriteBuffer) : Transaction :=
  ⟨0, .serializable, ReadLog.empty, buffer, 0, 0, .active⟩

/-- The buffer once a write has been folded in; the write is refused as a transaction would. -/
def receive (merge : MergeOperator) (buffer : WriteBuffer) (key : Key) (message : Message) :
    Except Failure WriteBuffer :=
  (buffer.scribe.write merge key message).map (·.writes)

/-- What a request is answered over the values `V`. -/
def answer (merge : MergeOperator) (V : Values) (buffer : WriteBuffer) : Request → Answer
  | .lookup key => .found (buffer.view merge key (V key))
  | .write key message => .done ((buffer.receive merge key message).map fun _ => ())

/-- The buffer after a request. -/
def after (merge : MergeOperator) (buffer : WriteBuffer) : Request → WriteBuffer
  | .lookup _ => buffer
  | .write key message =>
    match buffer.receive merge key message with
    | .error _ => buffer
    | .ok writes => writes

/-- The values once the buffer has been installed over `V`. -/
def onto (merge : MergeOperator) (V : Values) (buffer : WriteBuffer) : Values := fun key =>
  match buffer.view merge key (V key) with
  | .error _ => V key
  | .ok value => value

end WriteBuffer

/-- What is said when the requests are made over the values `V`. -/
def transcript (merge : MergeOperator) (V : Values) : WriteBuffer → List Request → List Exchange
  | _, [] => []
  | buffer, request :: requests =>
    ⟨request, buffer.answer merge V request⟩ ::
      transcript merge V (buffer.after merge request) requests

/-- The buffer after requests. -/
def buffered (merge : MergeOperator) (requests : List Request) : WriteBuffer :=
  requests.foldl (WriteBuffer.after merge) WriteBuffer.empty

/-- The buffer says what a transaction with these writes says, whoever it is. Only the refusal of
a delta after a removal would name the transaction. -/
theorem write_eq_receive {txn : Transaction} (hactive : txn.isActive = true)
    (hkeep : ∀ entry ∈ txn.writes.entries, entry.op ≠ .delete) (key : Key) (message : Message) :
    txn.write merge key message =
      (txn.writes.receive merge key message).map fun writes => { txn with writes } := by
  have hfold : ∀ entry ∈ txn.writes.entries,
      txn.foldMessage merge entry message =
        txn.writes.scribe.foldMessage merge entry message := by
    intro entry hentry
    cases message with
    | insert value => rfl
    | delete => rfl
    | update delta =>
      unfold Transaction.foldMessage Transaction.foldDelta
      cases hop : entry.op with
      | insert => rfl
      | update => rfl
      | delete => exact absurd hop (hkeep entry hentry)
  unfold WriteBuffer.receive Transaction.write Transaction.bufferMessage
  have hscribe : txn.writes.scribe.isActive = true := rfl
  have hwrites : txn.writes.scribe.writes = txn.writes := rfl
  simp only [hactive, hscribe, hwrites, if_true]
  cases Transaction.checkPayload merge key message with
  | error e => rfl
  | ok u =>
    simp only
    by_cases hfind : txn.writes.find? key = none
    · simp only [hfind]
      cases txn.writes.insert ⟨key, message.op, Tuple.unstamped message.payload⟩ <;> rfl
    · obtain ⟨entry, hentry⟩ := Option.ne_none_iff_exists'.mp hfind
      simp only [hentry, hfold entry (List.mem_of_find?_eq_some hentry)]
      cases Transaction.foldMessage merge _ entry message <;> rfl

theorem mem_keys_after {key : Key} (h : key ∈ buffer.keys) (request : Request) :
    key ∈ (buffer.after merge request).keys := by
  cases request with
  | lookup k => exact h
  | write k message =>
    cases hwrite : buffer.scribe.write merge k message with
    | error failure =>
      simp only [WriteBuffer.after, WriteBuffer.receive, hwrite, Except.map]
      exact h
    | ok txn =>
      obtain ⟨writes, rfl, hkeys⟩ := write_keys hwrite
      simp only [WriteBuffer.after, WriteBuffer.receive, hwrite, Except.map]
      exact (hkeys key).mpr (Or.inl h)

theorem transcript_append (merge : MergeOperator) (V : Values) (buffer : WriteBuffer)
    (xs ys : List Request) :
    transcript merge V buffer (xs ++ ys) =
      transcript merge V buffer xs ++
        transcript merge V (xs.foldl (WriteBuffer.after merge) buffer) ys := by
  induction xs generalizing buffer with
  | nil => rfl
  | cons request xs ih =>
    rw [List.cons_append, transcript, ih, transcript, List.cons_append, List.foldl_cons]

/-- Only the values of the keys that are looked up matter. -/
theorem transcript_congr {requests : List Request}
    (h : ∀ key, Request.lookup key ∈ requests → V key = W key) :
    transcript merge V buffer requests = transcript merge W buffer requests := by
  induction requests generalizing buffer with
  | nil => rfl
  | cons request requests ih =>
    rw [transcript, transcript, ih fun key hkey => h key (List.mem_cons_of_mem request hkey)]
    cases request with
    | lookup key => rw [WriteBuffer.answer, WriteBuffer.answer, h key List.mem_cons_self]
    | write key message => rfl

theorem onto_of_not_mem {key : Key} (h : key ∉ buffer.keys) : buffer.onto merge V key = V key := by
  unfold WriteBuffer.onto WriteBuffer.view
  rw [WriteBuffer.find?_eq_none_iff.mpr h]

theorem onto_congr {key : Key} (h : V key = W key) :
    buffer.onto merge V key = buffer.onto merge W key := by
  unfold WriteBuffer.onto
  rw [h]

/-! ## Transactions one after another -/

/-- A transaction of the past: its time, and all that was said. -/
structure Deed where
  time : Timestamp
  log : List Exchange

namespace Deed

/-- What was asked. -/
def requests (deed : Deed) : List Request := deed.log.map (·.request)

/-- What was written in the end. -/
def writes (merge : MergeOperator) (deed : Deed) : WriteBuffer := buffered merge deed.requests

/-- Whether the transaction has looked at a key or written it. -/
def Touches (merge : MergeOperator) (deed : Deed) (key : Key) : Prop :=
  Request.lookup key ∈ deed.requests ∨ key ∈ (deed.writes merge).keys

end Deed

/-- The values after the past, which begins over `V`. -/
def valuesAfter (merge : MergeOperator) (V : Values) (past : List Deed) : Values :=
  past.foldl (fun V deed => (deed.writes merge).onto merge V) V

/-- Every transaction was told what it would be told on its own, after the ones before it. -/
def Explained (merge : MergeOperator) : Values → List Deed → Prop
  | _, [] => True
  | V, deed :: past =>
    deed.log = transcript merge V WriteBuffer.empty deed.requests ∧
      Explained merge ((deed.writes merge).onto merge V) past

theorem valuesAfter_append (merge : MergeOperator) (V : Values) (xs ys : List Deed) :
    valuesAfter merge V (xs ++ ys) = valuesAfter merge (valuesAfter merge V xs) ys :=
  List.foldl_append

/-- Each key goes its own way. -/
theorem valuesAfter_congr {past : List Deed} {key : Key} (h : V key = W key) :
    valuesAfter merge V past key = valuesAfter merge W past key := by
  induction past generalizing V W with
  | nil => exact h
  | cons deed past ih => exact ih (onto_congr h)

theorem valuesAfter_untouched {past : List Deed} {key : Key}
    (h : ∀ deed ∈ past, ¬ deed.Touches merge key) : valuesAfter merge V past key = V key := by
  induction past generalizing V with
  | nil => rfl
  | cons deed past ih =>
    have hfree : key ∉ (deed.writes merge).keys := fun hmem =>
      h deed List.mem_cons_self (Or.inr hmem)
    have hrest : ∀ d ∈ past, ¬ d.Touches merge key := fun d hd =>
      h d (List.mem_cons_of_mem deed hd)
    exact (ih hrest).trans (onto_of_not_mem hfree)

/-- Values under keys that nobody touches do not matter to what is said. -/
theorem explained_congr {past : List Deed}
    (h : ∀ key, V key = W key ∨ ∀ deed ∈ past, ¬ deed.Touches merge key)
    (hexplained : Explained merge V past) : Explained merge W past := by
  induction past generalizing V W with
  | nil => trivial
  | cons deed past ih =>
    obtain ⟨hlog, hrest⟩ := hexplained
    refine ⟨?_, ih ?_ hrest⟩
    · rw [hlog]
      apply transcript_congr
      intro key hkey
      rcases h key with heq | hnot
      · exact heq
      · exact absurd (Or.inl hkey) (hnot deed List.mem_cons_self)
    · intro key
      rcases h key with heq | hnot
      · exact Or.inl (onto_congr heq)
      · exact Or.inr fun d hd => hnot d (List.mem_cons_of_mem deed hd)

theorem explained_append {xs ys : List Deed} :
    Explained merge V (xs ++ ys) ↔
      Explained merge V xs ∧ Explained merge (valuesAfter merge V xs) ys := by
  induction xs generalizing V with
  | nil => simp [Explained, valuesAfter]
  | cons deed xs ih =>
    rw [List.cons_append, Explained, Explained, ih, and_assoc]
    rfl

/-! ## In the order of time -/

/-- Puts an item behind all that are not later. -/
def placeBy {α : Type} (time : α → Timestamp) (item : α) (items : List α) : List α :=
  items.takeWhile (fun a => decide (time a ≤ time item)) ++
    item :: items.dropWhile fun a => decide (time a ≤ time item)

section InOrder

variable {α β : Type} {time : α → Timestamp} {item : α} {items : List α}

theorem mem_placeBy {a : α} : a ∈ placeBy time item items ↔ a = item ∨ a ∈ items := by
  unfold placeBy
  rw [List.mem_append, List.mem_cons, or_left_comm, ← List.mem_append,
    List.takeWhile_append_dropWhile]

theorem time_of_mem_takeWhile {a : α}
    (h : a ∈ items.takeWhile fun b => decide (time b ≤ time item)) : time a ≤ time item := by
  simpa using List.mem_takeWhile_imp h

theorem time_of_mem_dropWhile (hitems : items.Pairwise fun a b => time a ≤ time b) {a : α}
    (h : a ∈ items.dropWhile fun b => decide (time b ≤ time item)) : time item < time a := by
  induction items with
  | nil => cases h
  | cons first items ih =>
    obtain ⟨hfirst, hrest⟩ := List.pairwise_cons.mp hitems
    by_cases hle : time first ≤ time item
    · rw [List.dropWhile_cons_of_pos (by simpa using hle)] at h
      exact ih hrest h
    · rw [List.dropWhile_cons_of_neg (by simpa using hle)] at h
      rcases List.mem_cons.mp h with rfl | h
      · exact not_le.mp hle
      · exact lt_of_lt_of_le (not_le.mp hle) (hfirst a h)

/-- What holds between the old items, from the earlier ones to the new one and from the new one to
the later ones holds throughout. -/
theorem pairwise_placeBy {R : α → α → Prop} (hitems : items.Pairwise fun a b => time a ≤ time b)
    (hold : items.Pairwise R) (hbefore : ∀ a ∈ items, time a ≤ time item → R a item)
    (hlater : ∀ a ∈ items, time item < time a → R item a) :
    (placeBy time item items).Pairwise R := by
  rw [← List.takeWhile_append_dropWhile (l := items)
    (p := fun a => decide (time a ≤ time item)), List.pairwise_append] at hold
  obtain ⟨hleft, hright, hcross⟩ := hold
  unfold placeBy
  rw [List.pairwise_append, List.pairwise_cons]
  refine ⟨hleft, ⟨?_, hright⟩, ?_⟩
  · intro a ha
    exact hlater a ((List.dropWhile_sublist _).mem ha) (time_of_mem_dropWhile hitems ha)
  · intro a ha b hb
    rcases List.mem_cons.mp hb with rfl | hb
    · exact hbefore a ((List.takeWhile_sublist _).mem ha) (time_of_mem_takeWhile ha)
    · exact hcross a ha b hb

/-- The items of one time stay as they are, and a new one comes behind them. -/
theorem filter_placeBy (hitems : items.Pairwise fun a b => time a ≤ time b) (ts : Timestamp) :
    (placeBy time item items).filter (fun a => decide (time a = ts)) =
      (items ++ [item]).filter fun a => decide (time a = ts) := by
  have hsplit := List.takeWhile_append_dropWhile (l := items)
    (p := fun a => decide (time a ≤ time item))
  unfold placeBy
  conv_rhs => rw [← hsplit]
  rw [List.append_assoc, List.filter_append, List.filter_append, ← List.singleton_append,
    List.filter_append, List.filter_append]
  congr 1
  by_cases hts : time item = ts
  · -- nothing that is later has this time
    have hlate : (items.dropWhile fun a => decide (time a ≤ time item)).filter
        (fun a => decide (time a = ts)) = [] := by
      apply List.filter_eq_nil_iff.mpr
      intro a ha
      simpa [← hts] using ne_of_gt (time_of_mem_dropWhile hitems ha)
    rw [hlate, List.append_nil, List.nil_append]
  · rw [List.filter_cons_of_neg (by simpa using hts), List.filter_nil, List.nil_append,
      List.append_nil]

theorem map_placeBy {time' : β → Timestamp} {f : α → β} (h : ∀ a, time' (f a) = time a) :
    (placeBy time item items).map f = placeBy time' (f item) (items.map f) := by
  unfold placeBy
  rw [List.map_append, List.map_cons, List.takeWhile_map, List.dropWhile_map]
  simp only [Function.comp_def, h]

end InOrder

/-! ## A new transaction in the past -/

/-- Puts a transaction behind all that are not later. -/
def place (deed : Deed) (past : List Deed) : List Deed := placeBy Deed.time deed past

/-- The transactions up to a time. -/
def upTo (past : List Deed) (c : Timestamp) : List Deed :=
  past.filter fun d => decide (d.time ≤ c)

/-- The values once all transactions up to a time have run. -/
def valuesAt (merge : MergeOperator) (past : List Deed) (c : Timestamp) : Values :=
  valuesAfter merge (fun _ => none) (upTo past c)

section Placing

variable {past : List Deed} {deed : Deed}

/-- The past in the order of time. -/
def Ordered (past : List Deed) : Prop := past.Pairwise fun a b => a.time ≤ b.time

theorem mem_place {d : Deed} : d ∈ place deed past ↔ d = deed ∨ d ∈ past := mem_placeBy

theorem ordered_place (hpast : Ordered past) : Ordered (place deed past) :=
  pairwise_placeBy hpast hpast (fun _ _ h => h) fun _ _ h => le_of_lt h

theorem upTo_append (xs ys : List Deed) (c : Timestamp) :
    upTo (xs ++ ys) c = upTo xs c ++ upTo ys c := List.filter_append xs ys

theorem upTo_eq_self {c : Timestamp} (h : ∀ d ∈ past, d.time ≤ c) : upTo past c = past := by
  apply List.filter_eq_self.mpr
  intro d hd
  simpa using h d hd

theorem upTo_eq_nil {c : Timestamp} (h : ∀ d ∈ past, c < d.time) : upTo past c = [] := by
  apply List.filter_eq_nil_iff.mpr
  intro d hd
  simpa using h d hd

/-- The past up to the time of a new transaction is what it is placed behind. -/
theorem upTo_time (hpast : Ordered past) :
    upTo past deed.time = past.takeWhile fun d => decide (d.time ≤ deed.time) := by
  have hsplit := List.takeWhile_append_dropWhile (l := past)
    (p := fun d => decide (d.time ≤ deed.time))
  conv_lhs => rw [← hsplit]
  rw [upTo_append, upTo_eq_self fun d hd => time_of_mem_takeWhile hd,
    upTo_eq_nil fun d hd => time_of_mem_dropWhile hpast hd, List.append_nil]

/-- Before its own time a new transaction changes nothing. -/
theorem upTo_place_of_lt {c : Timestamp} (hc : c < deed.time) :
    upTo (place deed past) c = upTo past c := by
  have hself : upTo [deed] c = [] := by
    apply upTo_eq_nil
    intro d hd
    rw [List.mem_singleton.mp hd]
    exact hc
  conv_rhs => rw [← List.takeWhile_append_dropWhile (l := past)
    (p := fun d => decide (d.time ≤ deed.time))]
  unfold place placeBy
  rw [← List.singleton_append, upTo_append, upTo_append, upTo_append, hself, List.nil_append]

/-- From its own time on it stands between the past up to it and what is later. -/
theorem upTo_place (hpast : Ordered past) {c : Timestamp} (hc : deed.time ≤ c) :
    ∃ later, (∀ d ∈ later, d ∈ past ∧ deed.time < d.time) ∧
      upTo (place deed past) c = upTo past deed.time ++ deed :: later ∧
      upTo past c = upTo past deed.time ++ later := by
  refine ⟨upTo (past.dropWhile fun d => decide (d.time ≤ deed.time)) c, ?_, ?_, ?_⟩
  · intro d hd
    have hmem := (List.mem_filter.mp hd).1
    exact ⟨(List.dropWhile_sublist _).mem hmem, time_of_mem_dropWhile hpast hmem⟩
  · have hself : upTo [deed] c = [deed] := by
      apply upTo_eq_self
      intro d hd
      rw [List.mem_singleton.mp hd]
      exact hc
    unfold place placeBy
    rw [← List.singleton_append, upTo_append, upTo_append, hself, upTo_time hpast,
      upTo_eq_self fun d hd => le_trans (time_of_mem_takeWhile hd) hc, List.singleton_append]
  · rw [upTo_time hpast]
    conv_lhs => rw [← List.takeWhile_append_dropWhile (l := past)
      (p := fun d => decide (d.time ≤ deed.time))]
    rw [upTo_append, upTo_eq_self fun d hd => le_trans (time_of_mem_takeWhile hd) hc]

variable {key : Key} {c : Timestamp}

theorem valuesAt_place_of_lt (hc : c < deed.time) :
    valuesAt merge (place deed past) c = valuesAt merge past c := by
  unfold valuesAt
  rw [upTo_place_of_lt hc]

/-- A key that a new transaction does not write keeps its values at all times. -/
theorem valuesAt_place_other (hpast : Ordered past) (hkey : key ∉ (deed.writes merge).keys) :
    valuesAt merge (place deed past) c key = valuesAt merge past c key := by
  rcases lt_or_ge c deed.time with hc | hc
  · rw [valuesAt_place_of_lt hc]
  · obtain ⟨later, -, hplace, hupTo⟩ := upTo_place hpast hc
    unfold valuesAt
    rw [hplace, hupTo, valuesAfter_append, valuesAfter_append]
    exact valuesAfter_congr (onto_of_not_mem hkey)

/-- A key that it writes, and that nobody later touches, has the new value from then on. -/
theorem valuesAt_place_written (hpast : Ordered past)
    (hfree : ∀ d ∈ past, deed.time < d.time → ¬ d.Touches merge key) (hc : deed.time ≤ c) :
    valuesAt merge (place deed past) c key =
      (deed.writes merge).onto merge (valuesAt merge past deed.time) key := by
  obtain ⟨later, hlater, hplace, -⟩ := upTo_place hpast hc
  unfold valuesAt
  rw [hplace, valuesAfter_append]
  exact valuesAfter_untouched fun d hd => hfree d (hlater d hd).1 (hlater d hd).2

/-- The past stays explained when a transaction is placed in it that was told what stood at its
time, and that writes only what nobody later touches. -/
theorem explained_place (hpast : Ordered past)
    (hexplained : Explained merge (fun _ => none) past)
    (hlog : deed.log =
      transcript merge (valuesAt merge past deed.time) WriteBuffer.empty deed.requests)
    (hfree : ∀ d ∈ past, deed.time < d.time → ∀ key ∈ (deed.writes merge).keys,
      ¬ d.Touches merge key) :
    Explained merge (fun _ => none) (place deed past) := by
  have hsplit := hexplained
  rw [← List.takeWhile_append_dropWhile (l := past)
    (p := fun d => decide (d.time ≤ deed.time)), explained_append] at hsplit
  obtain ⟨hbefore, hlater⟩ := hsplit
  unfold place placeBy
  rw [explained_append, Explained, ← upTo_time hpast]
  rw [← upTo_time hpast] at hbefore hlater
  refine ⟨hbefore, hlog, explained_congr ?_ hlater⟩
  intro key
  by_cases hkey : key ∈ (deed.writes merge).keys
  · right
    intro d hd
    exact hfree d ((List.dropWhile_sublist _).mem hd) (time_of_mem_dropWhile hpast hd) key hkey
  · exact Or.inl (onto_of_not_mem hkey).symm

end Placing

end StampStore
