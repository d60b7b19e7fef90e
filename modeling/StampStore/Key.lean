-- Keys: byte strings under the byte-wise order. The order is the one in which
-- every commit locks and writes its keys, so it does not depend on who asks. Keys
-- are shown as text in messages, and quoted or as bytes where the exact key matters.
import StampStore.Text.Quoted
import StampStore.Text.Utf8

namespace StampStore

/-- A key of the store: any byte string, the empty one included. -/
structure Key where
  bytes : Bytes
  deriving DecidableEq, Repr, Inhabited

/-- Identifies a transaction, and stands as the owner of the locks it takes. -/
abbrev TxnId := UInt64

namespace Key

/-! ## The order of keys -/

instance : LT Key := ⟨fun a b => a.bytes < b.bytes⟩

instance : DecidableLT Key := fun a b => inferInstanceAs (Decidable (a.bytes < b.bytes))

theorem lt_irrefl (a : Key) : ¬ a < a := List.lt_irrefl a.bytes

theorem lt_trans {a b c : Key} (hab : a < b) (hbc : b < c) : a < c :=
  List.lt_trans hab hbc

theorem lt_asymm {a b : Key} (hab : a < b) : ¬ b < a :=
  fun hba => lt_irrefl a (lt_trans hab hba)

theorem ne_of_lt {a b : Key} (hab : a < b) : a ≠ b :=
  fun h => lt_irrefl b (h ▸ hab)

theorem eq_of_not_lt {a b : Key} (hab : ¬ a < b) (hba : ¬ b < a) : a = b := by
  cases a; cases b
  exact congrArg Key.mk (List.le_antisymm (List.not_lt.mp hba) (List.not_lt.mp hab))

/-- Where `a` stands against `b`. -/
def order (a b : Key) : Ordering :=
  if a < b then .lt else if b < a then .gt else .eq

/-! ## Sorting by key -/

/-- Puts `a` in front of the first element whose key is not before its own. -/
def insertBy {α : Type} (key : α → Key) (a : α) : List α → List α
  | [] => [a]
  | b :: l => if key b < key a then b :: insertBy key a l else a :: b :: l

/-- The elements in ascending order of their keys; equal keys keep their order. -/
def sortBy {α : Type} (key : α → Key) : List α → List α
  | [] => []
  | a :: l => insertBy key a (sortBy key l)

theorem insertBy_perm {α : Type} (key : α → Key) (a : α) (l : List α) :
    (insertBy key a l).Perm (a :: l) := by
  induction l with
  | nil => exact List.Perm.refl _
  | cons b l ih =>
    unfold insertBy
    split
    · exact (ih.cons b).trans (List.Perm.swap a b l)
    · exact List.Perm.refl _

theorem sortBy_perm {α : Type} (key : α → Key) (l : List α) : (sortBy key l).Perm l := by
  induction l with
  | nil => exact List.Perm.refl _
  | cons a l ih => exact (insertBy_perm key a _).trans (ih.cons a)

theorem insertBy_ordered {α : Type} (key : α → Key) (a : α) {l : List α}
    (h : l.Pairwise fun x y => ¬ key y < key x) :
    (insertBy key a l).Pairwise fun x y => ¬ key y < key x := by
  induction l with
  | nil => exact List.pairwise_singleton _ _
  | cons b l ih =>
    obtain ⟨hb, hl⟩ := List.pairwise_cons.mp h
    unfold insertBy
    split
    · rename_i hba
      refine List.pairwise_cons.mpr ⟨?_, ih hl⟩
      intro x hx
      rcases List.mem_cons.mp ((insertBy_perm key a l).mem_iff.mp hx) with rfl | hx
      · exact lt_asymm hba
      · exact hb x hx
    · rename_i hba
      refine List.pairwise_cons.mpr ⟨?_, h⟩
      intro x hx
      rcases List.mem_cons.mp hx with rfl | hx
      · exact hba
      · intro hxa
        by_cases hax : key b < key x
        · exact hba (lt_trans hax hxa)
        · exact hba (eq_of_not_lt (hb x hx) hax ▸ hxa)

theorem sortBy_ordered {α : Type} (key : α → Key) (l : List α) :
    (sortBy key l).Pairwise fun x y => ¬ key y < key x := by
  induction l with
  | nil => exact List.Pairwise.nil
  | cons a l ih => exact insertBy_ordered key a ih

/-! ## Keys as texts -/

/-- The key of a text. -/
def ofText (text : List Char) : Key := ⟨Utf8.encode text⟩

/-- The key as readers of a message see it; ill-formed bytes show as replacement characters. -/
def display (k : Key) : String := String.ofList (Utf8.decodeLossy k.bytes)

/-- The key without loss: quoted when it is text, and a list of bytes when it is not. -/
def debug (k : Key) : String :=
  Text.wrapped "Key" <|
    match Utf8.decode? k.bytes with
    | some text => Text.quoted text
    | none => Text.hexList k.bytes

end Key

end StampStore
