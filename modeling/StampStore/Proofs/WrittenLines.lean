-- Lines of settings files. A text or a number that ends its line is read as the value
-- it was written for, so a file of written lines is read as these lines.
import StampStore.Proofs.WrittenTexts
import StampStore.Toml.Reader
import Mathlib.Algebra.GroupWithZero.Nat

namespace StampStore.Toml

/-! ## Numbers -/

theorem isDigit_iff {c : Char} : c.isDigit = true ↔ 0x30 ≤ c.toNat ∧ c.toNat ≤ 0x39 := by
  simp only [Char.isDigit, Bool.and_eq_true, decide_eq_true_eq]
  exact Iff.rfl

theorem digitValue?_digit {c : Char} (h : c.isDigit = true) :
    digitValue? 10 c = some (c.toNat - 0x30) := by
  rw [isDigit_iff] at h
  have hvalue : c.toNat - 0x30 < 10 := by omega
  simp only [digitValue?, h, and_self, if_true, hvalue]

/-- Digits without underscores are read one by one. -/
theorem groupedDigits?_digits {cs : List Char} (h : ∀ c ∈ cs, c.isDigit = true) {grouped : Bool}
    (hsome : grouped = true ∨ cs ≠ []) :
    groupedDigits? 10 grouped cs = some (cs.map fun c => c.toNat - 0x30) := by
  induction cs generalizing grouped with
  | nil =>
    rcases hsome with rfl | hne
    · rfl
    · exact absurd rfl hne
  | cons c cs ih =>
    have hc := h c List.mem_cons_self
    have hgroup : c ≠ '_' := ne_of_kind hc (by decide)
    rw [groupedDigits?, if_neg hgroup, digitValue?_digit hc]
    simp [ih (fun c hc => h c (List.mem_cons_of_mem _ hc)) (Or.inl rfl)]

theorem ofDigits_toDigits (n : Nat) :
    ofDigits 10 ((Nat.toDigits 10 n).map fun c => c.toNat - 0x30) = n := by
  have hn : Nat.ofDigitChars 10 (Nat.toDigits 10 n) 0 = n := Nat.ofDigitChars_ten_toDigits
  rw [Nat.ofDigitChars_eq_foldl] at hn
  rw [ofDigits, List.foldl_map]
  refine Eq.trans ?_ hn
  congr 1
  funext sofar c
  rw [Nat.mul_comm]
  rfl

theorem isDigit_toDigits {n : Nat} : ∀ c ∈ Nat.toDigits 10 n, c.isDigit = true :=
  fun _ hc => Nat.isDigit_of_mem_toDigits (by decide) (by decide) hc

theorem toDigits_cons (n : Nat) : ∃ c cs, Nat.toDigits 10 n = c :: cs ∧ c.isDigit = true := by
  obtain ⟨c, cs, hcs⟩ := List.exists_cons_of_ne_nil (Nat.toDigits_ne_nil (n := n) (b := 10))
  exact ⟨c, cs, hcs, isDigit_toDigits c (hcs ▸ List.mem_cons_self)⟩

/-- Only zero itself begins with a zero. -/
theorem toDigits_head {n : Nat} (h : 0 < n) : ∃ c cs, Nat.toDigits 10 n = c :: cs ∧ c ≠ '0' := by
  induction n using Nat.strongRecOn with
  | ind n ih =>
    by_cases hsmall : n < 10
    · have hdigit : ∀ d < 10, 0 < d → Nat.digitChar d ≠ '0' := by decide
      exact ⟨_, [], Nat.toDigits_of_lt_base hsmall, hdigit n hsmall h⟩
    · obtain ⟨c, cs, hcs, hc⟩ := ih (n / 10) (by omega) (by omega)
      refine ⟨c, cs ++ [Nat.digitChar (n % 10)], ?_, hc⟩
      rw [Nat.toDigits_of_base_le (by decide) (by omega), hcs, List.cons_append]

theorem decimalDigits?_toDigits (n : Nat) :
    decimalDigits? (Nat.toDigits 10 n) =
      some ((Nat.toDigits 10 n).map fun c => c.toNat - 0x30) := by
  rw [decimalDigits?.eq_def]
  split
  · rename_i hzero
    rcases Nat.eq_zero_or_pos n with rfl | hn
    · cases hzero
    · obtain ⟨c, cs, hcs, hc⟩ := toDigits_head hn
      rw [hcs] at hzero
      exact absurd (List.cons.inj hzero).1 hc
  · exact groupedDigits?_digits isDigit_toDigits (Or.inr Nat.toDigits_ne_nil)

/-- A word of digits has neither a sign nor a base in front. -/
theorem readInteger?_digits {c : Char} {cs : List Char} (h : ∀ d ∈ c :: cs, d.isDigit = true) :
    readInteger? (c :: cs) =
      (decimalDigits? (c :: cs)).bind fun ds => inRange? (ofDigits 10 ds) := by
  have hminus : c ≠ '-' := ne_of_kind (h c List.mem_cons_self) (by decide)
  have hplus : c ≠ '+' := ne_of_kind (h c List.mem_cons_self) (by decide)
  have hsign : splitSign (c :: cs) = (false, c :: cs) := by
    rw [splitSign.eq_def]
    split
    · exact absurd (List.cons.inj ‹_›).1 hminus
    · exact absurd (List.cons.inj ‹_›).1 hplus
    · rfl
  have hbase : ∀ {x : Char} {rest : List Char}, x.isDigit = false → ¬ c :: cs = '0' :: x :: rest := by
    intro x rest hx he
    have hmem : x ∈ c :: cs := by
      rw [he]
      simp
    exact ne_of_kind (h x hmem) hx rfl
  rw [readInteger?.eq_def]
  split
  · exact absurd ‹_› (hbase (by decide))
  · exact absurd ‹_› (hbase (by decide))
  · exact absurd ‹_› (hbase (by decide))
  · rw [hsign]
    simp

theorem readInteger?_toDigits {n : Nat} (h : n < 2 ^ 63) :
    readInteger? (Nat.toDigits 10 n) = some (n : Int) := by
  obtain ⟨c, cs, hcs, -⟩ := toDigits_cons n
  have hdigits : ∀ d ∈ c :: cs, d.isDigit = true := hcs ▸ isDigit_toDigits
  have hrange : -(Nat.pow 2 63 : Int) ≤ (n : Int) ∧ (n : Int) < (Nat.pow 2 63 : Int) := by
    rw [Nat.pow_eq]
    omega
  rw [hcs, readInteger?_digits hdigits, ← hcs, decimalDigits?_toDigits, Option.bind_some,
    ofDigits_toDigits, inRange?, if_pos hrange]

theorem isWordChar_of_isDigit {c : Char} (h : c.isDigit = true) : isWordChar c = true := by
  simp [isWordChar, Char.isAlphanum, h]

theorem readScalar_toDigits {n : Nat} (h : n < 2 ^ 63) (rest : List Char) :
    readScalar (Nat.toDigits 10 n ++ '\n' :: rest) = some (.integer n, '\n' :: rest) := by
  obtain ⟨c, cs, hcs, hc⟩ := toDigits_cons n
  have hword : ∀ d ∈ Nat.toDigits 10 n, isWordChar d = true :=
    fun d hd => isWordChar_of_isDigit (isDigit_toDigits d hd)
  have hend : isWordChar '\n' = false := by decide
  have hsplit : splitWord (Nat.toDigits 10 n ++ '\n' :: rest) =
      (Nat.toDigits 10 n, '\n' :: rest) := by
    rw [splitWord, List.takeWhile_append_of_pos hword, List.dropWhile_append_of_pos hword]
    simp [hend]
  have htrue : c :: cs ≠ "true".toList := cons_ne_of_kind hc (by decide) _ _
  have hfalse : c :: cs ≠ "false".toList := cons_ne_of_kind hc (by decide) _ _
  have hvalue : ofWord? (Nat.toDigits 10 n) = some (.integer n) := by
    rw [ofWord?, hcs, if_neg htrue, if_neg hfalse, ← hcs, readInteger?_toDigits h]
  simp [readScalar, hsplit, hvalue]

/-! ## Values -/

/-- Characters that are read as a value where they end a line. -/
structure Spells (value : List Char) (node : Node) : Prop where
  starts : ∃ a w, value = a :: w ∧ isBlank a = false
  reads : ∀ depth rest, readValue depth (value ++ '\n' :: rest) = some (node, '\n' :: rest)

/-- What is written for a text begins with a quote, which is how it is told from other values. -/
theorem readValue_written {text written : List Char} (h : Written text written) (depth : Nat)
    (cs : List Char) :
    readValue depth (written ++ cs) =
      (readText (written ++ cs)).map fun read => (.text read.1, read.2) := by
  cases h <;> simp only [List.cons_append] <;> rw [readValue]

theorem Written.head {text written : List Char} (h : Written text written) :
    ∃ a w, written = a :: w ∧ isBlank a = false := by
  cases h <;> exact ⟨_, _, rfl, by decide⟩

theorem spells_text (text : List Char) : Spells (writeText text) (.text text) where
  starts := (written_writeText text).head
  reads depth rest := by
    rw [readValue_written (written_writeText text), readText_writeText, Option.map_some]

theorem readValue_digit {c : Char} (h : c.isDigit = true) (depth : Nat) (cs : List Char) :
    readValue depth (c :: cs) = readScalar (c :: cs) := by
  rw [readValue]
  · exact fun _ => cons_ne_of_kind h (by decide) _ _
  · exact fun _ => cons_ne_of_kind h (by decide) _ _
  · exact fun _ => cons_ne_of_kind h (by decide) _ _
  · exact fun _ => cons_ne_of_kind h (by decide) _ _

theorem spells_number {n : Nat} (h : n < 2 ^ 63) : Spells (Nat.toDigits 10 n) (.integer n) := by
  obtain ⟨c, cs, hcs, hc⟩ := toDigits_cons n
  refine ⟨⟨c, cs, hcs, ?_⟩, fun depth rest => ?_⟩
  · have hspace : c ≠ ' ' := ne_of_kind hc (by decide)
    have htab : c ≠ '\t' := ne_of_kind hc (by decide)
    simp [isBlank, hspace, htab]
  · have hscalar := readScalar_toDigits h rest
    rw [hcs, List.cons_append] at hscalar ⊢
    rw [readValue_digit hc, hscalar]

/-! ## Lines -/

/-- A key that needs no quotes. -/
structure IsBare (key : List Char) : Prop where
  ne_nil : key ≠ []
  bare : ∀ c ∈ key, isBareKeyChar c = true

/-- The characters of a line, with what the line says. -/
inductive Wrote : List Char → Line → Prop where
  | pair {key value : List Char} {node : Node} (hkey : IsBare key) (hvalue : Spells value node) :
      Wrote (key ++ ' ' :: '=' :: ' ' :: (value ++ ['\n'])) (.pair ([], key, node))
  | header {key : List Char} (hkey : IsBare key) :
      Wrote ('[' :: (key ++ [']', '\n'])) (.header (.table [] key))

/-- The characters of lines one after another, some of them empty. -/
inductive WroteAll : List Char → List Line → Prop where
  | nil : WroteAll [] []
  | blank {document : List Char} {lines : List Line} (h : WroteAll document lines) :
      WroteAll ('\n' :: document) lines
  | line {written document : List Char} {line : Line} {lines : List Line}
      (hline : Wrote written line) (h : WroteAll document lines) :
      WroteAll (written ++ document) (line :: lines)

theorem skipBlanks_of_not_blank {a : Char} (h : isBlank a = false) (cs : List Char) :
    skipBlanks (a :: cs) = a :: cs := by
  simp [skipBlanks, h]

theorem not_blank_of_bare {c : Char} (h : isBareKeyChar c = true) : isBlank c = false := by
  have hspace : c ≠ ' ' := ne_of_kind h (by decide)
  have htab : c ≠ '\t' := ne_of_kind h (by decide)
  simp [isBlank, hspace, htab]

/-- A bare key ends where the first character stands that it cannot have. -/
theorem readKey_bare {key : List Char} (h : IsBare key) {a : Char}
    (ha : isBareKeyChar a = false) (cs : List Char) :
    readKey (key ++ a :: cs) = some (key, a :: cs) := by
  obtain ⟨c, w, rfl⟩ := List.exists_cons_of_ne_nil h.ne_nil
  have hc := h.bare c List.mem_cons_self
  have htake : ((c :: w) ++ a :: cs).takeWhile isBareKeyChar = c :: w := by
    rw [List.takeWhile_append_of_pos h.bare]
    simp [ha]
  have hdrop : ((c :: w) ++ a :: cs).dropWhile isBareKeyChar = a :: cs := by
    rw [List.dropWhile_append_of_pos h.bare]
    simp [ha]
  rw [readKey, htake, hdrop]
  · exact fun _ => cons_ne_of_kind hc (by decide) _ _
  · exact fun _ => cons_ne_of_kind hc (by decide) _ _

theorem readPath_bare {key : List Char} (h : IsBare key) {a b : Char} (cs : List Char)
    {rest : List Char} (ha : isBareKeyChar a = false)
    (hnext : skipBlanks (a :: cs) = b :: rest) (hb : b ≠ '.') :
    readPath (key ++ a :: cs) = some (([], key), b :: rest) := by
  obtain ⟨c, w, rfl⟩ := List.exists_cons_of_ne_nil h.ne_nil
  have hstart : skipBlanks ((c :: w) ++ a :: cs) = (c :: w) ++ a :: cs :=
    skipBlanks_of_not_blank (not_blank_of_bare (h.bare c List.mem_cons_self)) _
  have hdotted : readDotted depthLimit ((c :: w) ++ a :: cs) = some ([c :: w], b :: rest) := by
    rw [depthLimit, readDotted, hstart, readKey_bare h ha]
    simp [hnext, hb]
  rw [readPath, hdotted]
  rfl

theorem readPair_wrote {key value : List Char} {node : Node} (hkey : IsBare key)
    (hvalue : Spells value node) (depth : Nat) (rest : List Char) :
    readPair (readValue depth) (key ++ ' ' :: '=' :: ' ' :: (value ++ '\n' :: rest)) =
      some (([], key, node), '\n' :: rest) := by
  have hpath := readPath_bare hkey (a := ' ') ('=' :: ' ' :: (value ++ '\n' :: rest)) (by decide)
    rfl (by decide)
  have hblank : skipBlanks (' ' :: (value ++ '\n' :: rest)) = value ++ '\n' :: rest := by
    obtain ⟨a, w, rfl, ha⟩ := hvalue.starts
    exact skipBlanks_of_not_blank ha _
  simp only [readPair, hpath, hblank, hvalue.reads, Option.map_some]

theorem readLine_wrote {written : List Char} {line : Line} (h : Wrote written line)
    (rest : List Char) : readLine (written ++ rest) = some (line, rest) := by
  cases h with
  | @pair key value node hkey hvalue =>
    have hpair := readPair_wrote hkey hvalue (depthLimit - 1) rest
    obtain ⟨c, w, rfl⟩ := List.exists_cons_of_ne_nil hkey.ne_nil
    have hc := hkey.bare c List.mem_cons_self
    simp only [List.cons_append, List.append_assoc, List.nil_append] at hpair ⊢
    rw [readLine, hpair]
    · rfl
    · exact fun _ => cons_ne_of_kind hc (by decide) _ _
    · exact fun _ => cons_ne_of_kind hc (by decide) _ _
  | @header key hkey =>
    have hpath := readPath_bare hkey (a := ']') ('\n' :: rest) (by decide) rfl (by decide)
    have hbracket : ∀ cs, key ++ ']' :: '\n' :: rest ≠ '[' :: cs := by
      obtain ⟨c, w, rfl⟩ := List.exists_cons_of_ne_nil hkey.ne_nil
      exact fun _ => cons_ne_of_kind (hkey.bare c List.mem_cons_self) (by decide) _ _
    simp only [List.cons_append, List.append_assoc, List.nil_append]
    rw [readLine, readHeader, hpath]
    · rfl
    · exact hbracket

/-! ## Documents -/

/-- A line begins with a bracket or a key, and with nothing that is passed over. -/
theorem Wrote.head {written : List Char} {line : Line} (h : Wrote written line) :
    ∃ a w, written = a :: w ∧ isBlank a = false ∧ a ≠ '#' ∧ a ≠ '\n' ∧ a ≠ '\r' ∧ a ≠ '\uFEFF' := by
  cases h with
  | @pair key value node hkey hvalue =>
    obtain ⟨c, w, rfl⟩ := List.exists_cons_of_ne_nil hkey.ne_nil
    have hc := hkey.bare c List.mem_cons_self
    exact ⟨c, _, rfl, not_blank_of_bare hc, ne_of_kind hc (by decide), ne_of_kind hc (by decide),
      ne_of_kind hc (by decide), ne_of_kind hc (by decide)⟩
  | header hkey => exact ⟨_, _, rfl, by decide, by decide, by decide, by decide, by decide⟩

theorem readLines_line {written : List Char} {line : Line} (h : Wrote written line) (fuel : Nat)
    (document : List Char) :
    readLines (fuel + 1) (written ++ document) = (readLines fuel document).map (line :: ·) := by
  have hread := readLine_wrote h document
  obtain ⟨a, w, rfl, hblank, hcomment, hline, hreturn, -⟩ := h.head
  rw [List.cons_append] at hread ⊢
  rw [readLines, skipBlanks_of_not_blank hblank]
  split
  · exact absurd ‹_› (List.cons_ne_nil _ _)
  · exact absurd (List.cons.inj ‹_›).1 hcomment
  · exact absurd (List.cons.inj ‹_›).1 hline
  · exact absurd (List.cons.inj ‹_›).1 hreturn
  · rw [hread]

theorem readLines_all {document : List Char} {lines : List Line} (h : WroteAll document lines)
    {fuel : Nat} (hfuel : document.length < fuel) : readLines fuel document = some lines := by
  induction h generalizing fuel with
  | nil =>
    obtain ⟨fuel, rfl⟩ := Nat.exists_eq_succ_of_ne_zero (by omega : fuel ≠ 0)
    rfl
  | blank h ih =>
    obtain ⟨fuel, rfl⟩ := Nat.exists_eq_succ_of_ne_zero (by omega : fuel ≠ 0)
    exact ih (by simp at hfuel; omega)
  | line hline h ih =>
    obtain ⟨fuel, rfl⟩ := Nat.exists_eq_succ_of_ne_zero (by omega : fuel ≠ 0)
    have hlength := hline.head
    rw [readLines_line hline, ih, Option.map_some]
    obtain ⟨a, w, rfl, -⟩ := hlength
    simp at hfuel
    omega

theorem skipMark_of_ne {a : Char} (h : a ≠ '\uFEFF') (cs : List Char) :
    skipMark (a :: cs) = a :: cs := by
  rw [skipMark.eq_def]
  split
  · exact absurd (List.cons.inj ‹_›).1 h
  · rfl

/-- A file of written lines is the tree that these lines make. -/
theorem read?_of_wroteAll {document : List Char} {lines : List Line}
    (h : WroteAll document lines) : read? document = assemble lines := by
  have hmark : skipMark document = document := by
    cases h with
    | nil => rfl
    | blank => exact skipMark_of_ne (by decide) _
    | line hline =>
      obtain ⟨a, w, rfl, -, -, -, -, hmark⟩ := hline.head
      exact skipMark_of_ne hmark _
  rw [read?, hmark, readLines_all h (Nat.lt_succ_self _), Option.bind_some]

end StampStore.Toml
