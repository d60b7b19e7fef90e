-- Strings in settings files. Whatever form a text is written in, and whatever it is made
-- of, it is read back, and what stands behind it is left alone.
import StampStore.Toml.Text

namespace StampStore.Toml

/-! ## Characters -/

theorem ne_of_kind {kind : Char → Bool} {c d : Char} (h : kind c = true) (hd : kind d = false) :
    c ≠ d := by
  rintro rfl
  rw [h] at hd
  cases hd

/-- Characters that begin in another kind are others. -/
theorem cons_ne_of_kind {kind : Char → Bool} {c d : Char} (h : kind c = true)
    (hd : kind d = false) (cs ds : List Char) : c :: cs ≠ d :: ds :=
  fun he => ne_of_kind h hd (List.cons.inj he).1

/-- A character can be seen, or is a tab, or has to be escaped. -/
theorem isVisible_iff {c : Char} : isVisible c = true ↔ c = '\t' ∨ isControl c = false := by
  simp only [isVisible, isControl, Bool.or_eq_true, decide_eq_true_eq, Bool.or_eq_false_iff,
    decide_eq_false_iff_not]
  by_cases htab : c = '\t'
  · simp [htab]
  · simp only [htab, false_or]
    omega

/-- The ways a character stands in a quoted string. -/
inductive Escaped (c : Char) : List Char → Prop where
  /-- Behind a backslash, by a letter or a sign for it. -/
  | short {e : Char} (h : shortEscape? e = some c) : Escaped c ['\\', e]
  /-- By its code point. -/
  | code {p q r s : Char} (h : codePoint? [p, q, r, s] = some c) : Escaped c ['\\', 'u', p, q, r, s]
  /-- By itself. -/
  | plain (hvisible : isVisible c = true) (hquote : c ≠ '"') (hslash : c ≠ '\\') : Escaped c [c]

theorem codePoint?_hexDigits :
    ∀ n < 0x80, codePoint? ['0', '0', hexDigit (n / 16), hexDigit (n % 16)] = some (Char.ofNat n) := by
  decide +kernel

theorem escaped_escape (c : Char) : Escaped c (escape c) := by
  unfold escape
  -- Seven characters have an escape of their own.
  iterate 7
    split
    · subst c
      exact .short rfl
  rename_i hquote hslash
  split
  · rename_i hcontrol
    have hsmall : c.toNat < 0x80 := by
      simp only [isControl, Bool.or_eq_true, decide_eq_true_eq] at hcontrol
      omega
    have hcode := codePoint?_hexDigits c.toNat hsmall
    rw [Char.ofNat_toNat] at hcode
    exact .code hcode
  · rename_i hcontrol
    exact .plain (isVisible_iff.mpr (Or.inr (by simpa using hcontrol))) hquote hslash

/-- What is written for a character of a quoted string does not begin with a quote or a line end. -/
theorem Escaped.head {c : Char} {written : List Char} (h : Escaped c written) :
    ∃ a w, written = a :: w ∧ a ≠ '"' ∧ a ≠ '\n' ∧ a ≠ '\r' := by
  cases h with
  | short h => exact ⟨_, _, rfl, by decide, by decide, by decide⟩
  | code h => exact ⟨_, _, rfl, by decide, by decide, by decide⟩
  | plain hvisible hquote hslash =>
    exact ⟨c, _, rfl, hquote, ne_of_kind hvisible (by decide), ne_of_kind hvisible (by decide)⟩

/-- A letter that starts a code point is no short escape. -/
theorem ne_of_shortEscape? {e x : Char} (h : shortEscape? e = some x) :
    e ≠ 'u' ∧ e ≠ 'U' ∧ e ≠ '\n' := by
  refine ⟨?_, ?_, ?_⟩
  · rintro rfl
    cases h
  · rintro rfl
    cases h
  · rintro rfl
    cases h

/-! ## One line -/

theorem readBasic_escaped {c : Char} {written : List Char} (h : Escaped c written)
    (cs : List Char) : readBasic (written ++ cs) = Parse.push c (readBasic cs) := by
  cases h with
  | short h =>
    obtain ⟨hu, hU, -⟩ := ne_of_shortEscape? h
    rw [List.cons_append, List.cons_append, List.nil_append, readBasic]
    · simp [h]
    · exact fun _ _ _ _ _ he => absurd he hu
    · exact fun _ _ _ _ _ _ _ _ _ he => absurd he hU
  | code h =>
    simp only [List.cons_append, List.nil_append]
    rw [readBasic]
    simp [h]
  | plain hvisible hquote hslash =>
    rw [List.cons_append, List.nil_append, readBasic.eq_def]
    simp [hvisible, hquote, hslash]

theorem readBasic_written (text rest : List Char) :
    readBasic (text.flatMap escape ++ '"' :: rest) = some (text, rest) := by
  induction text with
  | nil =>
    rw [List.flatMap_nil, List.nil_append, readBasic.eq_def]
    simp
  | cons c text ih =>
    rw [List.flatMap_cons, List.append_assoc, readBasic_escaped (escaped_escape c), ih]
    rfl

theorem readLiteral_written {text : List Char} (h : ∀ c ∈ text, isVisible c = true ∧ c ≠ '\'')
    (rest : List Char) : readLiteral (text ++ '\'' :: rest) = some (text, rest) := by
  induction text with
  | nil =>
    rw [List.nil_append, readLiteral]
    simp
  | cons c text ih =>
    obtain ⟨hvisible, hquote⟩ := h c List.mem_cons_self
    rw [List.cons_append, readLiteral, if_neg hquote, if_pos hvisible,
      ih fun c hc => h c (List.mem_cons_of_mem _ hc)]
    rfl

/-! ## The end of several lines -/

theorem closing_of_first_ne {quote a : Char} (h : a ≠ quote) (cs : List Char) :
    closing quote (a :: cs) = none := by
  cases cs <;> simp [closing, h]

theorem closing_of_second_ne {quote b : Char} (h : b ≠ quote) (a : Char) (cs : List Char) :
    closing quote (a :: b :: cs) = none := by
  simp [closing, h]

/-- The three quotes end the string on the line, with up to two more in front of them. -/
theorem closing_end {quote : Char} (h : quote ≠ '\n') (rest : List Char) :
    closing quote (quote :: quote :: '\n' :: rest) = some ([], '\n' :: rest) ∧
      closing quote (quote :: quote :: quote :: '\n' :: rest) = some ([quote], '\n' :: rest) ∧
      closing quote (quote :: quote :: quote :: quote :: '\n' :: rest) =
        some ([quote, quote], '\n' :: rest) := by
  have hne : '\n' ≠ quote := h.symm
  refine ⟨?_, ?_, ?_⟩
  · cases rest <;> simp [closing, hne]
  · simp [closing, hne]
  · simp [closing]

/-! ## Quoted, on several lines -/

theorem readBasicLines_newline (cs : List Char) :
    readBasicLines .text ('\n' :: cs) = Parse.push '\n' (readBasicLines .text cs) := by
  rw [readBasicLines.eq_def]
  simp

theorem readBasicLines_quote {cs : List Char} (h : closing '"' cs = none) :
    readBasicLines .text ('"' :: cs) = Parse.push '"' (readBasicLines .text cs) := by
  rw [readBasicLines.eq_def]
  simp [h]

theorem readBasicLines_closing {cs : List Char} {done : List Char × List Char}
    (h : closing '"' cs = some done) : readBasicLines .text ('"' :: cs) = some done := by
  rw [readBasicLines.eq_def]
  simp [h]

theorem readBasicLines_escaped {c : Char} {written : List Char} (h : Escaped c written)
    (cs : List Char) :
    readBasicLines .text (written ++ cs) = Parse.push c (readBasicLines .text cs) := by
  cases h with
  | short h =>
    obtain ⟨hu, hU, hline⟩ := ne_of_shortEscape? h
    rw [List.cons_append, List.cons_append, List.nil_append, readBasicLines]
    · simp [h]
    · exact fun _ _ _ _ _ he => absurd he hu
    · exact fun _ _ _ _ _ _ _ _ _ he => absurd he hU
    · exact fun _ he => absurd (List.cons.inj he).1 hline
  | code h =>
    simp only [List.cons_append, List.nil_append]
    rw [readBasicLines]
    simp [h]
  | plain hvisible hquote hslash =>
    have hline : c ≠ '\n' := ne_of_kind hvisible (by decide)
    have hreturn : c ≠ '\r' := ne_of_kind hvisible (by decide)
    rw [List.cons_append, List.nil_append, readBasicLines.eq_def]
    simp [hvisible, hquote, hslash, hline, hreturn]

/-- What is written for a text behind `run` quotes: nothing, another quote, or first something else. -/
theorem escapeLines_cases (run : Nat) (text : List Char) :
    text = [] ∨
      (∃ rest, run < 2 ∧ text = '"' :: rest ∧
        escapeLines run text = '"' :: escapeLines (run + 1) rest) ∨
      ∃ a w, escapeLines run text = a :: w ∧ a ≠ '"' := by
  cases text with
  | nil => exact Or.inl rfl
  | cons c text =>
    by_cases hquote : c = '"'
    · subst c
      by_cases hrun : run < 2
      · exact Or.inr (Or.inl ⟨text, hrun, rfl, by simp [escapeLines, hrun]⟩)
      · exact Or.inr (Or.inr
          ⟨'\\', '"' :: escapeLines 0 text, by simp [escapeLines, hrun], by decide⟩)
    · by_cases hline : c = '\n'
      · subst c
        exact Or.inr (Or.inr ⟨'\n', escapeLines 0 text, by simp [escapeLines], by decide⟩)
      · obtain ⟨a, w, hw, ha, -⟩ := (escaped_escape c).head
        exact Or.inr (Or.inr
          ⟨a, w ++ escapeLines 0 text, by simp [escapeLines, hquote, hline, hw], ha⟩)

theorem readBasicLines_written (run : Nat) (text rest : List Char) :
    readBasicLines .text (escapeLines run text ++ '"' :: '"' :: '"' :: '\n' :: rest) =
      some (text, '\n' :: rest) := by
  obtain ⟨hend, hone, htwo⟩ := closing_end (by decide : '"' ≠ '\n') rest
  induction text generalizing run with
  | nil => exact readBasicLines_closing hend
  | cons c text ih =>
    by_cases hquote : c = '"'
    · subst c
      by_cases hrun : run < 2
      · have hwritten : escapeLines run ('"' :: text) = '"' :: escapeLines (run + 1) text := by
          simp [escapeLines, hrun]
        rw [hwritten, List.cons_append]
        -- At most one more quote may follow before the text goes on, unless it ends here.
        rcases escapeLines_cases (run + 1) text with
          rfl | ⟨more, hmore, rfl, heq⟩ | ⟨a, w, heq, ha⟩
        · exact readBasicLines_closing hone
        · rcases escapeLines_cases (run + 2) more with
            rfl | ⟨-, hthird, -⟩ | ⟨b, w, heq', hb⟩
          · rw [heq]
            exact readBasicLines_closing htwo
          · omega
          · rw [readBasicLines_quote, ih]
            · rfl
            · rw [heq, heq']
              exact closing_of_second_ne hb _ _
        · rw [readBasicLines_quote, ih]
          · rfl
          · rw [heq]
            exact closing_of_first_ne ha _
      · have hwritten : escapeLines run ('"' :: text) = ['\\', '"'] ++ escapeLines 0 text := by
          simp [escapeLines, hrun]
        rw [hwritten, List.append_assoc, readBasicLines_escaped (.short rfl), ih]
        rfl
    · by_cases hline : c = '\n'
      · subst c
        rw [escapeLines, if_neg hquote, if_pos rfl, List.cons_append, readBasicLines_newline, ih]
        rfl
      · rw [escapeLines, if_neg hquote, if_neg hline, List.append_assoc,
          readBasicLines_escaped (escaped_escape c), ih]
        rfl

/-! ## Taken literally, on several lines -/

theorem readLiteralLines_quote {cs : List Char} (h : closing '\'' cs = none) :
    readLiteralLines ('\'' :: cs) = Parse.push '\'' (readLiteralLines cs) := by
  rw [readLiteralLines.eq_def]
  simp [h]

theorem readLiteralLines_closing {cs : List Char} {done : List Char × List Char}
    (h : closing '\'' cs = some done) : readLiteralLines ('\'' :: cs) = some done := by
  rw [readLiteralLines.eq_def]
  simp [h]

theorem readLiteralLines_other {c : Char} (h : isVisible c = true ∨ c = '\n') (hquote : c ≠ '\'')
    (cs : List Char) : readLiteralLines (c :: cs) = Parse.push c (readLiteralLines cs) := by
  rw [readLiteralLines.eq_def]
  rcases h with h | rfl
  · have hline : c ≠ '\n' := ne_of_kind h (by decide)
    have hreturn : c ≠ '\r' := ne_of_kind h (by decide)
    simp [h, hquote, hline, hreturn]
  · simp

theorem readLiteralLines_written {text : List Char}
    (h : ∀ c ∈ text, isVisible c = true ∨ c = '\n') {run : Nat}
    (hruns : runsWithin '\'' 2 run text = true) (rest : List Char) :
    readLiteralLines (text ++ '\'' :: '\'' :: '\'' :: '\n' :: rest) = some (text, '\n' :: rest) := by
  obtain ⟨hend, hone, htwo⟩ := closing_end (by decide : '\'' ≠ '\n') rest
  induction text generalizing run with
  | nil => exact readLiteralLines_closing hend
  | cons c text ih =>
    have htext : ∀ c ∈ text, isVisible c = true ∨ c = '\n' :=
      fun c hc => h c (List.mem_cons_of_mem _ hc)
    by_cases hquote : c = '\''
    · subst c
      simp only [runsWithin, if_true, Bool.and_eq_true, decide_eq_true_eq] at hruns
      obtain ⟨hrun, hruns⟩ := hruns
      rw [List.cons_append]
      cases text with
      | nil => exact readLiteralLines_closing hone
      | cons a text =>
        by_cases ha : a = '\''
        · subst a
          cases text with
          | nil => exact readLiteralLines_closing htwo
          | cons b text =>
            have hb : b ≠ '\'' := by
              rintro rfl
              simp only [runsWithin, if_true, Bool.and_eq_true, decide_eq_true_eq] at hruns
              omega
            rw [readLiteralLines_quote, ih htext hruns]
            · rfl
            · exact closing_of_second_ne hb _ _
        · rw [readLiteralLines_quote, ih htext hruns]
          · rfl
          · exact closing_of_first_ne ha _
    · simp only [runsWithin, hquote, if_false] at hruns
      rw [List.cons_append, readLiteralLines_other (h c List.mem_cons_self) hquote,
        ih htext hruns]
      rfl

/-! ## Any text -/

/-- The forms a text can be written in, with what they ask of it. -/
inductive Written (text : List Char) : List Char → Prop where
  | basic : Written text ('"' :: (text.flatMap escape ++ ['"']))
  | literal (h : ∀ c ∈ text, isVisible c = true ∧ c ≠ '\'') :
      Written text ('\'' :: (text ++ ['\'']))
  | basicLines :
      Written text ('"' :: '"' :: '"' ::
        ((if '\n' ∈ text then ['\n'] else []) ++ (escapeLines 0 text ++ ['"', '"', '"'])))
  | literalLines (h : ∀ c ∈ text, isVisible c = true ∨ c = '\n')
      (hruns : runsWithin '\'' 2 0 text = true) :
      Written text ('\'' :: '\'' :: '\'' ::
        ((if '\n' ∈ text then ['\n'] else []) ++ (text ++ ['\'', '\'', '\''])))

theorem visible_of_not_needsEscape {text : List Char} (h : needsEscape text = false) :
    ∀ c ∈ text, isVisible c = true ∨ c = '\n' := by
  intro c hc
  have hplain := List.any_eq_false.mp h c hc
  rw [isVisible_iff]
  by_cases htab : c = '\t'
  · exact Or.inl (Or.inl htab)
  · by_cases hline : c = '\n'
    · exact Or.inr hline
    · simp only [htab, hline, Bool.and_eq_true, bne_iff_ne, ne_eq, not_false_eq_true, and_true,
        Bool.not_eq_true] at hplain
      exact Or.inl (Or.inr hplain)

theorem plain_of_literal {text : List Char} (h : Form.of text = .literal) :
    needsEscape text = false ∧ '\n' ∉ text ∧ '\'' ∉ text := by
  simp only [Form.of] at h
  split at h
  · cases h
  split at h
  · rename_i hplain
    simp only [Bool.and_eq_true, Bool.not_eq_true', List.contains_eq_mem,
      decide_eq_false_iff_not] at hplain
    exact ⟨hplain.1.1, hplain.1.2, hplain.2⟩
  split at h
  · cases h
  split at h
  · cases h
  split at h <;> cases h

theorem plain_of_literalLines {text : List Char} (h : Form.of text = .literalLines) :
    needsEscape text = false ∧ runsWithin '\'' 2 0 text = true := by
  simp only [Form.of] at h
  split at h
  · cases h
  split at h
  · cases h
  split at h
  · cases h
  split at h
  · rename_i hplain
    simpa using hplain
  split at h <;> cases h

theorem written_writeText (text : List Char) : Written text (writeText text) := by
  simp only [writeText, List.contains_eq_mem, decide_eq_true_eq]
  cases hform : Form.of text with
  | basic => exact .basic
  | literal =>
    obtain ⟨hplain, hline, hquote⟩ := plain_of_literal hform
    refine .literal fun c hc => ⟨?_, fun he => hquote (he ▸ hc)⟩
    rcases visible_of_not_needsEscape hplain c hc with hvisible | rfl
    · exact hvisible
    · exact absurd hc hline
  | basicLines =>
    have h : Written text _ := .basicLines
    simpa using h
  | literalLines =>
    obtain ⟨hplain, hruns⟩ := plain_of_literalLines hform
    have h := Written.literalLines (visible_of_not_needsEscape hplain) hruns
    simpa using h

theorem skipLineEnd_of_ne {a : Char} (hline : a ≠ '\n') (hreturn : a ≠ '\r') (cs : List Char) :
    skipLineEnd (a :: cs) = a :: cs := by
  rw [skipLineEnd.eq_def]
  split
  · exact absurd (List.cons.inj ‹_›).1 hline
  · exact absurd (List.cons.inj ‹_›).1 hreturn
  · rfl

/-- The line end behind the opening is dropped, and no other character is. -/
theorem skipLineEnd_opening {text body : List Char}
    (h : '\n' ∉ text → ∃ a w, body = a :: w ∧ a ≠ '\n' ∧ a ≠ '\r') :
    skipLineEnd ((if '\n' ∈ text then ['\n'] else []) ++ body) = body := by
  by_cases hlines : '\n' ∈ text
  · rw [if_pos hlines]
    rfl
  · obtain ⟨a, w, rfl, hline, hreturn⟩ := h hlines
    rw [if_neg hlines]
    exact skipLineEnd_of_ne hline hreturn w

theorem head_escapeLines {text : List Char} (h : '\n' ∉ text) (rest : List Char) :
    ∃ a w, escapeLines 0 text ++ '"' :: rest = a :: w ∧ a ≠ '\n' ∧ a ≠ '\r' := by
  cases text with
  | nil => exact ⟨_, _, rfl, by decide, by decide⟩
  | cons c text =>
    have hline : c ≠ '\n' := fun he => h (he ▸ List.mem_cons_self)
    by_cases hquote : c = '"'
    · subst c
      exact ⟨_, _, rfl, by decide, by decide⟩
    · obtain ⟨a, w, hw, -, ha⟩ := (escaped_escape c).head
      simp only [escapeLines, hquote, hline, if_false, hw]
      exact ⟨a, _, rfl, ha⟩

theorem head_visible {text : List Char} (hvisible : ∀ c ∈ text, isVisible c = true ∨ c = '\n')
    (h : '\n' ∉ text) (rest : List Char) :
    ∃ a w, text ++ '\'' :: rest = a :: w ∧ a ≠ '\n' ∧ a ≠ '\r' := by
  cases text with
  | nil => exact ⟨_, _, rfl, by decide, by decide⟩
  | cons c text =>
    have hline : c ≠ '\n' := fun he => h (he ▸ List.mem_cons_self)
    have hc := (hvisible c List.mem_cons_self).resolve_right hline
    exact ⟨c, _, rfl, hline, ne_of_kind hc (by decide)⟩

/-- A text that is written at the end of a line is read back. -/
theorem readText_written {text written : List Char} (h : Written text written) (rest : List Char) :
    readText (written ++ '\n' :: rest) = some (text, '\n' :: rest) := by
  cases h with
  | basic =>
    simp only [List.cons_append, List.append_assoc, List.nil_append]
    rw [readText]
    · exact readBasic_written text _
    -- No text begins with two more quotes: an empty one ends with its line.
    · intro cs hcs
      cases text with
      | nil => simp at hcs
      | cons c text =>
        obtain ⟨a, w, hw, ha, -⟩ := (escaped_escape c).head
        simp only [List.flatMap_cons, hw, List.cons_append, List.cons.injEq] at hcs
        exact ha hcs.1
  | literal h =>
    simp only [List.cons_append, List.append_assoc, List.nil_append]
    rw [readText]
    · exact readLiteral_written h _
    · intro cs hcs
      cases text with
      | nil => simp at hcs
      | cons c text =>
        simp only [List.cons_append, List.cons.injEq] at hcs
        exact (h c List.mem_cons_self).2 hcs.1
  | basicLines =>
    simp only [List.cons_append, List.append_assoc, List.nil_append]
    rw [readText, skipLineEnd_opening fun hlines => head_escapeLines hlines _]
    exact readBasicLines_written 0 text rest
  | literalLines h hruns =>
    simp only [List.cons_append, List.append_assoc, List.nil_append]
    rw [readText, skipLineEnd_opening fun hlines => head_visible h hlines _]
    exact readLiteralLines_written h hruns rest

theorem readText_writeText (text rest : List Char) :
    readText (writeText text ++ '\n' :: rest) = some (text, '\n' :: rest) :=
  readText_written (written_writeText text) rest

end StampStore.Toml
