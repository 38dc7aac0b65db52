import LedgerFields.Proofs.Formula.Rendering.RoundTrip
import LedgerFields.Proofs.Number.Signed

/-! References as authors write them: the name of a column, the separator, and the code of a row.
Such a text is one term, no numeral, and splits back into the name and the code. -/

namespace LedgerFields.Formula

/-- The text that refers to the cell of a column in the row with a code. -/
def Settings.reference (settings : Settings) (column code : String) : String :=
  column ++ settings.separator.toString ++ code

/-- The separator is no part of a number, and neither blank nor reserved. -/
structure Settings.PlainSeparator (settings : Settings) : Prop where
  not_isAlphanum : settings.separator.isAlphanum = false
  not_point : settings.separator ≠ '.'
  not_isBlank : Text.isBlank settings.separator = false
  not_reserved : settings.separator ∉ reservedChars

/-- A text of term characters without blanks, one at least. -/
structure Settings.IsWord (settings : Settings) (text : String) : Prop where
  ne_empty : text ≠ ""
  noBlank : ∀ c ∈ text.toList, Text.isBlank c = false
  isTermChar : ∀ c ∈ text.toList, settings.isTermChar c = true

/-- A word with which a term may start and that ends where the separator follows. -/
structure Settings.IsName (settings : Settings) (text : String) : Prop
    extends settings.IsWord text where
  starts : ∀ c ∈ text.toList.head?, c.isAlphanum = true
  noSeparator : settings.separator ∉ text.toList

theorem toList_reference (settings : Settings) (column code : String) :
    (settings.reference column code).toList =
      column.toList ++ settings.separator :: code.toList := by
  unfold Settings.reference
  rw [String.toList_append, String.toList_append, Char.toString_eq_singleton,
    String.toList_singleton, List.append_assoc, List.singleton_append]

section

variable {settings : Settings} {column code : String}

theorem Settings.PlainSeparator.isTermChar (h : settings.PlainSeparator) :
    settings.isTermChar settings.separator = true := by
  simp [Settings.isTermChar, h.not_reserved]

theorem Settings.IsWord.trim (h : settings.IsWord code) : Text.trim code = code :=
  Text.trim_of_not_isBlank h.noBlank

theorem Settings.IsWord.not_isBlankText (h : settings.IsWord code) :
    Text.isBlankText code = false := by
  obtain ⟨c, hc⟩ := List.exists_mem_of_ne_nil _ (mt String.toList_eq_nil_iff.mp h.ne_empty)
  exact List.all_eq_false.mpr ⟨c, hc, ne_true_of_eq_false (h.noBlank c hc)⟩

theorem legible_reference (hseparator : settings.PlainSeparator) (hcolumn : settings.IsName column)
    (hcode : settings.IsWord code) : settings.Legible (settings.reference column code) := by
  have hne : column.toList ≠ [] := mt String.toList_eq_nil_iff.mp hcolumn.ne_empty
  obtain ⟨c, word, hchars⟩ := List.exists_cons_of_ne_nil hne
  have hc : c.isAlphanum = true := hcolumn.starts c (by rw [hchars]; rfl)
  constructor
  · refine ⟨c, word ++ settings.separator :: code.toList, ?_, hc, ?_⟩
    · rw [toList_reference, hchars, List.cons_append]
    · refine List.forall_mem_append.mpr ⟨fun d hd => ?_, ?_⟩
      · exact hcolumn.isTermChar d (by rw [hchars]; exact List.mem_cons_of_mem c hd)
      · exact List.forall_mem_cons.mpr ⟨hseparator.isTermChar, hcode.isTermChar⟩
  · rw [toList_reference]
    refine List.forall_mem_append.mpr ⟨hcolumn.noBlank, ?_⟩
    exact List.forall_mem_cons.mpr ⟨hseparator.not_isBlank, hcode.noBlank⟩

theorem readNumeral?_reference (hseparator : settings.PlainSeparator) (column code : String) :
    Number.readNumeral? (settings.reference column code) = none := by
  rw [Option.eq_none_iff_forall_ne_some]
  intro x hread
  have hmem : settings.separator ∈ (settings.reference column code).toList := by
    rw [toList_reference]
    exact List.mem_append_right _ List.mem_cons_self
  -- A numeral holds digits and points only.
  rcases (Number.chars_of_readNumeral? hread).2 _ hmem with hdigit | hpoint
  · have halphanum := isAlphanum_of_isDigit hdigit
    rw [hseparator.not_isAlphanum] at halphanum
    cases halphanum
  · exact hseparator.not_point hpoint

theorem splitOnce?_reference (hcolumn : settings.separator ∉ column.toList) (code : String) :
    Text.splitOnce? settings.separator (settings.reference column code) = some (column, code) := by
  have hpass : ∀ c ∈ column.toList, (c != settings.separator) = true := fun c hc =>
    bne_iff_ne.mpr fun heq => hcolumn (heq ▸ hc)
  unfold Text.splitOnce?
  rw [toList_reference, List.dropWhile_append_of_pos hpass, List.takeWhile_append_of_pos hpass,
    List.dropWhile_cons_of_neg (by simp), List.takeWhile_cons_of_neg (by simp), List.append_nil]
  simp only [String.ofList_toList]

theorem parse_term {term : String} (hlegible : settings.Legible term)
    (hread : Number.readNumeral? term = none) :
    parse settings term = .ok (.reference term) := by
  have hterms : ∀ text, .term text ∈ [Token.term term] → settings.Legible text := by
    rintro text hmem
    obtain rfl : text = term := by simpa using hmem
    exact hlegible
  refine (parse_eq_ok_of_derives (.product (.factor (.unsigned (.reference hread)))) hterms ?_).mpr
    ⟨rfl, ?_, .inl rfl⟩
  · simp [Token.chars]
  · rw [openAtMost_cons_of_ne (by simp) (by simp)]
    exact .nil

/-- Two terms with a minus between them are read as a difference, which has the height 2. -/
theorem parse_subtraction {first second : String} (hfirst : settings.Legible first)
    (hsecond : settings.Legible second) (hreadFirst : Number.readNumeral? first = none)
    (hreadSecond : Number.readNumeral? second = none) (hdepth : 2 ≤ settings.maxDepth) :
    parse settings (first ++ "-" ++ second) =
      .ok (.binary .subtract (.reference first) (.reference second)) := by
  have hterm {term : String} (hread : Number.readNumeral? term = none) :
      Derives .product [.term term] (.reference term) := .factor (.unsigned (.reference hread))
  have hderives : Derives .sum ([.term first] ++ .op .subtract :: [.term second])
      (.binary .subtract (.reference first) (.reference second)) :=
    .added rfl (.product (hterm hreadFirst)) (hterm hreadSecond)
  have hterms : ∀ text, .term text ∈ [Token.term first] ++ .op .subtract :: [.term second] →
      settings.Legible text := by
    intro text hmem
    obtain rfl | rfl : text = first ∨ text = second := by simpa using hmem
    · exact hfirst
    · exact hsecond
  refine (parse_eq_ok_of_derives hderives hterms ?_).mpr ⟨rfl, ?_, .inr hdepth⟩
  · simp [Token.chars, BinaryOp.symbol]
  · simp only [List.singleton_append]
    rw [openAtMost_cons_of_ne (by simp) (by simp), openAtMost_cons_of_ne (by simp) (by simp),
      openAtMost_cons_of_ne (by simp) (by simp)]
    exact .nil

end

end LedgerFields.Formula
