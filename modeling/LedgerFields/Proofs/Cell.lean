import LedgerFields.Cell
import LedgerFields.Proofs.Number.Signed
import LedgerFields.Proofs.Text.Trim

/-! The text of a number in a cell: a numeral, after a minus sign when the number is below zero. It
is read as a number of the same value, so that one text stands for all spellings of a value. -/

namespace LedgerFields.Cell

open Number

section

variable {x y : Float} {negative : Bool} {mantissa : Nat} {exponent : Int}

theorem toString_signed (negative : Bool) (n : Nat) :
    toString (if negative then -(n : Int) else n) =
      (if negative = true ∧ n ≠ 0 then "-" else "") ++ toString n := by
  cases negative with
  | false => exact String.empty_append.symm
  | true =>
    cases n with
    | zero => rfl
    | succ n => rfl

/-- The text of a finite number is a numeral for its magnitude, after a minus sign below zero. -/
theorem numberText_eq_sign (h : Binary64.ofFloat x = .finite negative mantissa exponent) :
    ∃ text y, readNumeral? text = some y ∧
      Binary64.ofFloat y = .finite false mantissa exponent ∧
      numberText x = (if negative = true ∧ mantissa ≠ 0 then "-" else "") ++ text := by
  have hplain (hmantissa : mantissa ≠ 0) : ∃ text y, readNumeral? text = some y ∧
      Binary64.ofFloat y = .finite false mantissa exponent ∧
      plainText x = (if negative = true ∧ mantissa ≠ 0 then "-" else "") ++ text := by
    obtain ⟨text, y, hread, hy, htext⟩ := plainText_eq_sign h
    refine ⟨text, y, hread, hy, ?_⟩
    rw [htext]
    simp [hmantissa]
  unfold numberText
  cases hwhole : wholeValue? mantissa exponent with
  | none =>
    simp only [h, hwhole]
    apply hplain
    rintro rfl
    rw [wholeValue?_zero] at hwhole
    cases hwhole
  | some n =>
    have hzero := eq_zero_iff_of_wholeValue? hwhole
    simp only [h, hwhole]
    by_cases hn : n < wholeBound
    · rw [if_pos hn]
      refine ⟨toString n, nearestFloat n 0, readNumeral?_toString n,
        ofFloat_wholeValue? h hwhole, ?_⟩
      rw [toString_signed]
      simp only [ne_eq, hzero]
    · rw [if_neg hn]
      apply hplain
      intro hmantissa
      rw [hzero.mpr hmantissa] at hn
      exact hn (by decide)

/-- The text of a finite number is read as a number of the same value. -/
theorem readFloat?_numberText (h : x.isFinite = true) :
    ∃ y, readFloat? (numberText x) = some y ∧ value? y = value? x := by
  obtain ⟨negative, mantissa, exponent, hx⟩ := isFinite_iff.mp h
  obtain ⟨text, y, hread, hy, htext⟩ := numberText_eq_sign hx
  rw [htext]
  by_cases hsign : negative = true ∧ mantissa ≠ 0
  · rw [if_pos hsign]
    refine ⟨y.neg, readFloat?_neg hread, ?_⟩
    rw [value?_eq (ofFloat_neg hy), value?_eq hx, hsign.1]
    rfl
  · rw [if_neg hsign, String.empty_append]
    refine ⟨y, readFloat?_of_readNumeral? hread, ?_⟩
    rw [value?_eq hy, value?_eq hx]
    by_cases hnegative : negative = true
    · obtain rfl : mantissa = 0 := not_not.mp fun hne => hsign ⟨hnegative, hne⟩
      simp
    · simp [hnegative]

/-- Finite numbers have one text just when they have one value. -/
theorem numberText_eq_iff (hx : x.isFinite = true) (hy : y.isFinite = true) :
    numberText x = numberText y ↔ value? x = value? y := by
  constructor
  · intro h
    obtain ⟨x', hread, hvalue⟩ := readFloat?_numberText hx
    obtain ⟨y', hread', hvalue'⟩ := readFloat?_numberText hy
    rw [h, hread', Option.some.injEq] at hread
    rw [← hvalue, ← hvalue', hread]
  · intro h
    obtain ⟨negative, mantissa, exponent, hx⟩ := isFinite_iff.mp hx
    obtain ⟨negative', mantissa', exponent', hy⟩ := isFinite_iff.mp hy
    obtain ⟨rfl, rfl, hsign⟩ := eq_of_value?_eq hx hy h
    rcases hsign with rfl | rfl
    · unfold numberText
      simp only [hx, hy, wholeValue?_zero]
      have hbound : 0 < wholeBound := by decide
      rw [if_pos hbound, if_pos hbound]
      cases negative <;> cases negative' <;> rfl
    · rw [eq_of_ofFloat_eq hx hy]

theorem numberText_ne_empty (h : x.isFinite = true) : numberText x ≠ "" := by
  obtain ⟨y, hread, -⟩ := readFloat?_numberText h
  intro hempty
  have hnone : readFloat? "" = none := by decide
  rw [hempty, hnone] at hread
  cases hread

/-- The text of a finite number has no blank. -/
theorem trim_numberText (h : x.isFinite = true) : Text.trim (numberText x) = numberText x := by
  obtain ⟨negative, mantissa, exponent, hx⟩ := isFinite_iff.mp h
  obtain ⟨text, y, hread, -, htext⟩ := numberText_eq_sign hx
  apply Text.trim_of_not_isBlank
  intro c hc
  rw [htext, String.toList_append, List.mem_append] at hc
  rcases hc with hsign | hc
  · split at hsign
    · obtain rfl : c = '-' := by simpa using hsign
      decide
    · simp at hsign
  · rcases (chars_of_readNumeral? hread).2 c hc with hdigit | rfl
    · exact Text.not_isBlank_of_isDigit hdigit
    · decide

end

end LedgerFields.Cell
