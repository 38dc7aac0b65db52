import LedgerFields.Formula.Evaluate
import LedgerFields.Proofs.Number.Quarters

/-! Amounts in formulas. Adding zero to an amount and multiplying it by one have the amount itself
as exact result, so that all that happens to it is the rounding. -/

namespace LedgerFields.Formula

open Number

variable {x y : Float} {a : ℚ}

/-- A double that has the value of an amount is rounded to it just when the amount is kept. -/
theorem roundHundredths_eq_unsignedZero_iff {quarters : Nat} (hx : value? x = some a)
    (hy : value? y = some a) (h : |a| = quarters / 4) :
    roundHundredths y = unsignedZero x ↔ QuartersKept quarters := by
  rw [(unsignedZero_eq_iff hx hy).mpr rfl]
  exact roundHundredths_eq_iff hy h

/-- Of a double that is a number of hundredths, and so of quarters: rounding leaves it as it is, a
zero apart that loses its sign, and so does adding zero and multiplying by one, just when the
amount is kept. Amounts whose hundredths are below 53 bits are kept, and whole amounts are. -/
theorem amount_unchanged_iff_kept (hundredths : Int) (hx : value? x = some a)
    (hamount : a = hundredths / 100) : ∃ quarters : Nat, |a| = quarters / 4 ∧
      (roundHundredths x = unsignedZero x ↔ QuartersKept quarters) ∧
      (∀ zero, value? zero = some 0 →
        (BinaryOp.add.apply x zero = .ok (unsignedZero x) ↔ QuartersKept quarters)) ∧
      (∀ one, value? one = some 1 →
        (BinaryOp.multiply.apply x one = .ok (unsignedZero x) ↔ QuartersKept quarters)) ∧
      (100 * |a| < 2 ^ 53 ∨ 4 ∣ quarters → QuartersKept quarters) := by
  obtain ⟨quarters, h⟩ := exists_quarters hx hamount
  refine ⟨quarters, h, roundHundredths_eq_iff hx h, fun zero hzero => ?_, fun one hone => ?_, ?_⟩
  · rw [BinaryOp.apply, Except.ok.injEq]
    exact roundHundredths_eq_unsignedZero_iff hx (value?_add_zero hx hzero) h
  · rw [BinaryOp.apply, Except.ok.injEq]
    exact roundHundredths_eq_unsignedZero_iff hx (value?_mul_one hx hone) h
  · rintro (hlt | hwhole)
    · rw [h] at hlt
      have hcast : (25 * quarters : ℚ) < 2 ^ 53 := by linarith
      exact quartersKept_of_lt (by exact_mod_cast hcast)
    · obtain ⟨sign, mantissa, exponent, -, hcanonical, -, rfl⟩ := exists_of_value? hx
      rw [abs_withSign sign (by positivity)] at h
      exact quartersKept_of_whole hcanonical h (Nat.mod_eq_zero_of_dvd hwhole)

theorem value?_hundredths_53_bits :
    value? 90071992547409.75 = some (9007199254740975 / 100) ∧
      value? 90071992547410.25 = some (9007199254741025 / 100) := by
  have hfew : Binary64.ofFloat 90071992547409.75 = .finite false 5764607523034224 (-6) := by
    decide +kernel
  have hmany : Binary64.ofFloat 90071992547410.25 = .finite false 5764607523034256 (-6) := by
    decide +kernel
  rw [value?_eq hfew, value?_eq hmany]
  norm_num

/-- The greatest amount of which the hundredths are below 53 bits is kept, and the next is not. -/
theorem amount_unchanged_sample :
    BinaryOp.add.apply 90071992547409.75 0.0 = .ok (unsignedZero 90071992547409.75) ∧
      BinaryOp.multiply.apply 90071992547410.25 1 ≠ .ok (unsignedZero 90071992547410.25) := by
  obtain ⟨hfew, hmany⟩ := value?_hundredths_53_bits
  obtain ⟨_, -, -, hadd, -, hkept⟩ :=
    amount_unchanged_iff_kept 9007199254740975 hfew (by norm_num)
  obtain ⟨quarters, hquarters, -, -, hmultiply, -⟩ :=
    amount_unchanged_iff_kept 9007199254741025 hmany (by norm_num)
  constructor
  · refine (hadd _ value?_zero).mpr (hkept (.inl ?_))
    rw [abs_of_pos (by norm_num)]
    norm_num
  · obtain rfl : quarters = 360287970189641 := by
      rw [abs_of_pos (by norm_num), div_eq_div_iff (by norm_num) (by norm_num)] at hquarters
      have hcast : (quarters * 100 : ℚ) = 360287970189641 * 100 := by linarith
      exact_mod_cast mul_right_cancel₀ (by norm_num) hcast
    exact fun h => absurd ((hmultiply _ value?_one).mp h) (by decide)

/-- Ninety trillions and a quarter are not left as they are. -/
theorem not_amount_unchanged : ¬∀ (x : Float) (a : ℚ) (hundredths : Int), value? x = some a →
    a = hundredths / 100 → roundHundredths x = unsignedZero x := by
  intro h
  have hround := h _ _ 9007199254741025 value?_hundredths_53_bits.2 (by norm_num)
  exact absurd hround (by decide +kernel)

end LedgerFields.Formula
