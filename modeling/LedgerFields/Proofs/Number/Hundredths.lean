import LedgerFields.Number.Hundredths
import LedgerFields.Proofs.Number.Arithmetic
import Mathlib.Data.Nat.Cast.Order.Field

/-! Rounding to hundredths keeps doubles finite. The decimals on the way have coefficients of 96
bits, so that nothing that is made of them comes near the bound of the doubles. -/

namespace LedgerFields.Number

theorem fst_divideByTwos_lt {n bits : Nat} {power : Int} (h : bits < coefficientBound) :
    (divideByTwos n bits power).1 < coefficientBound := by
  induction n generalizing bits power with
  | zero => exact h
  | succ n ih =>
    unfold divideByTwos
    split
    · exact ih (by omega)
    · split
      · next hfits => exact ih hfits
      · exact ih (by omega)

theorem divideByFives_lt {n bits bits' : Nat} {power power' : Int} (h : bits < coefficientBound)
    (hdivide : divideByFives n bits power = some (bits', power')) : bits' < coefficientBound := by
  induction n generalizing bits power with
  | zero =>
    cases hdivide
    exact h
  | succ n ih =>
    unfold divideByFives at hdivide
    split at hdivide
    · exact ih (by omega) hdivide
    · split at hdivide
      · cases hdivide
      · exact ih (by omega) hdivide

theorem multiplyByTens_lt {n bits bits' : Nat} (h : bits < coefficientBound)
    (hmultiply : multiplyByTens n bits = some bits') : bits' < coefficientBound := by
  induction n generalizing bits with
  | zero =>
    cases hmultiply
    exact h
  | succ n ih =>
    unfold multiplyByTens at hmultiply
    split at hmultiply
    · next hfits => exact ih hfits hmultiply
    · cases hmultiply

theorem coefficient_dropPlaces_le (n bits : Nat) : (dropPlaces n bits).coefficient ≤ bits := by
  induction n generalizing bits with
  | zero => exact Nat.le_refl bits
  | succ n ih =>
    unfold dropPlaces
    split
    · exact Nat.zero_le bits
    · refine (ih _).trans ?_
      split <;> omega

/-- A decimal that a double is brought into has a coefficient of 96 bits. -/
theorem coefficient_ofPower?_lt {bits : Nat} {power : Int} {d : ScaledDecimal}
    (h : bits < coefficientBound) (hd : ScaledDecimal.ofPower? bits power = some d) :
    d.coefficient < coefficientBound := by
  unfold ScaledDecimal.ofPower? at hd
  split at hd
  · obtain ⟨bits', hbits, rfl⟩ := Option.map_eq_some_iff.mp hd
    exact multiplyByTens_lt h hbits
  · dsimp only at hd
    split at hd
    · cases hd
      exact h
    · cases hd
      exact Nat.lt_of_le_of_lt (coefficient_dropPlaces_le _ _) h

theorem coefficient_ofDouble?_lt {mantissa : Nat} {exponent : Int} {d : ScaledDecimal}
    (h : Canonical mantissa exponent) (hd : ScaledDecimal.ofDouble? mantissa exponent = some d) :
    d.coefficient < coefficientBound := by
  have hmantissa : mantissa < coefficientBound := Nat.lt_of_lt_of_le h.lt (by decide)
  unfold ScaledDecimal.ofDouble? at hd
  split at hd
  · obtain ⟨⟨bits, power⟩, hdivide, hd⟩ := Option.bind_eq_some_iff.mp hd
    exact coefficient_ofPower?_lt (divideByFives_lt hmantissa hdivide) hd
  · next n =>
    have hbits : (divideByTwos (n + 1) mantissa 0).1 < coefficientBound :=
      fst_divideByTwos_lt hmantissa
    exact coefficient_ofPower?_lt hbits hd

theorem divideHalfEven_le (numerator denominator : Nat) :
    divideHalfEven numerator denominator ≤ numerator / denominator + 1 := by
  unfold divideHalfEven
  dsimp only
  split <;> omega

theorem coefficient_round_lt {d : ScaledDecimal} (places : Nat)
    (h : d.coefficient < coefficientBound) :
    (d.round places).coefficient ≤ coefficientBound ∧ (d.round places).scale ≤ places := by
  unfold ScaledDecimal.round
  split
  · next hscale => exact ⟨Nat.le_of_lt h, hscale⟩
  · refine ⟨(divideHalfEven_le _ _).trans ?_, Nat.le_refl places⟩
    exact Nat.lt_of_le_of_lt (Nat.div_le_self _ _) h

variable {x : Float} {bound : ℚ}

theorem nearestWhole_le (mantissa : Nat) (exponent : Int) :
    (nearestWhole mantissa exponent : ℚ) ≤ mantissa * 2 ^ exponent + 1 := by
  cases exponent with
  | ofNat n =>
    have hwhole : ((nearestWhole mantissa (.ofNat n) : Nat) : ℚ) =
        mantissa * 2 ^ (Int.ofNat n) := by
      simp [nearestWhole]
    linarith
  | negSucc n =>
    have hdiv : ((nearestWhole mantissa (.negSucc n) : Nat) : ℚ) ≤
        ((2 * mantissa + 2 ^ (n + 1) : Nat) : ℚ) / ((2 ^ (n + 2) : Nat) : ℚ) := Nat.cast_div_le
    have hunits : ((2 * mantissa + 2 ^ (n + 1) : Nat) : ℚ) / ((2 ^ (n + 2) : Nat) : ℚ) =
        mantissa * 2 ^ (Int.negSucc n) + 1 / 2 := by
      rw [zpow_negSucc]
      push_cast
      have hpos : (2 : ℚ) ^ (n + 1) ≠ 0 := by positivity
      rw [pow_succ 2 (n + 1)]
      field_simp
    linarith

theorem isWithin_roundHalfUp (h : IsWithin bound x) (hbound : bound + 1 ≤ 2 ^ 200) :
    IsWithin (2 * (bound + 1)) (roundHalfUp x) := by
  obtain ⟨a, ha, hle⟩ := h
  obtain ⟨sign, mantissa, exponent, hx, -, -, rfl⟩ := exists_of_value? ha
  rw [abs_withSign sign (by positivity)] at hle
  have hround : roundHalfUp x = Float.ofNat (nearestWhole mantissa exponent) := by
    rw [roundHalfUp, hx]
  rw [hround]
  exact isWithin_ofNat ((nearestWhole_le _ _).trans (by linarith)) hbound

/-- The double of a decimal with two places at most is finite. -/
theorem isFinite_toFloat {d : ScaledDecimal} (h : d.coefficient ≤ coefficientBound)
    (hscale : d.scale ≤ 2) : d.toFloat.isFinite = true := by
  have hnat {n : Nat} (hn : n ≤ d.coefficient) : IsWithin (2 * 2 ^ 96) (Float.ofNat n) := by
    have hcast : (n : ℚ) ≤ 2 ^ 96 := by exact_mod_cast hn.trans h
    exact isWithin_ofNat hcast (by norm_num)
  unfold ScaledDecimal.toFloat
  split
  · exact (hnat le_rfl).isFinite
  dsimp only
  obtain ⟨unit, hunit⟩ : ∃ unit, Nat.pow 10 d.scale = unit := ⟨_, rfl⟩
  have hrange : 1 ≤ unit ∧ unit ≤ 100 := by
    rw [← hunit]
    exact ⟨Nat.pow_pos (by decide), Nat.pow_le_pow_right (by decide) hscale⟩
  rw [hunit]
  have hwhole : IsWithin (2 * 2 ^ 96) (Float.ofNat (d.coefficient / unit)) :=
    hnat (Nat.div_le_self _ _)
  split
  · exact hwhole.isFinite
  have hunitValue : value? (Float.ofNat unit) = some (unit : ℚ) :=
    value?_ofNat (Nat.lt_of_le_of_lt hrange.2 (by decide))
  have hunitPos : (1 : ℚ) ≤ unit := by exact_mod_cast hrange.1
  have hunitWithin : IsWithin 100 (Float.ofNat unit) := by
    refine ⟨unit, hunitValue, ?_⟩
    rw [abs_of_nonneg (by positivity)]
    exact_mod_cast hrange.2
  have hfraction := (hnat (Nat.mod_le d.coefficient unit)).div hunitValue hunitPos (by norm_num)
  have hscaled := (hwhole.add hfraction (by norm_num)).mul hunitWithin (by norm_num)
  have hrounded := (isWithin_roundHalfUp hscaled (by norm_num)).div hunitValue hunitPos
    (by norm_num)
  exact hrounded.isFinite

/-- A finite double that is rounded to hundredths is finite. -/
theorem isFinite_roundHundredths (h : x.isFinite = true) :
    (roundHundredths x).isFinite = true := by
  obtain ⟨negative, mantissa, exponent, hx⟩ := isFinite_iff.mp h
  unfold roundHundredths
  rw [hx]
  dsimp only
  split
  · exact h
  · next d hd =>
    have hlt := coefficient_ofDouble?_lt (toNat_toBits_of_finite hx).1 hd
    obtain ⟨hcoefficient, hscale⟩ := coefficient_round_lt 2 hlt
    have hmagnitude := isFinite_toFloat hcoefficient hscale
    split
    · decide +kernel
    · split
      · obtain ⟨_, _, _, hfinite⟩ := isFinite_iff.mp hmagnitude
        exact isFinite_iff.mpr ⟨_, _, _, ofFloat_neg hfinite⟩
      · exact hmagnitude

end LedgerFields.Number
