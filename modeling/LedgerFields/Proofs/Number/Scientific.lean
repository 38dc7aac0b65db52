import LedgerFields.Number.Numeral
import LedgerFields.Proofs.Number.Operations

/-! Digits with a power of ten as a double. There are two ways to it, one for few digits and small
powers, in which both are doubles, and one for all others; either gives the nearest double. -/

namespace LedgerFields.Number

open Float.Model Float.Model.UnpackedFloat

section

variable {x y : Float} {s t : Sign} {m n : Nat} {e f : Int}

theorem ofFloat_div (hx : Binary64.ofFloat x = .finite (isNegative s) m e)
    (hy : Binary64.ofFloat y = .finite (isNegative t) n f) (hm : 0 < m) (hn : 0 < n) :
    ∃ mantissa exponent, Nearest (m * 2 ^ e / (n * 2 ^ f)) mantissa exponent ∧
      Binary64.ofFloat (x / y) = .ofCanonical (isNegative (s / t)) mantissa exponent := by
  obtain ⟨mantissa, exponent, hnearest, hdiv⟩ :=
    div_nearest s t e f hm hn
  refine ⟨mantissa, exponent, hnearest, ?_⟩
  have hquotient : x / y = .ofModel (.pack (unpacked (s / t) mantissa exponent)) := by
    rw [← hdiv, ← unpack_of_pos hx hm, ← unpack_of_pos hy hn]
    rfl
  rw [hquotient, ofFloat_pack hnearest.canonical]

/-- A product of two doubles is the double nearest to the exact product. -/
theorem ofFloat_mul (hx : Binary64.ofFloat x = .finite (isNegative s) m e)
    (hy : Binary64.ofFloat y = .finite (isNegative t) n f) (hm : 0 < m) (hn : 0 < n) :
    ∃ mantissa exponent, Nearest (m * 2 ^ e * (n * 2 ^ f)) mantissa exponent ∧
      Binary64.ofFloat (x * y) = .ofCanonical (isNegative (s * t)) mantissa exponent := by
  have htarget := mul_exponent_le (toNat_toBits_of_finite hx).1 (toNat_toBits_of_finite hy).1 hm hn
  obtain ⟨mantissa, exponent, hnearest, hround⟩ := round_exact_nearest (s * t) htarget
  have hvalue : ((m * n : Nat) : ℚ) * 2 ^ (e + f) = m * 2 ^ e * (n * 2 ^ f) := by
    rw [zpow_add₀ (by norm_num)]
    push_cast
    ring
  refine ⟨mantissa, exponent, hvalue ▸ hnearest, ?_⟩
  have hproduct : x * y = .ofModel (.pack (unpacked (s * t) mantissa exponent)) := by
    rw [← hround]
    change Float.ofModel (.pack (UnpackedFloat.mul Format.binary64 x.toModel.unpack
      y.toModel.unpack)) = _
    rw [unpack_of_pos hx hm, unpack_of_pos hy hn]
    rfl
  rw [hproduct, ofFloat_pack hnearest.canonical]

end

/-- A whole number of at most 53 bits is turned into the double that is equal to it. -/
theorem ofFloat_toFloat {n : Nat} (hpos : 0 < n) (hlt : n < 2 * leastNormalMantissa) :
    Binary64.ofFloat n.toUInt64.toFloat =
      .finite false (n * 2 ^ (52 - n.log2)) (n.log2 - 52) := by
  obtain ⟨mantissa, exponent, hnearest, hround⟩ :=
    round_nearest (e := 0) .positive hpos
  have hcanonical := canonical_of_lt hpos hlt
  have hself := hcanonical.nearest
  rw [value_of_lt hpos hlt] at hself
  rw [zpow_zero, mul_one] at hnearest
  obtain ⟨rfl, rfl⟩ := hnearest.unique hself
  have hlt64 : n < 2 ^ 64 := lt_of_lt_of_le hlt (by decide)
  have hfloat : n.toUInt64.toFloat =
      .ofModel (.pack (UnpackedFloat.normalize Format.binary64 n 0 .positive)) := by
    have hnat : n.toUInt64.toNat = n := Nat.mod_eq_of_lt hlt64
    conv_rhs => rw [← hnat]
    rfl
  have hnormalize : UnpackedFloat.normalize Format.binary64 n 0 .positive =
      UnpackedFloat.round Format.binary64 .positive n 0 := by
    rw [UnpackedFloat.normalize, Int.compare_eq_gt.mpr (by exact_mod_cast hpos)]
    simp
  rw [hfloat, hnormalize, hround, ofFloat_pack hcanonical, Binary64.ofCanonical]
  have hlog := (Nat.log2_lt hpos.ne').mpr (show n < 2 ^ 53 from hlt)
  rw [if_pos (by omega)]
  rfl

/-- The powers of ten in the table are exact: five has few enough bits in each of them. -/
theorem ofFloat_powerOfTen : ∀ e : Fin Float.exactlyRepresentablePowersOfTen.size,
    Binary64.ofFloat Float.exactlyRepresentablePowersOfTen[e] =
      .finite false (5 ^ e.val * 2 ^ (52 - (5 ^ e.val).log2)) ((5 ^ e.val).log2 - 52 + e.val) := by
  decide +kernel

theorem value_powerOfTen {e : Nat} (he : e < 23) :
    ((5 ^ e * 2 ^ (52 - (5 ^ e).log2) : Nat) : ℚ) * 2 ^ (((5 ^ e).log2 : Int) - 52 + e) =
      10 ^ e := by
  have hlt : 5 ^ e < 2 * leastNormalMantissa :=
    lt_of_le_of_lt (Nat.pow_le_pow_right (by norm_num) (Nat.le_of_lt_succ he)) (by decide)
  rw [zpow_add₀ (by norm_num), ← mul_assoc, value_of_lt (Nat.pow_pos (by norm_num)) hlt,
    zpow_natCast]
  push_cast
  rw [← mul_pow]
  norm_num

theorem great_of_exponent {digits : Nat} {e : Int} (hpos : 0 < digits) (he : 2048 < e) :
    (2 : ℚ) ^ (1025 : Int) ≤ digits * 10 ^ e := by
  have hone : (1 : ℚ) ≤ digits := by exact_mod_cast hpos
  calc (2 : ℚ) ^ (1025 : Int) ≤ 10 ^ (1025 : Int) :=
        zpow_le_zpow_left₀ (by norm_num) (by norm_num) (by norm_num)
    _ ≤ 10 ^ e := zpow_le_zpow_right₀ (by norm_num) (by omega)
    _ ≤ digits * 10 ^ e := le_mul_of_one_le_left (by positivity) hone

theorem small_of_exponent {digits : Nat} {e : Int} (he : e < -(2048 + (digits.log2 : Int))) :
    (digits : ℚ) * 10 ^ e < 2 ^ (leastExponent - 1) := by
  have hdigits : (digits : ℚ) < 2 ^ ((digits.log2 : Int) + 1) := by
    exact_mod_cast Nat.lt_log2_self (n := digits)
  have hten : (10 : ℚ) ^ e ≤ 2 ^ e := by
    obtain ⟨k, rfl⟩ : ∃ k : Nat, e = -(k : Int) := ⟨(-e).toNat, by omega⟩
    rw [zpow_neg, zpow_neg, zpow_natCast, zpow_natCast]
    exact inv_anti₀ (by positivity) (pow_le_pow_left₀ (by norm_num) (by norm_num) k)
  calc (digits : ℚ) * 10 ^ e < 2 ^ ((digits.log2 : Int) + 1) * 10 ^ e :=
        mul_lt_mul_of_pos_right hdigits (by positivity)
    _ ≤ 2 ^ ((digits.log2 : Int) + 1) * 2 ^ e :=
        mul_le_mul_of_nonneg_left hten (two_zpow_pos _).le
    _ = 2 ^ ((digits.log2 : Int) + 1 + e) := (zpow_add₀ (by norm_num) _ _).symm
    _ ≤ 2 ^ (leastExponent - 1) :=
        zpow_le_zpow_right₀ (by norm_num) (by simp only [leastExponent]; omega)

/-- A whole number times a power of ten is rounded once, with room for its 53 bits. -/
theorem round_scaled_nearest {digits : Nat} (hpos : 0 < digits) (n : Nat) :
    ∃ mantissa exponent, Nearest (digits * 10 ^ (n : Int)) mantissa exponent ∧
      UnpackedFloat.roundWithAccuracy Format.binary64 .positive (digits * 2 ^ 53 * 10 ^ n) (-53)
        .exact = unpacked .positive mantissa exponent := by
  have hbits : 2 ^ 53 ≤ digits * 2 ^ 53 * 10 ^ n :=
    le_trans (Nat.le_mul_of_pos_left _ hpos) (Nat.le_mul_of_pos_right _ (by positivity))
  have hlog := (Nat.le_log2 (by omega)).mpr hbits
  have hvalue : (digits * 10 ^ (n : Int) : ℚ) =
      (digits * 2 ^ 53 * 10 ^ n : Nat) * 2 ^ (-53 : Int) := by
    rw [zpow_natCast]
    push_cast
    norm_num
    ring
  rw [hvalue]
  refine round_exact_nearest .positive ?_
  rw [targetExponent_eq, totalExponent]
  omega

/-- The way for all numbers: a product or a quotient of whole numbers is rounded once, unless the
exponent alone says that the number is infinite or vanishes. -/
theorem ofFloat_ofScientific_model (digits : Nat) (e : Int) :
    ∃ mantissa exponent, Nearest (digits * 10 ^ e) mantissa exponent ∧
      Binary64.ofFloat (.ofModel (.pack (UnpackedFloat.ofScientific Format.binary64 digits e))) =
        .ofCanonical false mantissa exponent := by
  have hq : (0 : ℚ) ≤ digits * 10 ^ e := by positivity
  have hzero (h : Nearest (digits * 10 ^ e) 0 leastExponent) := ofFloat_pack h.canonical .positive
  unfold UnpackedFloat.ofScientific
  by_cases hnone : digits = 0
  · have h : Nearest (digits * 10 ^ e) 0 leastExponent := by
      rw [hnone, Nat.cast_zero, zero_mul]
      exact nearest_zero le_rfl (two_zpow_pos _)
    rw [dif_pos hnone]
    exact ⟨_, _, h, hzero h⟩
  have hpos := Nat.pos_of_ne_zero hnone
  rw [dif_neg hnone, show (2 : Int) ^ Format.binary64.exponentBits = 2048 from rfl]
  by_cases hgreat : e > 2048
  · obtain ⟨mantissa, exponent, hnearest⟩ := exists_nearest hq
    have hexponent := hnearest.lt_exponent (great_of_exponent hpos hgreat)
    rw [if_pos hgreat]
    refine ⟨mantissa, exponent, hnearest, ?_⟩
    rw [Binary64.ofCanonical, if_neg (by omega)]
    exact ofFloat_packComponents .positive (-1#11) 0#52 rfl
  rw [if_neg hgreat]
  by_cases hsmall : e < -(2048 + (digits.log2 : Int))
  · have h := nearest_zero hq (small_of_exponent hsmall)
    rw [if_pos hsmall]
    exact ⟨_, _, h, hzero h⟩
  rw [if_neg hsmall]
  by_cases hsign : 0 ≤ e
  · rw [if_pos hsign]
    obtain ⟨n, rfl⟩ := Int.eq_ofNat_of_zero_le hsign
    obtain ⟨mantissa, exponent, hnearest, hround⟩ := round_scaled_nearest hpos n
    have hshift : digits <<< Format.binary64.mantissaBits = digits * 2 ^ 53 :=
      Nat.shiftLeft_eq _ _
    have hpack := ofFloat_pack hnearest.canonical .positive
    rw [← hshift] at hround
    rw [← hround] at hpack
    exact ⟨mantissa, exponent, hnearest, hpack⟩
  · rw [if_neg hsign]
    obtain ⟨k, rfl⟩ : ∃ k : Nat, e = -(k : Int) := ⟨(-e).toNat, by omega⟩
    obtain ⟨mantissa, exponent, hnearest, hdiv⟩ := div_nearest
      .positive .positive 0 0 hpos (show 0 < 10 ^ (- -(k : Int)).toNat by positivity)
    refine ⟨mantissa, exponent, ?_, ?_⟩
    · rw [zpow_neg, zpow_natCast, ← div_eq_mul_inv]
      simpa using hnearest
    · rw [hdiv]
      exact ofFloat_pack hnearest.canonical .positive

theorem ofFloat_ofScientific_zero : ∀ (negative : Bool) (e : Fin 23),
    Binary64.ofFloat (Float.ofScientific 0 negative e) = .finite false 0 leastExponent := by
  decide +kernel

/-- Digits with a power of ten are turned into the double nearest to their number. -/
theorem ofFloat_ofScientific (digits : Nat) (negative : Bool) (e : Nat) :
    ∃ mantissa exponent,
      Nearest (digits * 10 ^ (if negative then -(e : Int) else e)) mantissa exponent ∧
      Binary64.ofFloat (Float.ofScientific digits negative e) =
        .ofCanonical false mantissa exponent := by
  by_cases hfew : digits < 2 ^ 53 ∧ e ≤ 22
  · have he : e < 23 := Nat.lt_succ_of_le hfew.2
    rcases Nat.eq_zero_or_pos digits with rfl | hpos
    · refine ⟨0, leastExponent, ?_, ofFloat_ofScientific_zero negative ⟨e, he⟩⟩
      rw [Nat.cast_zero, zero_mul]
      exact nearest_zero le_rfl (two_zpow_pos _)
    have hx := ofFloat_toFloat hpos hfew.1
    have hy := ofFloat_powerOfTen ⟨e, he⟩
    have hyq := value_powerOfTen he
    have hypos : 0 < 5 ^ e * 2 ^ (52 - (5 ^ e).log2) :=
      Nat.mul_pos (Nat.pow_pos (by norm_num)) (Nat.two_pow_pos _)
    rw [Float.ofScientific, dif_pos hfew]
    cases negative with
    | true =>
      have h := ofFloat_div (s := .positive) (t := .positive) hx hy
        (Nat.mul_pos hpos (Nat.two_pow_pos _)) hypos
      rw [value_of_lt hpos hfew.1, hyq] at h
      rw [if_pos rfl, zpow_neg, zpow_natCast, ← div_eq_mul_inv]
      exact h
    | false =>
      have h := ofFloat_mul (s := .positive) (t := .positive) hx hy
        (Nat.mul_pos hpos (Nat.two_pow_pos _)) hypos
      rw [value_of_lt hpos hfew.1, hyq] at h
      rw [if_neg Bool.false_ne_true, zpow_natCast]
      exact h
  · have hslow := ofFloat_ofScientific_model digits (if negative then -(e : Int) else e)
    have heq : Float.ofScientific digits negative e =
        .ofModel (.pack (UnpackedFloat.ofScientific Format.binary64 digits
          (if negative then -(e : Int) else e))) := by
      rw [Float.ofScientific, dif_neg hfew]
      cases negative
      · rfl
      · rw [if_pos rfl, if_pos rfl, Int.negOfNat_eq]
        rfl
    rwa [heq]

/-- A numeral is read as the double nearest to its number. -/
theorem ofFloat_nearestFloat (digits : Nat) (e : Int) :
    ∃ mantissa exponent, Nearest (digits * 10 ^ e) mantissa exponent ∧
      Binary64.ofFloat (nearestFloat digits e) = .ofCanonical false mantissa exponent := by
  have h := ofFloat_ofScientific digits (decide (e < 0)) e.natAbs
  have hexponent : (if decide (e < 0) then -(e.natAbs : Int) else e.natAbs) = e := by
    by_cases he : e < 0
    · rw [if_pos (decide_eq_true he)]
      omega
    · rw [if_neg (mt of_decide_eq_true he)]
      omega
  rwa [hexponent] at h

end LedgerFields.Number
