import LedgerFields.Proofs.Number.Finite
import LedgerFields.Proofs.Number.ScaledDecimal
import LedgerFields.Proofs.Number.Spacing
import Mathlib.Data.Nat.Prime.Basic
import Mathlib.Tactic.IntervalCases

/-! Rounding of amounts that have two decimal places at most. A double that is one is a number of
quarters, and its decimal has its value. On the way back the coefficient of the decimal is turned
into a double and divided again, and whether the amount comes out depends on how much of the
coefficient is lost there. -/

namespace LedgerFields.Number

/-- The decimal places that a number of quarters needs. -/
def quarterPlaces (quarters : Nat) : Nat :=
  if quarters % 4 = 0 then 0 else if quarters % 2 = 0 then 1 else 2

/-- The decimal of a number of quarters, with no more places than it needs. -/
def ofQuarters (quarters : Nat) : ScaledDecimal :=
  ⟨quarters * 10 ^ quarterPlaces quarters / 4, quarterPlaces quarters⟩

/-- What the coefficient loses as a double is, in units of the last decimal place, less than half of
what the double of the amount has to the next one. -/
def QuartersKept (quarters : Nat) : Prop :=
  distanceToDouble (ofQuarters quarters).coefficient * 2 ^ 55 <
    10 ^ quarterPlaces quarters * 2 ^ quarters.log2

instance (quarters : Nat) : Decidable (QuartersKept quarters) :=
  inferInstanceAs (Decidable (_ < _))

/-! ### The decimal of an amount -/

section

variable {quarters mantissa bits rest n : Nat}

theorem quarterPlaces_pos (h : quarters % 4 ≠ 0) : 0 < quarterPlaces quarters := by
  unfold quarterPlaces
  rw [if_neg h]
  split <;> decide

/-- The equation of an amount and a double below the whole ones. -/
theorem four_mul_mantissa (h : (mantissa * 2 ^ (Int.negSucc n) : ℚ) = quarters / 4) :
    4 * mantissa = quarters * 2 ^ (n + 1) := by
  rw [zpow_negSucc, ← div_eq_mul_inv, div_eq_div_iff (by positivity) (by norm_num), mul_comm] at h
  exact_mod_cast h

/-- A number of quarters in lowest terms. -/
theorem exists_numerator (quarters : Nat) :
    quarterPlaces quarters ≤ 2 ∧ ∃ bits, quarters = bits * 2 ^ (2 - quarterPlaces quarters) ∧
      (0 < quarterPlaces quarters → bits % 2 = 1) := by
  unfold quarterPlaces
  by_cases hwhole : quarters % 4 = 0
  · rw [if_pos hwhole]
    exact ⟨by omega, quarters / 4, by omega, fun h => absurd h (lt_irrefl 0)⟩
  rw [if_neg hwhole]
  by_cases hhalf : quarters % 2 = 0
  · rw [if_pos hhalf]
    exact ⟨by omega, quarters / 2, by omega, fun _ => by omega⟩
  · rw [if_neg hhalf]
    exact ⟨le_rfl, quarters, by omega, fun _ => by omega⟩

/-- The double `mantissa / 2 ^ n` is an amount, and in lowest terms it is `bits` over the power of
two that the decimal places make up. -/
structure LowestTerms (quarters mantissa n bits rest : Nat) : Prop where
  exponent_eq : n = quarterPlaces quarters + rest
  mantissa_eq : mantissa = bits * 2 ^ rest
  quarters_eq : quarters = bits * 2 ^ (2 - quarterPlaces quarters)
  odd : 0 < quarterPlaces quarters → bits % 2 = 1

theorem exists_lowestTerms (h : 4 * mantissa = quarters * 2 ^ n) (hn : 0 < n) :
    ∃ bits rest, LowestTerms quarters mantissa n bits rest := by
  obtain ⟨hplaces, bits, hbits, hodd⟩ := exists_numerator quarters
  have hle : quarterPlaces quarters ≤ n := by
    by_contra hlt
    obtain ⟨hplaces', rfl⟩ : quarterPlaces quarters = 2 ∧ n = 1 := by omega
    rw [hplaces'] at hbits hodd
    omega
  obtain ⟨rest, rfl⟩ := Nat.exists_eq_add_of_le hle
  refine ⟨bits, rest, rfl, ?_, hbits, hodd⟩
  have hpower : 2 ^ (2 - quarterPlaces quarters) * 2 ^ (quarterPlaces quarters + rest) =
      4 * 2 ^ rest := by
    rw [← pow_add, ← Nat.add_assoc, Nat.sub_add_cancel hplaces, pow_add]
    rfl
  nth_rewrite 1 [hbits] at h
  rw [mul_assoc, hpower, Nat.mul_left_comm] at h
  exact Nat.eq_of_mul_eq_mul_left (by decide) h

theorem LowestTerms.coefficient (h : LowestTerms quarters mantissa n bits rest) :
    (ofQuarters quarters).coefficient = bits * 5 ^ quarterPlaces quarters := by
  have hplaces := (exists_numerator quarters).1
  have hpower : 2 ^ (2 - quarterPlaces quarters) * 10 ^ quarterPlaces quarters =
      5 ^ quarterPlaces quarters * 4 := by
    rw [show 10 = 2 * 5 from rfl, mul_pow, ← mul_assoc, ← pow_add, Nat.sub_add_cancel hplaces,
      mul_comm]
    rfl
  show quarters * 10 ^ quarterPlaces quarters / 4 = _
  nth_rewrite 1 [h.quarters_eq]
  rw [mul_assoc, hpower, ← mul_assoc, Nat.mul_div_cancel _ (by decide)]

/-- Odd bits are multiplied by five at each step. -/
theorem divideByTwos_odd {power : Int} (hodd : 0 < n → bits % 2 = 1)
    (hroom : bits * 5 ^ n < coefficientBound) :
    divideByTwos n bits power = (bits * 5 ^ n, power - n) := by
  induction n generalizing bits power with
  | zero => simp [divideByTwos]
  | succ n ih =>
    have hbits := hodd n.succ_pos
    have hfive : bits * 5 ^ (n + 1) = bits * 5 * 5 ^ n := by ring
    have hstep : bits * 5 < coefficientBound :=
      lt_of_le_of_lt (Nat.le_mul_of_pos_right _ (Nat.pow_pos (by decide))) (hfive ▸ hroom)
    rw [divideByTwos, if_neg (by omega), if_pos hstep, ih (fun _ => by omega) (hfive ▸ hroom),
      hfive]
    congr 1
    push_cast
    ring

/-- An amount that is no whole double is brought into its decimal. -/
theorem LowestTerms.ofDouble? (h : LowestTerms quarters mantissa (n + 1) bits rest)
    (hmantissa : mantissa < 2 ^ 53) :
    ScaledDecimal.ofDouble? mantissa (.negSucc n) = some (ofQuarters quarters) := by
  have hplaces := (exists_numerator quarters).1
  have hbits : bits ≤ mantissa := by
    rw [h.mantissa_eq]
    exact Nat.le_mul_of_pos_right bits (Nat.two_pow_pos rest)
  have hroom : bits * 5 ^ quarterPlaces quarters < coefficientBound :=
    calc bits * 5 ^ quarterPlaces quarters ≤ bits * 5 ^ 2 :=
          Nat.mul_le_mul_left _ (Nat.pow_le_pow_right (by decide) hplaces)
      _ < coefficientBound := by rw [coefficientBound_eq]; omega
  have hdivide : divideByTwos (n + 1) mantissa 0 =
      ((ofQuarters quarters).coefficient, -(quarterPlaces quarters : Int)) := by
    rw [h.exponent_eq, h.mantissa_eq, divideByTwos_mul, divideByTwos_odd h.odd hroom,
      h.coefficient, zero_sub]
  show ScaledDecimal.ofPower? (divideByTwos (n + 1) mantissa 0).1
      (divideByTwos (n + 1) mantissa 0).2 =
    some ⟨(ofQuarters quarters).coefficient, quarterPlaces quarters⟩
  rw [hdivide]
  generalize (ofQuarters quarters).coefficient = coefficient
  interval_cases quarterPlaces quarters <;> rfl

/-- An amount is brought into its decimal, unless it is a whole number that is too great for one. -/
theorem ofDouble?_quarters {exponent : Int} (hcanonical : Canonical mantissa exponent)
    (h : (mantissa * 2 ^ exponent : ℚ) = quarters / 4) :
    ScaledDecimal.ofDouble? mantissa exponent = some (ofQuarters quarters) ∨
      ScaledDecimal.ofDouble? mantissa exponent = none ∧ quarters % 4 = 0 := by
  have hmantissa : mantissa < 2 ^ 53 := hcanonical.lt
  cases exponent with
  | ofNat k =>
    obtain rfl : quarters = 4 * (mantissa * 2 ^ k) := by
      rw [Int.ofNat_eq_natCast, zpow_natCast, eq_div_iff (by norm_num), mul_comm] at h
      exact_mod_cast h.symm
    have hwhole : 4 * (mantissa * 2 ^ k) % 4 = 0 := Nat.mul_mod_right 4 _
    rw [ofDouble?_ofNat mantissa k (hmantissa.trans (by decide))]
    split
    · left
      simp [ofQuarters, quarterPlaces]
    · exact .inr ⟨rfl, hwhole⟩
  | negSucc k =>
    have hquarters := four_mul_mantissa h
    obtain ⟨bits, rest, hterms⟩ := exists_lowestTerms hquarters k.succ_pos
    exact .inl (hterms.ofDouble? hmantissa)

end

/-! ### The way back -/

section

variable {quarters mantissa n : Nat} {exponent : Int}

/-- A decimal of which the whole part, the fraction and their sum are doubles. -/
theorem exists_toFloat_of_fraction {d : ScaledDecimal} {a b : ℚ} (hscale : d.scale ≠ 0)
    (hplaces : d.scale ≤ 2) (hcoefficient : d.coefficient < coefficientBound)
    (hwhole : value? (Float.ofNat (d.coefficient / 10 ^ d.scale)) = some a)
    (hfraction : value? (Float.ofNat (d.coefficient % 10 ^ d.scale) /
      Float.ofNat (10 ^ d.scale)) = some b) (hb : b ≠ 0)
    (hsum : ∀ x, IsRounded (a + b) x → value? x = some d.value) :
    ∃ mantissa exponent, Nearest d.coefficient mantissa exponent ∧
      IsRounded (mantissa * 2 ^ exponent / 10 ^ d.scale) d.toFloat := by
  have hunit : value? (Float.ofNat (10 ^ d.scale)) = some (10 ^ d.scale : ℚ) := by
    have hle : 10 ^ d.scale ≤ 10 ^ 2 := Nat.pow_le_pow_right (by decide) hplaces
    rw [value?_ofNat (Nat.lt_of_le_of_lt hle (by decide))]
    push_cast
    rfl
  have hexact : d.value * 10 ^ d.scale = d.coefficient :=
    div_mul_cancel₀ _ (by positivity)
  have hproduct := isRounded_mul (hsum _ (isRounded_add hwhole hfraction)) hunit
  rw [hexact] at hproduct
  have hrange : (d.coefficient : ℚ) < overflowBound := by
    have hcast : (d.coefficient : ℚ) < 2 ^ 96 := by exact_mod_cast hcoefficient
    linarith [lt_overflowBound]
  obtain ⟨mantissa, exponent, hnearest, hround⟩ := exists_roundHalfUp hproduct hrange
  have hnone : ¬(Float.ofNat (d.coefficient % 10 ^ d.scale) / Float.ofNat (10 ^ d.scale) == 0.0) =
      true := mt (beq_zero_iff hfraction).mp hb
  refine ⟨mantissa, exponent, hnearest, ?_⟩
  rw [ScaledDecimal.toFloat, if_neg hscale]
  dsimp only [Nat.pow_eq]
  rw [if_neg hnone]
  exact isRounded_div hround hunit (by positivity)

/-- The whole part of an amount and its places. -/
theorem coefficient_ofQuarters (h : quarters % 4 ≠ 0) :
    (ofQuarters quarters).coefficient / 10 ^ quarterPlaces quarters = quarters / 4 ∧
      4 * ((ofQuarters quarters).coefficient % 10 ^ quarterPlaces quarters) =
        quarters % 4 * 10 ^ quarterPlaces quarters := by
  have hplaces : quarterPlaces quarters = if quarters % 2 = 0 then 1 else 2 := if_neg h
  show quarters * 10 ^ quarterPlaces quarters / 4 / _ = _ ∧
    4 * (quarters * 10 ^ quarterPlaces quarters / 4 % _) = _
  rw [hplaces]
  split <;> omega

theorem four_mul_coefficient (quarters : Nat) :
    4 * (ofQuarters quarters).coefficient = quarters * 10 ^ quarterPlaces quarters := by
  show 4 * (quarters * 10 ^ quarterPlaces quarters / 4) = _
  unfold quarterPlaces
  split
  · omega
  · split <;> omega

theorem coefficient_le (quarters : Nat) : (ofQuarters quarters).coefficient ≤ 25 * quarters := by
  have hunit : 10 ^ quarterPlaces quarters ≤ 10 ^ 2 :=
    Nat.pow_le_pow_right (by decide) (exists_numerator quarters).1
  have hle := Nat.mul_le_mul_left quarters hunit
  rw [← four_mul_coefficient] at hle
  omega

/-- The decimal of an amount has its value. -/
theorem value_ofQuarters (quarters : Nat) : (ofQuarters quarters).value = quarters / 4 := by
  have hcast : (4 * (ofQuarters quarters).coefficient : ℚ) =
      quarters * 10 ^ quarterPlaces quarters := by
    exact_mod_cast four_mul_coefficient quarters
  rw [ScaledDecimal.value, div_eq_div_iff (by positivity) (by norm_num), mul_comm, hcast]
  rfl

theorem coefficient_of_whole (h : quarters % 4 = 0) :
    ((ofQuarters quarters).coefficient : ℚ) = quarters / 4 := by
  have hscale : (ofQuarters quarters).scale = 0 := if_pos h
  rw [← value_ofQuarters, ScaledDecimal.value, hscale, pow_zero, div_one]

/-- An amount that is no whole number is below the whole doubles. -/
theorem lt_of_not_whole (hcanonical : Canonical mantissa exponent)
    (h : (mantissa * 2 ^ exponent : ℚ) = quarters / 4) (hwhole : quarters % 4 ≠ 0) :
    exponent < 0 ∧ quarters < 4 * 2 ^ 53 := by
  cases exponent with
  | ofNat k =>
    rw [Int.ofNat_eq_natCast, zpow_natCast, eq_div_iff (by norm_num)] at h
    have hquarters : mantissa * 2 ^ k * 4 = quarters := by exact_mod_cast h
    omega
  | negSucc k =>
    refine ⟨Int.negSucc_lt_zero k, ?_⟩
    have hquarters := four_mul_mantissa h
    have hmantissa : mantissa < 2 ^ 53 := hcanonical.lt
    have hle := Nat.le_mul_of_pos_right quarters (Nat.two_pow_pos (k + 1))
    omega

/-- The places of an amount are one, two or three quarters, as a double too. -/
theorem value?_fraction (h : quarters % 4 ≠ 0) :
    value? (Float.ofNat ((ofQuarters quarters).coefficient % 10 ^ quarterPlaces quarters) /
      Float.ofNat (10 ^ quarterPlaces quarters)) = some ((quarters % 4 : Nat) / 4 : ℚ) := by
  have hunitPos : 0 < 10 ^ quarterPlaces quarters := Nat.pow_pos (by decide)
  have hunit : 10 ^ quarterPlaces quarters ≤ 10 ^ 2 :=
    Nat.pow_le_pow_right (by decide) (exists_numerator quarters).1
  have hmod := Nat.mod_lt (ofQuarters quarters).coefficient hunitPos
  have hquotient : (((ofQuarters quarters).coefficient % 10 ^ quarterPlaces quarters : Nat) : ℚ) /
      (10 ^ quarterPlaces quarters : Nat) = (quarters % 4 : Nat) / 4 := by
    rw [div_eq_div_iff (by positivity) (by norm_num), mul_comm]
    exact_mod_cast (coefficient_ofQuarters h).2
  generalize (ofQuarters quarters).coefficient % 10 ^ quarterPlaces quarters = rest
    at hmod hquotient ⊢
  have hrest := value?_ofNat (show rest < 2 * leastNormalMantissa by
    rw [leastNormalMantissa_eq]
    omega)
  have hunitValue := value?_ofNat (Nat.lt_of_le_of_lt hunit (by decide))
  have hfraction := isRounded_div hrest hunitValue (by positivity)
  rw [hquotient] at hfraction
  exact hfraction.value?_of_quarters (Nat.pos_of_ne_zero h) (by rw [leastNormalMantissa_eq]; omega)

/-- The coefficient of an amount is turned into a double, and that is divided again. -/
theorem exists_toFloat_ofQuarters (hcanonical : Canonical mantissa exponent)
    (h : (mantissa * 2 ^ exponent : ℚ) = quarters / 4) :
    ∃ mantissa' exponent', Nearest (ofQuarters quarters).coefficient mantissa' exponent' ∧
      IsRounded (mantissa' * 2 ^ exponent' / 10 ^ quarterPlaces quarters)
        (ofQuarters quarters).toFloat := by
  by_cases hwhole : quarters % 4 = 0
  · have hplaces : quarterPlaces quarters = 0 := if_pos hwhole
    have hvalue := (coefficient_of_whole hwhole).trans h.symm
    have hfloat : (ofQuarters quarters).toFloat = Float.ofNat (ofQuarters quarters).coefficient :=
      if_pos hplaces
    refine ⟨mantissa, exponent, ?_, ?_⟩
    · rw [hvalue]
      exact hcanonical.nearest
    · rw [hfloat, hplaces, pow_zero, div_one, ← hvalue]
      exact isRounded_ofNat _
  · obtain ⟨hexponent, hlt⟩ := lt_of_not_whole hcanonical h hwhole
    have hcoefficient : (ofQuarters quarters).coefficient < coefficientBound := by
      have := coefficient_le quarters
      rw [coefficientBound_eq]
      omega
    have hrest : ((quarters % 4 : Nat) : ℚ) / 4 ≠ 0 :=
      div_ne_zero (by exact_mod_cast hwhole) (by norm_num)
    refine exists_toFloat_of_fraction (a := (quarters / 4 : Nat)) (quarterPlaces_pos hwhole).ne'
      (exists_numerator quarters).1 hcoefficient ?_ (value?_fraction hwhole) hrest fun x hx => ?_
    · show value? (Float.ofNat (_ / 10 ^ quarterPlaces quarters)) = _
      rw [(coefficient_ofQuarters hwhole).1]
      exact value?_ofNat (by rw [leastNormalMantissa_eq]; omega)
    · have hparts : ((quarters / 4 : Nat) : ℚ) + (quarters % 4 : Nat) / 4 = quarters / 4 := by
        have hcast : (quarters : ℚ) = 4 * (quarters / 4 : Nat) + (quarters % 4 : Nat) := by
          exact_mod_cast (Nat.div_add_mod quarters 4).symm
        linarith
      rw [hparts] at hx
      rw [value_ofQuarters]
      refine hx.value?_of_canonical hcanonical (by omega) ?_
      rw [abs_of_nonneg (by positivity), h]

namespace LowestTerms

variable {bits rest : Nat}

theorem log2_eq (h : LowestTerms quarters mantissa n bits rest) (hnormal : 2 ^ 52 ≤ mantissa)
    (hmantissa : mantissa < 2 ^ 53) :
    rest ≤ 52 ∧ quarters.log2 = 52 - rest + (2 - quarterPlaces quarters) := by
  have hbits : bits ≠ 0 := by
    rintro rfl
    rw [h.mantissa_eq, Nat.zero_mul] at hnormal
    exact absurd hnormal (by decide)
  have hlog : mantissa.log2 = 52 := (Nat.log2_eq_iff (by omega)).mpr ⟨hnormal, hmantissa⟩
  rw [h.mantissa_eq, log2_mul_two_pow hbits] at hlog
  refine ⟨by omega, ?_⟩
  nth_rewrite 1 [h.quarters_eq]
  rw [log2_mul_two_pow hbits]
  omega

/-- The condition on an amount in units of its double. -/
theorem kept_iff (h : LowestTerms quarters mantissa n bits rest) (hnormal : 2 ^ 52 ≤ mantissa)
    (hmantissa : mantissa < 2 ^ 53) : QuartersKept quarters ↔
      distanceToDouble (ofQuarters quarters).coefficient * 2 ^ (rest + 1) <
        5 ^ quarterPlaces quarters := by
  obtain ⟨hrest, hlog⟩ := h.log2_eq hnormal hmantissa
  have hplaces := (exists_numerator quarters).1
  have hleft : 2 ^ 55 = 2 ^ (rest + 1) * 2 ^ (54 - rest) := by
    rw [← pow_add]
    congr 1
    omega
  have hright : 10 ^ quarterPlaces quarters * 2 ^ quarters.log2 =
      5 ^ quarterPlaces quarters * 2 ^ (54 - rest) := by
    rw [show 10 = 5 * 2 from rfl, mul_pow, mul_assoc, ← pow_add, hlog]
    congr 2
    omega
  rw [QuartersKept, hleft, hright, ← mul_assoc]
  exact Nat.mul_lt_mul_right (Nat.two_pow_pos _)

/-- The coefficient, as a double, divided again gives the double of the amount just when little of
it is lost. -/
theorem nearest_iff (h : LowestTerms quarters mantissa n bits rest)
    (hplaces : 0 < quarterPlaces quarters) (hcanonical : Canonical mantissa (-n))
    {mantissa' : Nat} {exponent' : Int}
    (hnearest : Nearest (ofQuarters quarters).coefficient mantissa' exponent') :
    Nearest (mantissa' * 2 ^ exponent' / 10 ^ quarterPlaces quarters) mantissa (-n) ↔
      distanceToDouble (ofQuarters quarters).coefficient * 2 ^ (rest + 1) <
        5 ^ quarterPlaces quarters := by
  have hdistance := hnearest.abs_sub
  rw [h.coefficient] at hdistance ⊢
  generalize (mantissa' * 2 ^ exponent' : ℚ) = rounded at hdistance ⊢
  generalize hlost : distanceToDouble (bits * 5 ^ quarterPlaces quarters) = lost at hdistance ⊢
  have hunits : rounded / 10 ^ quarterPlaces quarters / 2 ^ (-n : Int) - mantissa =
      (rounded - (bits * 5 ^ quarterPlaces quarters : Nat)) * 2 ^ rest /
        5 ^ quarterPlaces quarters := by
    rw [h.mantissa_eq, zpow_neg, zpow_natCast, h.exponent_eq, pow_add,
      show (10 : ℚ) = 2 * 5 by norm_num, mul_pow]
    push_cast
    field_simp
  have habs : |rounded / 10 ^ quarterPlaces quarters / 2 ^ (-n : Int) - mantissa| =
      lost * 2 ^ rest / 5 ^ quarterPlaces quarters := by
    rw [hunits, abs_div, abs_mul, hdistance, abs_of_pos (by positivity : (0 : ℚ) < 2 ^ rest),
      abs_of_pos (by positivity : (0 : ℚ) < 5 ^ quarterPlaces quarters)]
  have hhalf : |rounded / 10 ^ quarterPlaces quarters / 2 ^ (-n : Int) - mantissa| < 1 / 2 ↔
      lost * 2 ^ (rest + 1) < 5 ^ quarterPlaces quarters := by
    rw [habs, div_lt_div_iff₀ (by positivity) (by norm_num), mul_assoc, ← pow_succ, one_mul]
    exact_mod_cast Iff.rfl
  constructor
  · intro hquotient
    have hle : |rounded / 10 ^ quarterPlaces quarters / 2 ^ (-n : Int) - mantissa| ≤ 1 / 2 := by
      rw [abs_le]
      constructor <;> linarith [hquotient.halfEven.low, hquotient.halfEven.high]
    refine hhalf.mp (lt_of_le_of_ne hle fun htie => ?_)
    -- A tie would make a power of five even.
    rw [habs, div_eq_div_iff (by positivity) (by norm_num), one_mul] at htie
    have heven : lost * 2 ^ rest * 2 = 5 ^ quarterPlaces quarters := by exact_mod_cast htie
    have hodd : 5 ^ quarterPlaces quarters % 2 = 1 := by
      rw [Nat.pow_mod, Nat.one_pow]
    omega
  · intro hlt
    obtain ⟨hlow, hhigh⟩ := abs_lt.mp (hhalf.mpr hlt)
    refine ⟨hcanonical, .of_lt (by linarith) (by linarith), fun hpower _ => ?_⟩
    -- A power of two is one over a power of two, of which the coefficient is small.
    have hone : bits = 1 := by
      have hdvd : bits ∣ 2 ^ 52 :=
        ⟨2 ^ rest, by rw [← h.mantissa_eq, hpower, leastNormalMantissa_eq]⟩
      have hcoprime : Nat.Coprime bits (2 ^ 52) :=
        Nat.Coprime.pow_right 52 (Nat.coprime_two_right.mpr (Nat.odd_iff.mpr (h.odd hplaces)))
      exact hcoprime.eq_one_of_dvd hdvd
    have hnone : lost = 0 := by
      rw [← hlost, hone, Nat.one_mul]
      refine distanceToDouble_of_lt (Nat.lt_of_le_of_lt (Nat.pow_le_pow_right (by decide)
        (exists_numerator quarters).1) (by decide))
    rw [hnone, Nat.cast_zero, zero_mul, zero_div, abs_eq_zero, sub_eq_zero] at habs
    rw [habs, hpower]
    linarith

end LowestTerms

theorem quartersKept_of_distance (h : distanceToDouble (ofQuarters quarters).coefficient = 0) :
    QuartersKept quarters := by
  rw [QuartersKept, h, Nat.zero_mul]
  positivity

/-- An amount is kept when its hundredths are below 53 bits. -/
theorem quartersKept_of_lt (h : 25 * quarters < 2 ^ 53) : QuartersKept quarters := by
  have hle := coefficient_le quarters
  exact quartersKept_of_distance (distanceToDouble_of_lt (by omega))

/-- A whole amount is kept. -/
theorem quartersKept_of_whole (hcanonical : Canonical mantissa exponent)
    (h : (mantissa * 2 ^ exponent : ℚ) = quarters / 4) (hwhole : quarters % 4 = 0) :
    QuartersKept quarters := by
  have hexact := hcanonical.nearest
  rw [h, ← coefficient_of_whole hwhole] at hexact
  have hdistance := hexact.abs_sub
  rw [h, coefficient_of_whole hwhole, sub_self, abs_zero] at hdistance
  exact quartersKept_of_distance (by exact_mod_cast hdistance.symm)

/-- The decimal of an amount becomes the double of the amount again just when it is kept. -/
theorem value?_toFloat_ofQuarters (hcanonical : Canonical mantissa exponent)
    (hexponent : exponent < 972) (h : (mantissa * 2 ^ exponent : ℚ) = quarters / 4) :
    value? (ofQuarters quarters).toFloat = some (quarters / 4 : ℚ) ↔ QuartersKept quarters := by
  obtain ⟨mantissa', exponent', hnearest, hrounded⟩ := exists_toFloat_ofQuarters hcanonical h
  rw [← h, hrounded.value?_eq_iff (by positivity) hcanonical hexponent]
  by_cases hwhole : quarters % 4 = 0
  · have hplaces : quarterPlaces quarters = 0 := if_pos hwhole
    have hexact := hcanonical.nearest
    rw [h, ← coefficient_of_whole hwhole] at hexact
    obtain ⟨rfl, rfl⟩ := hnearest.unique hexact
    rw [hplaces, pow_zero, div_one]
    exact iff_of_true hcanonical.nearest (quartersKept_of_whole hcanonical h hwhole)
  · obtain ⟨k, rfl⟩ : ∃ k, exponent = .negSucc k :=
      Int.eq_negSucc_of_lt_zero (lt_of_not_whole hcanonical h hwhole).1
    have hmantissa : mantissa < 2 ^ 53 := hcanonical.lt
    have hquarters := four_mul_mantissa h
    have hnormal : 2 ^ 52 ≤ mantissa := by
      refine hcanonical.normal.resolve_left fun hleast => ?_
      have hk : k = 1073 := by
        rw [leastExponent] at hleast
        omega
      have hpower : 2 ^ 55 ≤ 2 ^ (k + 1) := Nat.pow_le_pow_right (by decide) (by omega)
      have hle := Nat.le_mul_of_pos_left (2 ^ (k + 1)) (show 0 < quarters by omega)
      omega
    obtain ⟨bits, rest, hterms⟩ := exists_lowestTerms hquarters k.succ_pos
    exact (hterms.nearest_iff (quarterPlaces_pos hwhole) hcanonical hnearest).trans
      (hterms.kept_iff hnormal hmantissa).symm

end

/-! ### Rounded amounts -/

section

variable {x y : Float} {a b : ℚ} {quarters mantissa : Nat} {exponent : Int}

/-- A double that is a number of hundredths is one of quarters, since it has no other decimals. -/
theorem exists_quarters {hundredths : Int} (hx : value? x = some a) (h : a = hundredths / 100) :
    ∃ quarters : Nat, |a| = quarters / 4 := by
  obtain ⟨sign, mantissa, exponent, -, -, -, rfl⟩ := exists_of_value? hx
  have hsign := abs_withSign sign (show (0 : ℚ) ≤ mantissa * 2 ^ exponent by positivity)
  have habs : (mantissa * 2 ^ exponent : ℚ) = hundredths.natAbs / 100 := by
    rw [← hsign, h, abs_div, Nat.cast_natAbs, Int.cast_abs]
    norm_num
  rw [hsign]
  cases exponent with
  | ofNat k =>
    refine ⟨4 * (mantissa * 2 ^ k), ?_⟩
    rw [Int.ofNat_eq_natCast, zpow_natCast]
    push_cast
    ring
  | negSucc k =>
    rw [zpow_negSucc, ← div_eq_mul_inv] at habs ⊢
    rw [div_eq_div_iff (by positivity) (by norm_num)] at habs
    have hmul : mantissa * 100 = hundredths.natAbs * 2 ^ (k + 1) := by exact_mod_cast habs
    have hdvd : 2 ^ (k + 1) ∣ 25 * (4 * mantissa) := by
      refine ⟨hundredths.natAbs, ?_⟩
      rw [mul_comm (2 ^ (k + 1)), ← hmul]
      ring
    obtain ⟨quarters, hquarters⟩ :=
      Nat.Coprime.dvd_of_dvd_mul_left (Nat.Coprime.pow_left (k + 1) (by decide)) hdvd
    refine ⟨quarters, ?_⟩
    rw [div_eq_div_iff (by positivity) (by norm_num)]
    rw [mul_comm, mul_comm (2 ^ (k + 1))] at hquarters
    exact_mod_cast hquarters

/-- The double, or the zero without a sign. -/
def unsignedZero (x : Float) : Float :=
  if x == 0.0 then 0.0 else x

theorem value?_zero : value? 0.0 = some 0 := by
  obtain ⟨a, ha⟩ := exists_value? isFinite_zero
  rw [ha, (beq_zero_iff ha).mp (by decide +kernel)]

theorem value?_one : value? 1 = some 1 := by
  have hone := value?_ofNat (show 1 < 2 * leastNormalMantissa by decide)
  rwa [Nat.cast_one] at hone

theorem value?_unsignedZero (h : value? x = some a) : value? (unsignedZero x) = some a := by
  unfold unsignedZero
  split
  · next hzero => rw [value?_zero, (beq_zero_iff h).mp hzero]
  · exact h

/-- Doubles have one value just when they are the same but for the sign of a zero. -/
theorem unsignedZero_eq_iff (hx : value? x = some a) (hy : value? y = some b) :
    unsignedZero x = unsignedZero y ↔ a = b := by
  constructor
  · intro h
    have hvalue := value?_unsignedZero hx
    rw [h, value?_unsignedZero hy] at hvalue
    exact (Option.some.inj hvalue).symm
  · rintro rfl
    by_cases hzero : a = 0
    · rw [unsignedZero, unsignedZero, if_pos ((beq_zero_iff hx).mpr hzero),
        if_pos ((beq_zero_iff hy).mpr hzero)]
    · rw [unsignedZero, unsignedZero, if_neg (mt (beq_zero_iff hx).mp hzero),
        if_neg (mt (beq_zero_iff hy).mp hzero)]
      obtain ⟨sign, mantissa, exponent, hx', -, -, hvalue⟩ := exists_of_value? hx
      obtain ⟨sign', mantissa', exponent', hy', -, -, -⟩ := exists_of_value? hy
      obtain ⟨rfl, rfl, hsign⟩ := eq_of_value?_eq hx' hy' (hx.trans hy.symm)
      have hmantissa : mantissa ≠ 0 := by
        rintro rfl
        exact hzero (by rw [hvalue]; simp [withSign])
      rw [← hsign.resolve_left hmantissa] at hy'
      exact eq_of_ofFloat_eq hx' hy'

theorem value?_add_zero (hx : value? x = some a) (hy : value? y = some 0) :
    value? (x + y) = some a := by
  have hsum := isRounded_add hx hy
  rw [add_zero] at hsum
  exact hsum.value?_eq_of_value? hx

theorem value?_mul_one (hx : value? x = some a) (hy : value? y = some 1) :
    value? (x * y) = some a := by
  have hproduct := isRounded_mul hx hy
  rw [mul_one] at hproduct
  exact hproduct.value?_eq_of_value? hx

/-- The rounded double has no negative zero. -/
theorem value?_roundHundredths {negative : Bool} {d : ScaledDecimal}
    (hx : Binary64.ofFloat x = .finite negative mantissa exponent)
    (hd : ScaledDecimal.ofDouble? mantissa exponent = some d)
    (h : value? (d.round 2).toFloat = some b) :
    value? (roundHundredths x) = some (if negative then -b else b) ∧
      unsignedZero (roundHundredths x) = roundHundredths x := by
  unfold roundHundredths
  rw [hx]
  simp only [hd]
  by_cases hzero : b = 0
  · rw [if_pos ((beq_zero_iff h).mpr hzero), hzero, neg_zero, ite_self, value?_zero]
    exact ⟨rfl, if_pos (by decide +kernel)⟩
  · rw [if_neg (mt (beq_zero_iff h).mp hzero)]
    cases negative with
    | false => exact ⟨h, if_neg (mt (beq_zero_iff h).mp hzero)⟩
    | true =>
      have hneg := value?_neg h
      exact ⟨hneg, if_neg (mt (beq_zero_iff hneg).mp (neg_ne_zero.mpr hzero))⟩

/-- An amount is left as it is by rounding, a zero apart that loses its sign, just when it is kept.
-/
theorem roundHundredths_eq_iff (hx : value? x = some a) (h : |a| = quarters / 4) :
    roundHundredths x = unsignedZero x ↔ QuartersKept quarters := by
  obtain ⟨sign, mantissa, exponent, hfloat, hcanonical, hexponent, rfl⟩ := exists_of_value? hx
  rw [abs_withSign sign (by positivity)] at h
  rcases ofDouble?_quarters hcanonical h with hd | ⟨hd, hwhole⟩
  · have hround : (ofQuarters quarters).round 2 = ofQuarters quarters :=
      if_pos (exists_numerator quarters).1
    obtain ⟨b, hb⟩ := exists_value? (isFinite_toFloat (coefficient_ofDouble?_lt hcanonical hd).le
      (exists_numerator quarters).1)
    obtain ⟨hvalue, hunsigned⟩ := value?_roundHundredths hfloat hd (hround ▸ hb)
    have hsign : (if isNegative sign then -b else b) = withSign sign (mantissa * 2 ^ exponent) ↔
        b = quarters / 4 := by
      rw [h]
      cases sign <;> simp [withSign, isNegative]
    rw [← hunsigned, unsignedZero_eq_iff hvalue hx, hsign,
      ← value?_toFloat_ofQuarters hcanonical hexponent h, hb, Option.some.injEq]
  · -- Beyond the decimals an amount is not rounded at all.
    have hround : roundHundredths x = x := by
      unfold roundHundredths
      rw [hfloat]
      simp only [hd]
    have hlarge := (ofDouble?_eq_none_iff hcanonical).mp hd
    have hne : withSign sign (mantissa * 2 ^ exponent) ≠ 0 := by
      rw [← abs_ne_zero, abs_withSign sign (by positivity)]
      linarith
    have hunsigned : unsignedZero x = x := if_neg (mt (beq_zero_iff hx).mp hne)
    rw [hround, hunsigned]
    exact iff_of_true rfl (quartersKept_of_whole hcanonical h hwhole)

end

end LedgerFields.Number
