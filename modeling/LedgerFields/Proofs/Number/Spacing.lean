import LedgerFields.Proofs.Number.Hundredths

/-! Whole numbers beyond 53 bits, which are doubles only at the ends of units of a power of two. A
whole number becomes the double at the nearer end, which is whole again. -/

namespace LedgerFields.Number

/-- How far a whole number is from the double nearest to it. From 53 bits on, the doubles are as far
apart as the power of two that stands for the bits beyond. -/
def distanceToDouble (n : Nat) : Nat :=
  let spacing := 2 ^ (n.log2 - 52)
  min (n % spacing) (spacing - n % spacing)

/-- A whole number of units nearest to `n` is as far from it as the nearer end of the unit that `n`
lies in. -/
theorem HalfEven.abs_sub {n units spacing : Nat} (hspacing : 0 < spacing)
    (h : HalfEven ((n : ℚ) / spacing) units) :
    |(units * spacing : ℚ) - n| = (min (n % spacing) (spacing - n % spacing) : Nat) := by
  have hpos : (0 : ℚ) < spacing := by exact_mod_cast hspacing
  have hlow : 2 * (units * spacing) ≤ 2 * n + spacing := by
    have := (le_div_iff₀ hpos).mp h.low
    have : (2 * (units * spacing) : ℚ) ≤ 2 * n + spacing := by linarith
    exact_mod_cast this
  have hhigh : 2 * n ≤ 2 * (units * spacing) + spacing := by
    have := (div_le_iff₀ hpos).mp h.high
    have : (2 * n : ℚ) ≤ 2 * (units * spacing) + spacing := by linarith
    exact_mod_cast this
  obtain ⟨rest, whole, hrest, rfl⟩ : ∃ rest whole, rest < spacing ∧ n = whole * spacing + rest :=
    ⟨n % spacing, n / spacing, Nat.mod_lt n hspacing, (Nat.div_add_mod' n spacing).symm⟩
  have hmod : (whole * spacing + rest) % spacing = rest := by
    rw [Nat.mul_add_mod_self_right, Nat.mod_eq_of_lt hrest]
  rw [hmod]
  -- Fewer units end before `n`, and more of them start behind it, by a unit at least.
  have hfewer : whole ≤ units := by
    by_contra hlt
    have := Nat.mul_le_mul_right spacing (Nat.lt_of_not_le hlt)
    rw [Nat.succ_mul] at this
    omega
  have hmore : units ≤ whole + 1 := by
    by_contra hlt
    have := Nat.mul_le_mul_right spacing (Nat.lt_of_not_le hlt)
    rw [Nat.succ_mul, Nat.succ_mul] at this
    omega
  obtain rfl | rfl : units = whole ∨ units = whole + 1 := by omega
  · rw [min_eq_left (show rest ≤ spacing - rest by omega)]
    push_cast
    rw [sub_add_cancel_left, abs_neg, abs_of_nonneg (Nat.cast_nonneg rest)]
  · rw [Nat.add_one_mul whole] at hlow hhigh
    have hle : (rest : ℚ) ≤ spacing := by exact_mod_cast hrest.le
    rw [min_eq_right (show spacing - rest ≤ rest by omega), Nat.cast_sub hrest.le]
    push_cast
    rw [add_one_mul, add_sub_add_left_eq_sub, abs_of_nonneg (by linarith)]

variable {n mantissa : Nat} {exponent : Int}

theorem distanceToDouble_of_lt (h : n < 2 ^ 53) : distanceToDouble n = 0 := by
  have hlog : n.log2 - 52 = 0 := by
    rcases Nat.eq_zero_or_pos n with rfl | hpos
    · simp
    · have := (Nat.log2_lt hpos.ne').mpr h
      omega
  rw [distanceToDouble, hlog, pow_zero, Nat.mod_one]
  rfl

/-- The double nearest to a whole number is at that distance from it. -/
theorem Nearest.abs_sub (h : Nearest n mantissa exponent) :
    |(mantissa * 2 ^ exponent : ℚ) - n| = distanceToDouble n := by
  rcases Nat.lt_or_ge n (2 ^ 53) with hfew | hmany
  · rw [distanceToDouble_of_lt hfew, Nat.cast_zero, abs_eq_zero, sub_eq_zero]
    rcases Nat.eq_zero_or_pos n with rfl | hpos
    · rw [Nat.cast_zero] at h ⊢
      obtain ⟨rfl, -⟩ := h.unique (nearest_zero le_rfl (two_zpow_pos _))
      simp
    · have hexact := (canonical_of_lt hpos hfew).nearest
      rw [value_of_lt hpos hfew] at hexact
      obtain ⟨rfl, rfl⟩ := h.unique hexact
      exact value_of_lt hpos hfew
  · have hpos : n ≠ 0 := by omega
    have hlog : 53 ≤ n.log2 := (Nat.le_log2 hpos).mpr hmany
    obtain ⟨bits, hbits⟩ := Nat.exists_eq_add_of_le (show 52 ≤ n.log2 by omega)
    have hspacing : 2 ^ (n.log2 - 52) = 2 ^ bits := by rw [hbits, Nat.add_sub_cancel_left]
    have hscale : Scale n bits := by
      have hlow : (2 : ℚ) ^ (n.log2 : Int) ≤ n := by
        rw [zpow_natCast]
        exact_mod_cast Nat.log2_self_le hpos
      have hhigh : (n : ℚ) < 2 ^ ((n.log2 : Int) + 1) := by
        exact_mod_cast Nat.lt_log2_self (n := n)
      have hscale := scale_of_zpow hlow hhigh
      rwa [leastExponent, max_eq_left (by omega), hbits, Nat.cast_add, Nat.cast_ofNat,
        add_sub_cancel_left] at hscale
    obtain ⟨units, hunits⟩ := exists_halfEven (r := (n : ℚ) / 2 ^ (bits : Int)) (by positivity)
    have hvalue : (mantissa * 2 ^ exponent : ℚ) = units * (2 ^ bits : Nat) := by
      rcases hscale.nearest hunits with ⟨-, hnearest⟩ | ⟨rfl, hnearest⟩
      · obtain ⟨rfl, rfl⟩ := h.unique hnearest
        simp
      · obtain ⟨rfl, rfl⟩ := h.unique hnearest
        rw [two_zpow_succ, zpow_natCast]
        push_cast
        ring
    have hdistance := HalfEven.abs_sub (n := n) (Nat.two_pow_pos bits)
      (by rw [zpow_natCast] at hunits; exact_mod_cast hunits)
    rw [hvalue, hdistance, distanceToDouble, hspacing]

theorem nearestWhole_of_wholeValue? {whole : Nat} (h : wholeValue? mantissa exponent = some whole) :
    nearestWhole mantissa exponent = whole := by
  cases exponent with
  | ofNat k => exact Option.some.inj h
  | negSucc k =>
    simp only [wholeValue?, Nat.pow_eq] at h
    split at h
    · next hmod =>
      obtain ⟨whole', rfl⟩ := Nat.dvd_of_mod_eq_zero hmod
      rw [Nat.mul_div_cancel_left _ (Nat.two_pow_pos _), Option.some.injEq] at h
      have hsum : 2 * (2 ^ (k + 1) * whole') + 2 ^ (k + 1) =
          2 ^ (k + 1) + 2 ^ (k + 2) * whole' := by
        ring
      simp only [nearestWhole, Nat.pow_eq]
      rw [hsum, Nat.add_mul_div_left _ _ (Nat.two_pow_pos _), h,
        Nat.div_eq_of_lt (Nat.pow_lt_pow_right (by decide) (by omega)), Nat.zero_add]
    · cases h

/-- What is left of a whole number as a double is whole, and rounds to itself. -/
theorem exists_roundHalfUp {x : Float} (h : IsRounded n x) (hn : (n : ℚ) < overflowBound) :
    ∃ mantissa exponent, Nearest n mantissa exponent ∧
      value? (roundHalfUp x) = some (mantissa * 2 ^ exponent : ℚ) := by
  obtain ⟨sign, mantissa, exponent, hnearest, hx, -, -⟩ := h
  rw [abs_of_nonneg (Nat.cast_nonneg n)] at hnearest
  have hexponent := hnearest.exponent_lt_iff.mpr hn
  rw [Binary64.ofCanonical, if_pos hexponent] at hx
  obtain ⟨whole, hwhole⟩ := Option.isSome_iff_exists.mp hnearest.isSome_wholeValue?
  have hvalue := value_of_wholeValue? hwhole
  have hround : roundHalfUp x = Float.ofNat whole := by
    rw [roundHalfUp, hx, ← nearestWhole_of_wholeValue? hwhole]
  refine ⟨mantissa, exponent, hnearest, ?_⟩
  rw [hround, hvalue]
  refine (isRounded_ofNat whole).value?_of_canonical hnearest.canonical hexponent ?_
  rw [abs_of_nonneg (Nat.cast_nonneg whole), hvalue]

/-- Few quarters are a double. -/
theorem IsRounded.value?_of_quarters {x : Float} (h : IsRounded (n / 4) x) (hpos : 0 < n)
    (hn : n < 2 * leastNormalMantissa) : value? x = some (n / 4 : ℚ) := by
  have hcanonical := canonical_of_lt hpos hn
  have hnormal := hcanonical.normal.resolve_left (by rw [leastExponent]; omega)
  have hlog := (Nat.log2_lt hpos.ne').mpr (show n < 2 ^ 53 from hn)
  have hquarters : Canonical (n * 2 ^ (52 - n.log2)) (n.log2 - 54) :=
    ⟨hcanonical.lt, by rw [leastExponent]; omega, .inr hnormal⟩
  refine h.value?_of_canonical hquarters (by omega) ?_
  have hvalue := value_of_lt hpos hn
  have hpower : (2 : ℚ) ^ ((n.log2 : Int) - 52) = 2 ^ ((n.log2 : Int) - 54) * 4 := by
    rw [show (4 : ℚ) = 2 ^ (2 : Int) by norm_num, ← zpow_add₀ (by norm_num)]
    congr 1
    ring
  rw [hpower, ← mul_assoc] at hvalue
  rw [abs_of_nonneg (by positivity), ← hvalue, mul_div_cancel_right₀ _ (by norm_num)]

/-- A number is rounded to the double that is nearest to it, and to no other. -/
theorem IsRounded.value?_eq_iff {q : ℚ} {x : Float} (h : IsRounded q x) (hq : 0 ≤ q)
    (hcanonical : Canonical mantissa exponent) (hexponent : exponent < 972) :
    value? x = some (mantissa * 2 ^ exponent : ℚ) ↔ Nearest q mantissa exponent := by
  obtain ⟨sign, mantissa', exponent', hnearest, hx, -, hpos⟩ := h
  rw [abs_of_nonneg hq] at hnearest
  constructor
  · intro hvalue
    obtain ⟨sign', mantissa'', exponent'', hx', hcanonical', -, hsame⟩ := exists_of_value? hvalue
    rw [hx', Binary64.ofCanonical] at hx
    split at hx
    · rw [Binary64.finite.injEq] at hx
      obtain ⟨-, rfl, rfl⟩ := hx
      have hmagnitude := congrArg abs hsame
      rw [abs_withSign _ (by positivity), abs_of_nonneg (by positivity)] at hmagnitude
      have hboth := hcanonical'.nearest
      rw [← hmagnitude] at hboth
      obtain ⟨rfl, rfl⟩ := hcanonical.nearest.unique hboth
      exact hnearest
    · cases hx
  · intro hnearest'
    obtain ⟨rfl, rfl⟩ := hnearest.unique hnearest'
    rw [Binary64.ofCanonical, if_pos hexponent] at hx
    rw [value?_eq hx]
    rcases hq.eq_or_lt with rfl | hlt
    · obtain ⟨rfl, -⟩ := hnearest.unique (nearest_zero le_rfl (two_zpow_pos _))
      simp
    · rw [hpos hlt]
      exact congrArg some (one_mul _)

end LedgerFields.Number
