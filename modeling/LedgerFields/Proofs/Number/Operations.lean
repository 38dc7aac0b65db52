import LedgerFields.Proofs.Number.Encoding

/-! Quotients, products and whole numbers as doubles: each is the double nearest to the exact
result. -/

namespace LedgerFields.Number

open Float.Model Float.Model.UnpackedFloat

theorem log2_mul_two_pow {n : Nat} (hn : n ≠ 0) (k : Nat) :
    (n * 2 ^ k).log2 = n.log2 + k := by
  have hpos : n * 2 ^ k ≠ 0 := Nat.mul_ne_zero hn (Nat.two_pow_pos k).ne'
  refine (Nat.log2_eq_iff hpos).mpr ⟨?_, ?_⟩
  · rw [pow_add]
    exact Nat.mul_le_mul_right _ (Nat.log2_self_le hn)
  · rw [Nat.add_right_comm, pow_add]
    exact Nat.mul_lt_mul_of_pos_right Nat.lt_log2_self (Nat.two_pow_pos k)

theorem keeps_exact {n : Nat} {r : ℚ} (h : r = n) :
    Keeps (.ofMantissaAndAccuracy n .exact) r := h

/-- A whole quotient with its remainder says how the quotient lies to the middle of its unit. -/
theorem keeps_div {a b : Nat} (hb : 0 < b) :
    Keeps (.ofMantissaAndAccuracy (a / b) (accuracyOfFraction (a % b) b)) (a / b : ℚ) := by
  have hbq : (0 : ℚ) < b := by exact_mod_cast hb
  have hsplit : (a : ℚ) = b * (a / b : Nat) + (a % b : Nat) := by
    exact_mod_cast (Nat.div_add_mod a b).symm
  have hmod : ((a % b : Nat) : ℚ) < b := by exact_mod_cast Nat.mod_lt a hb
  unfold accuracyOfFraction
  by_cases hzero : a % b = 0
  · rw [if_pos hzero]
    refine keeps_exact ?_
    rw [div_eq_iff hbq.ne', hsplit, hzero]
    push_cast
    ring
  · have hpos : (0 : ℚ) < (a % b : Nat) := by exact_mod_cast Nat.pos_of_ne_zero hzero
    rw [if_neg hzero]
    cases hcompare : compare (2 * (a % b)) b with
    | lt =>
      have : 2 * ((a % b : Nat) : ℚ) < b := by exact_mod_cast Nat.compare_eq_lt.mp hcompare
      refine ⟨(lt_div_iff₀ hbq).mpr ?_, (div_lt_iff₀ hbq).mpr ?_⟩ <;> linarith
    | eq =>
      have : 2 * ((a % b : Nat) : ℚ) = b := by exact_mod_cast Nat.compare_eq_eq.mp hcompare
      refine (div_eq_iff hbq.ne').mpr ?_
      linarith
    | gt =>
      have : (b : ℚ) < 2 * ((a % b : Nat) : ℚ) := by exact_mod_cast Nat.compare_eq_gt.mp hcompare
      refine ⟨(lt_div_iff₀ hbq).mpr ?_, (div_lt_iff₀ hbq).mpr ?_⟩ <;> linarith

section

variable {m₁ m₂ : Nat}

/-- The whole quotient of the mantissas, the first of which has been given enough bits. -/
theorem divCore_eq (m₁ m₂ : Nat) (e₁ e₂ : Int) : ∃ (s : Nat) (e : Int), (s : Int) = e₁ - e₂ - e ∧
    e = min (e₁ - e₂) (max (m₁.log2 + e₁ - (m₂.log2 + e₂) - 53) leastExponent) ∧
    divCore Format.binary64 m₁ e₁ m₂ e₂ =
      (m₁ * 2 ^ s / m₂, e, accuracyOfFraction (m₁ * 2 ^ s % m₂) m₂) := by
  refine ⟨_, _, ?_, ?_, by simp only [divCore, Nat.shiftLeft_eq]; rfl⟩
  · omega
  · rw [targetExponent_eq, totalExponent, totalExponent]
    congr 2
    ring

/-- A quotient of two doubles is the double nearest to the exact quotient. -/
theorem div_nearest (s₁ s₂ : Sign) (e₁ e₂ : Int) (h₁ : 0 < m₁) (h₂ : 0 < m₂) :
    ∃ mantissa exponent,
      Nearest (m₁ * 2 ^ e₁ / (m₂ * 2 ^ e₂)) mantissa exponent ∧
      UnpackedFloat.div Format.binary64 (.finite s₁ m₁ e₁ h₁) (.finite s₂ m₂ e₂ h₂) =
        unpacked (s₁ / s₂) mantissa exponent := by
  obtain ⟨s, e, hs, he, hcore⟩ := divCore_eq m₁ m₂ e₁ e₂
  unfold UnpackedFloat.div
  simp only [hcore]
  refine roundWithAccuracy_nearest (s₁ / s₂) ?_ ?_
  · have hunit : (2 : ℚ) ^ e₁ = 2 ^ s * 2 ^ e₂ * 2 ^ e := by
      rw [← zpow_natCast, ← zpow_add₀ (by norm_num), ← zpow_add₀ (by norm_num)]
      congr 1
      omega
    have hquotient : (m₁ * 2 ^ e₁ / (m₂ * 2 ^ e₂) / 2 ^ e : ℚ) =
        (m₁ * 2 ^ s : Nat) / m₂ := by
      have hm₂ : (m₂ : ℚ) ≠ 0 := by exact_mod_cast h₂.ne'
      have he₂ := (two_zpow_pos e₂).ne'
      have he := (two_zpow_pos e).ne'
      rw [hunit]
      push_cast
      field_simp
    rw [hquotient]
    exact keeps_div h₂
  · rw [targetExponent_eq, totalExponent]
    rcases le_or_gt e leastExponent with hle | hlt
    · exact le_max_of_le_right hle
    · -- The quotient has 53 bits, since the shift makes up for a lesser mantissa.
      have hbits : 2 ^ 52 ≤ m₁ * 2 ^ s / m₂ := by
        rw [Nat.le_div_iff_mul_le h₂]
        calc 2 ^ 52 * m₂ ≤ 2 ^ 52 * 2 ^ (m₂.log2 + 1) :=
              Nat.mul_le_mul_left _ (Nat.lt_log2_self).le
          _ ≤ 2 ^ (m₁.log2 + s) := by
              rw [← pow_add]
              exact Nat.pow_le_pow_right (by norm_num) (by omega)
          _ = 2 ^ m₁.log2 * 2 ^ s := pow_add _ _ _
          _ ≤ m₁ * 2 ^ s := Nat.mul_le_mul_right _ (Nat.log2_self_le h₁.ne')
      have hlog := (Nat.le_log2 (by omega)).mpr hbits
      omega

/-- A product of which the exponent is not beyond the target is the double nearest to it. -/
theorem round_exact_nearest (sign : Sign) {m : Nat} {e : Int}
    (he : e ≤ Format.binary64.targetExponent (totalExponent m e)) :
    ∃ mantissa exponent, Nearest (m * 2 ^ e) mantissa exponent ∧
      roundWithAccuracy Format.binary64 sign m e .exact = unpacked sign mantissa exponent :=
  roundWithAccuracy_nearest sign
    (keeps_exact (mul_div_cancel_right₀ _ (two_zpow_pos e).ne')) he

/-- A number is made a double by bringing its mantissa to 53 bits first. -/
theorem round_nearest (sign : Sign) {m : Nat} {e : Int} (hm : 0 < m) :
    ∃ mantissa exponent, Nearest (m * 2 ^ e) mantissa exponent ∧
      UnpackedFloat.round Format.binary64 sign m e = unpacked sign mantissa exponent := by
  obtain ⟨s, hs⟩ : ∃ s, (e - Format.binary64.targetExponent (totalExponent m e)).toNat = s :=
    ⟨_, rfl⟩
  have hround : UnpackedFloat.round Format.binary64 sign m e =
      roundWithAccuracy Format.binary64 sign (m * 2 ^ s) (e - s) .exact := by
    simp only [UnpackedFloat.round, decreaseExponent, hs, Nat.shiftLeft_eq]
  have hvalue : (m * 2 ^ e : ℚ) = (m * 2 ^ s : Nat) * 2 ^ (e - s) := by
    push_cast
    rw [mul_assoc, ← zpow_natCast, ← zpow_add₀ (by norm_num)]
    congr 2
    ring
  rw [hround, hvalue]
  refine round_exact_nearest sign ?_
  rw [targetExponent_eq, totalExponent] at hs ⊢
  rw [log2_mul_two_pow hm.ne']
  omega

end

theorem Canonical.nearest {mantissa : Nat} {exponent : Int} (h : Canonical mantissa exponent) :
    Nearest (mantissa * 2 ^ exponent) mantissa exponent := by
  have hvalue : (mantissa * 2 ^ exponent / 2 ^ exponent : ℚ) = mantissa :=
    mul_div_cancel_right₀ _ (two_zpow_pos exponent).ne'
  refine ⟨h, .of_eq hvalue, fun hnormal _ => ?_⟩
  rw [hvalue, hnormal]
  linarith

/-- A product of two doubles has 53 bits, or no more places than the doubles allow. -/
theorem mul_exponent_le {m n : Nat} {e f : Int} (hm : Canonical m e) (hn : Canonical n f)
    (hmpos : 0 < m) (hnpos : 0 < n) :
    e + f ≤ Format.binary64.targetExponent (totalExponent (m * n) (e + f)) := by
  have hbits (h : leastNormalMantissa ≤ m * n) : 52 ≤ (m * n).log2 :=
    (Nat.le_log2 (Nat.mul_pos hmpos hnpos).ne').mpr h
  rw [targetExponent_eq, totalExponent]
  rcases hm.normal with he | hnormal
  · rcases hn.normal with hf | hnormal
    · rw [he, hf]
      simp only [leastExponent]
      omega
    · have := hbits (le_trans hnormal (Nat.le_mul_of_pos_left n hmpos))
      omega
  · have := hbits (le_trans hnormal (Nat.le_mul_of_pos_right m hnpos))
    omega

/-- A whole number of at most 53 bits is itself a double. -/
theorem canonical_of_lt {n : Nat} (hpos : 0 < n) (hlt : n < 2 * leastNormalMantissa) :
    Canonical (n * 2 ^ (52 - n.log2)) (n.log2 - 52) := by
  have hlog : n.log2 ≤ 52 := by
    have := (Nat.log2_lt hpos.ne').mpr (show n < 2 ^ 53 from hlt)
    omega
  have hfull : (n * 2 ^ (52 - n.log2)).log2 = 52 := by
    rw [log2_mul_two_pow hpos.ne']
    omega
  have hne : n * 2 ^ (52 - n.log2) ≠ 0 := Nat.mul_ne_zero hpos.ne' (Nat.two_pow_pos _).ne'
  obtain ⟨hlow, hhigh⟩ := (Nat.log2_eq_iff hne).mp hfull
  refine ⟨hhigh, ?_, .inr hlow⟩
  simp only [leastExponent]
  omega

theorem value_of_lt {n : Nat} (hpos : 0 < n) (hlt : n < 2 * leastNormalMantissa) :
    ((n * 2 ^ (52 - n.log2) : Nat) : ℚ) * 2 ^ ((n.log2 : Int) - 52) = n := by
  have hlog : n.log2 ≤ 52 := by
    have := (Nat.log2_lt hpos.ne').mpr (show n < 2 ^ 53 from hlt)
    omega
  push_cast
  rw [mul_assoc, ← zpow_natCast, ← zpow_add₀ (by norm_num), Nat.cast_sub hlog]
  simp

theorem isSome_wholeValue? {mantissa : Nat} {exponent : Int}
    (h : 2 ^ (-exponent).toNat ∣ mantissa) : (wholeValue? mantissa exponent).isSome = true := by
  cases exponent with
  | ofNat k => rfl
  | negSucc k =>
    have hmod : mantissa % Nat.pow 2 (k + 1) = 0 := Nat.mod_eq_zero_of_dvd h
    rw [wholeValue?, if_pos hmod]
    rfl

theorem Nearest.isSome_wholeValue? {n mantissa : Nat} {exponent : Int}
    (h : Nearest n mantissa exponent) : (wholeValue? mantissa exponent).isSome = true := by
  apply Number.isSome_wholeValue?
  rcases le_or_gt 0 exponent with hle | hlt
  · rw [Int.toNat_of_nonpos (by omega), Nat.pow_zero]
    exact Nat.one_dvd _
  -- A double with a place after the point has all bits of a number that is nearest to it.
  have hfew : n < 2 * leastNormalMantissa := by
    have hpower : (2 : ℚ) ^ (exponent + 53) ≤ 2 ^ (53 : Int) :=
      zpow_le_zpow_right₀ (by norm_num) (by omega)
    have hcast : (n : ℚ) < (2 ^ 53 : Nat) := by
      push_cast
      exact_mod_cast lt_of_lt_of_le h.lt_zpow hpower
    exact_mod_cast hcast
  rcases Nat.eq_zero_or_pos n with rfl | hpos
  · obtain ⟨rfl, -⟩ := h.unique (by
      rw [Nat.cast_zero]
      exact nearest_zero le_rfl (two_zpow_pos _))
    exact Nat.dvd_zero _
  · have hself := (canonical_of_lt hpos hfew).nearest
    rw [value_of_lt hpos hfew] at hself
    obtain ⟨rfl, rfl⟩ := h.unique hself
    rw [show (-((n.log2 : Int) - 52)).toNat = 52 - n.log2 by omega]
    exact Nat.dvd_mul_left _ _

end LedgerFields.Number
