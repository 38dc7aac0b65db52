import LedgerFields.Proofs.Number.Nearest

/-! What rounding does to a number given by a mantissa, an exponent and what is known of the bits
beyond them: the result is the double nearest to the number. -/

namespace LedgerFields.Number

open Float.Model Float.Model.UnpackedFloat

/-- The number `r` has the whole part of an extended mantissa, and the two bits beyond it tell how
the rest of `r` compares with nothing and with one half. -/
def Keeps : ExtendedMantissa → ℚ → Prop
  | ⟨m, false, false⟩, r => r = m
  | ⟨m, false, true⟩, r => (m : ℚ) < r ∧ r < m + 1 / 2
  | ⟨m, true, false⟩, r => r = m + 1 / 2
  | ⟨m, true, true⟩, r => (m : ℚ) + 1 / 2 < r ∧ r < m + 1

namespace Keeps

variable {em : ExtendedMantissa} {r : ℚ}

theorem bounds (h : Keeps em r) : (em.mantissa : ℚ) ≤ r ∧ r < em.mantissa + 1 := by
  rcases em with ⟨m, round, sticky⟩
  cases round <;> cases sticky <;> simp only [Keeps] at h <;> constructor <;> linarith

theorem shiftRightOne (h : Keeps em r) : Keeps em.shiftRightOne (r / 2) := by
  rcases em with ⟨m, round, sticky⟩
  obtain ⟨k, rfl | rfl⟩ := m.even_or_odd'
  all_goals
    have heven : 2 * k / 2 = k := by omega
    have hodd : (2 * k + 1) / 2 = k := by omega
    have hbit : (2 * k + 1) % 2 = 1 := by omega
    cases round <;> cases sticky <;>
      simp [Keeps, ExtendedMantissa.shiftRightOne, heven, hodd, hbit] at h ⊢ <;>
      first | (constructor <;> linarith) | linarith

theorem shiftRight (h : Keeps em r) (n : Nat) : Keeps (em >>> n) (r / 2 ^ n) := by
  induction n with
  | zero => simpa [HShiftRight.hShiftRight, Nat.repeat] using h
  | succ n ih =>
    have := ih.shiftRightOne
    rwa [div_div, ← pow_succ] at this

/-- The bits beyond the mantissa suffice to round to the nearest whole number. -/
theorem halfEven (h : Keeps em r) : HalfEven r em.roundedMantissa := by
  rcases em with ⟨m, round, sticky⟩
  cases round <;> cases sticky <;>
    simp only [Keeps, ExtendedMantissa.roundedMantissa, ExtendedMantissa.accuracy,
      Accuracy.roundToNearestEven] at h ⊢
  · exact .of_eq h
  · exact .of_lt (by linarith) h.2
  · rcases Nat.mod_two_eq_zero_or_one m with hm | hm
    · rw [hm]
      exact .of_even hm (by simp only [Nat.add_zero]; linarith) h.le
    · rw [hm]
      refine .of_even (by omega) ?_ ?_ <;> push_cast <;> linarith
  · refine .of_lt ?_ ?_ <;> push_cast <;> linarith

end Keeps

theorem mantissa_ofMantissaAndAccuracy (m : Nat) (accuracy : Accuracy) :
    (ExtendedMantissa.ofMantissaAndAccuracy m accuracy).mantissa = m := by
  unfold ExtendedMantissa.ofMantissaAndAccuracy
  split <;> rfl

theorem targetExponent_eq (t : Int) :
    Format.binary64.targetExponent t = max (t - 53) leastExponent := rfl

/-- A canonical double without its overflow, in the form in which operations on doubles give it. -/
def unpacked (sign : Sign) (mantissa : Nat) (exponent : Int) : UnpackedFloat :=
  if h : mantissa = 0 then .zero sign
  else .finite sign mantissa exponent (Nat.pos_of_ne_zero h)

theorem unpacked_zero (sign : Sign) (exponent : Int) : unpacked sign 0 exponent = .zero sign := rfl

theorem unpacked_of_pos (sign : Sign) {mantissa : Nat} (exponent : Int) (h : 0 < mantissa) :
    unpacked sign mantissa exponent = .finite sign mantissa exponent h :=
  dif_neg h.ne'

section

variable {q : ℚ} {m : Nat} {e e' : Int} {accuracy : Accuracy}

/-- The exponent that rounding aims at is the scale of the number. -/
theorem scale_targetExponent (h : Keeps (.ofMantissaAndAccuracy m accuracy) (q / 2 ^ e))
    (he : e ≤ Format.binary64.targetExponent (totalExponent m e)) :
    Scale q (Format.binary64.targetExponent (totalExponent m e)) := by
  have hbounds := h.bounds
  rw [mantissa_ofMantissaAndAccuracy, le_div_iff₀ (two_zpow_pos e),
    div_lt_iff₀ (two_zpow_pos e)] at hbounds
  obtain ⟨hlow, hhigh⟩ := hbounds
  rw [targetExponent_eq, totalExponent] at he ⊢
  rcases Nat.eq_zero_or_pos m with rfl | hm
  · -- Nothing is left before the bits beyond, so that the number is below the least double.
    simp only [Nat.log2_zero, Nat.cast_zero, zero_mul, zero_add, one_mul] at hlow hhigh he ⊢
    have hleast : e ≤ leastExponent := by
      simp only [leastExponent] at he ⊢
      omega
    rw [max_eq_right (by omega)]
    refine scale_leastExponent hlow (lt_of_lt_of_le hhigh ?_)
    exact zpow_le_zpow_right₀ (by norm_num) (by omega)
  · have hlog : (2 : ℚ) ^ ((m.log2 : Int) + e) ≤ q := by
      rw [zpow_add₀ (by norm_num), zpow_natCast]
      refine le_trans (mul_le_mul_of_nonneg_right ?_ (two_zpow_pos e).le) hlow
      exact_mod_cast Nat.log2_self_le hm.ne'
    have hlog' : q < (2 : ℚ) ^ ((m.log2 : Int) + e + 1) := by
      rw [add_right_comm, zpow_add₀ (by norm_num)]
      refine lt_of_lt_of_le hhigh (mul_le_mul_of_nonneg_right ?_ (two_zpow_pos e).le)
      exact_mod_cast Nat.succ_le_of_lt (Nat.lt_log2_self (n := m))
    have hscale := scale_of_zpow hlog hlog'
    rwa [show (m.log2 : Int) + e - 52 = m.log2 + 1 + e - 53 by ring] at hscale

theorem shiftToTargetExponent_of_lt {n : Nat} (hn : n < 2 * leastNormalMantissa)
    (he : leastExponent ≤ e) :
    shiftToTargetExponent Format.binary64 n e .exact = (⟨n, false, false⟩, e) := by
  have hlog : n.log2 ≤ 52 := by
    rcases Nat.eq_zero_or_pos n with rfl | hpos
    · simp
    · have := (Nat.log2_lt hpos.ne').mpr (show n < 2 ^ 53 from hn)
      omega
  have hshift : (Format.binary64.targetExponent (totalExponent n e) - e).toNat = 0 := by
    rw [targetExponent_eq, totalExponent]
    omega
  simp [shiftToTargetExponent, shiftToExponent, hshift, HShiftRight.hShiftRight, Nat.repeat,
    ExtendedMantissa.ofMantissaAndAccuracy]

theorem shiftToTargetExponent_carry (he : leastExponent ≤ e) :
    shiftToTargetExponent Format.binary64 (2 * leastNormalMantissa) e .exact =
      (⟨leastNormalMantissa, false, false⟩, e + 1) := by
  have hlog : (2 * leastNormalMantissa).log2 = 53 := by
    rw [show 2 * leastNormalMantissa = 2 ^ 53 from rfl, Nat.log2_two_pow]
  have hshift : (Format.binary64.targetExponent
      (totalExponent (2 * leastNormalMantissa) e) - e).toNat = 1 := by
    rw [targetExponent_eq, totalExponent, hlog]
    omega
  simp [shiftToTargetExponent, shiftToExponent, hshift, HShiftRight.hShiftRight, Nat.repeat,
    ExtendedMantissa.ofMantissaAndAccuracy, ExtendedMantissa.shiftRightOne]

/-- What is rounded is shifted first, and once more when its mantissa has become too long. -/
theorem roundWithAccuracy_eq (sign : Sign) {em em' : ExtendedMantissa} {exponent : Int}
    (hfirst : shiftToTargetExponent Format.binary64 m e accuracy = (em, exponent))
    (hlast : shiftToTargetExponent Format.binary64 em.roundedMantissa exponent .exact =
      (em', e')) :
    roundWithAccuracy Format.binary64 sign m e accuracy = unpacked sign em'.mantissa e' := by
  unfold roundWithAccuracy
  rw [hfirst]
  dsimp only
  rw [hlast]
  rfl

/-- Rounding gives the double nearest to the number of which it is given the first bits. -/
theorem roundWithAccuracy_nearest (sign : Sign)
    (h : Keeps (.ofMantissaAndAccuracy m accuracy) (q / 2 ^ e))
    (he : e ≤ Format.binary64.targetExponent (totalExponent m e)) :
    ∃ mantissa exponent, Nearest q mantissa exponent ∧
      roundWithAccuracy Format.binary64 sign m e accuracy = unpacked sign mantissa exponent := by
  have hscale := scale_targetExponent h he
  rcases hfirst : shiftToTargetExponent Format.binary64 m e accuracy with ⟨em, e'⟩
  have hexponent : e' = Format.binary64.targetExponent (totalExponent m e) := by
    have := congrArg Prod.snd hfirst
    simp only [shiftToTargetExponent, shiftToExponent] at this
    omega
  rw [← hexponent] at hscale
  have hkeeps : Keeps em (q / 2 ^ e') := by
    have hem := congrArg Prod.fst hfirst
    simp only [shiftToTargetExponent, shiftToExponent, ← hexponent] at hem
    have hunit : (2 : ℚ) ^ e' = 2 ^ e * 2 ^ (e' - e).toNat := by
      rw [← zpow_natCast, ← zpow_add₀ (by norm_num)]
      congr 1
      omega
    rw [← hem, hunit, ← div_div]
    exact h.shiftRight _
  rcases hscale.nearest hkeeps.halfEven with ⟨hlt, hnearest⟩ | ⟨hcarry, hnearest⟩
  · exact ⟨_, _, hnearest,
      roundWithAccuracy_eq sign hfirst (shiftToTargetExponent_of_lt hlt hscale.least)⟩
  · have hlast := shiftToTargetExponent_carry hscale.least
    rw [← hcarry] at hlast
    exact ⟨_, _, hnearest, roundWithAccuracy_eq sign hfirst hlast⟩

end

end LedgerFields.Number
