import LedgerFields.Number.Binary64
import Mathlib.Algebra.Order.Field.Power
import Mathlib.Algebra.Order.Floor.Semifield
import Mathlib.Data.Int.Log
import Mathlib.Data.Rat.Floor
import Mathlib.Tactic.Linarith
import Mathlib.Tactic.Positivity
import Mathlib.Tactic.Ring

/-! The double nearest to a rational number, said without the way in which it is found: a rational
number is measured in units of the last place, and the whole number of units nearest to it is taken,
an even one when two are equally near. -/

namespace LedgerFields.Number

/-- `n` is a whole number nearest to `r`, and the even one when two are equally near. -/
structure HalfEven (r : ℚ) (n : Nat) : Prop where
  low : (n : ℚ) - 1 / 2 ≤ r
  high : r ≤ n + 1 / 2
  tie : n % 2 = 1 → (n : ℚ) - 1 / 2 < r ∧ r < n + 1 / 2

namespace HalfEven

variable {r : ℚ} {m n : Nat}

theorem not_lt (hm : HalfEven r m) (hn : HalfEven r n) : ¬m < n := by
  intro hlt
  have hle : (m : ℚ) + 1 ≤ n := by exact_mod_cast hlt
  have hsucc : n = m + 1 := by
    have : (n : ℚ) ≤ m + 1 := by linarith [hm.high, hn.low]
    exact Nat.le_antisymm (by exact_mod_cast this) hlt
  rcases Nat.mod_two_eq_zero_or_one m with h | h
  · have := (hn.tie (by omega)).1
    linarith [hm.high]
  · have := (hm.tie h).2
    linarith [hn.low]

theorem unique (hm : HalfEven r m) (hn : HalfEven r n) : m = n :=
  Nat.le_antisymm (Nat.not_lt.mp (hn.not_lt hm)) (Nat.not_lt.mp (hm.not_lt hn))

theorem of_lt (hlow : (n : ℚ) - 1 / 2 < r) (hhigh : r < n + 1 / 2) : HalfEven r n :=
  ⟨hlow.le, hhigh.le, fun _ => ⟨hlow, hhigh⟩⟩

theorem of_even (hn : n % 2 = 0) (hlow : (n : ℚ) - 1 / 2 ≤ r) (hhigh : r ≤ n + 1 / 2) :
    HalfEven r n :=
  ⟨hlow, hhigh, fun h => by omega⟩

theorem of_eq (h : r = n) : HalfEven r n :=
  of_lt (by linarith) (by linarith)

end HalfEven

theorem exists_halfEven {r : ℚ} (hr : 0 ≤ r) : ∃ n, HalfEven r n := by
  have hfloor := Nat.floor_le hr
  have hceil := Nat.lt_floor_add_one r
  rcases lt_trichotomy r (⌊r⌋₊ + 1 / 2) with h | h | h
  · exact ⟨⌊r⌋₊, .of_lt (by linarith) h⟩
  · rcases Nat.mod_two_eq_zero_or_one ⌊r⌋₊ with heven | hodd
    · exact ⟨⌊r⌋₊, .of_even heven (by linarith) h.le⟩
    · refine ⟨⌊r⌋₊ + 1, .of_even (by omega) ?_ ?_⟩ <;> push_cast <;> linarith
  · refine ⟨⌊r⌋₊ + 1, .of_lt ?_ ?_⟩ <;> push_cast <;> linarith

/-- The doubles have 53 significant bits, fewer only at the least exponent. -/
structure Canonical (mantissa : Nat) (exponent : Int) : Prop where
  lt : mantissa < 2 * leastNormalMantissa
  least : leastExponent ≤ exponent
  normal : exponent = leastExponent ∨ leastNormalMantissa ≤ mantissa

/-- `mantissa * 2 ^ exponent` is the double nearest to `q`, exponents being unbounded above. Below a
power of two the doubles lie twice as dense. -/
structure Nearest (q : ℚ) (mantissa : Nat) (exponent : Int) : Prop where
  canonical : Canonical mantissa exponent
  halfEven : HalfEven (q / 2 ^ exponent) mantissa
  dense : mantissa = leastNormalMantissa → leastExponent < exponent →
    (leastNormalMantissa : ℚ) - 1 / 4 ≤ q / 2 ^ exponent

theorem two_zpow_pos (e : Int) : (0 : ℚ) < 2 ^ e :=
  zpow_pos (by norm_num) e

theorem two_zpow_succ (e : Int) : (2 : ℚ) ^ (e + 1) = 2 * 2 ^ e := by
  rw [zpow_add_one₀ (by norm_num), mul_comm]

theorem leastNormalMantissa_eq : leastNormalMantissa = 2 ^ 52 := rfl

namespace Nearest

variable {q : ℚ} {m m' : Nat} {e e' : Int}

/-- Two doubles of which one has the greater exponent are not nearest to the same number. -/
theorem not_exponent_lt (h : Nearest q m e) (h' : Nearest q m' e') : ¬e < e' := by
  intro hlt
  have hnormal : leastNormalMantissa ≤ m' := by
    rcases h'.canonical.normal with heq | hle
    · exact absurd (heq ▸ hlt) (Int.not_lt.mpr h.canonical.least)
    · exact hle
  have hunit : 2 * (2 : ℚ) ^ e ≤ 2 ^ e' := by
    rw [← two_zpow_succ]
    exact zpow_le_zpow_right₀ (by norm_num) hlt
  -- The greater one reads numbers down to a quarter of a unit below the power of two.
  have hlow : ((leastNormalMantissa : ℚ) - 1 / 4) * 2 ^ e' ≤ q := by
    rw [← le_div_iff₀ (two_zpow_pos e')]
    rcases Nat.eq_or_lt_of_le hnormal with heq | hgt
    · exact h'.dense heq.symm (Int.lt_of_le_of_lt h.canonical.least hlt)
    · have : (leastNormalMantissa : ℚ) + 1 ≤ m' := by exact_mod_cast hgt
      linarith [h'.halfEven.low]
  have hbound : (m : ℚ) + 1 ≤ 2 * leastNormalMantissa := by exact_mod_cast h.canonical.lt
  have hscaled : ((leastNormalMantissa : ℚ) - 1 / 4) * (2 * 2 ^ e) ≤ q := by
    refine le_trans (mul_le_mul_of_nonneg_left hunit ?_) hlow
    simp only [leastNormalMantissa_eq]
    norm_num
  have hge : 2 * (leastNormalMantissa : ℚ) - 1 / 2 ≤ q / 2 ^ e := by
    rw [le_div_iff₀ (two_zpow_pos e)]
    linarith
  have hlast : (m : ℚ) + 1 = 2 * leastNormalMantissa := by linarith [h.halfEven.high]
  have hodd : m % 2 = 1 := by
    have : m + 1 = 2 * leastNormalMantissa := by exact_mod_cast hlast
    omega
  linarith [(h.halfEven.tie hodd).2]

theorem unique (h : Nearest q m e) (h' : Nearest q m' e') : m = m' ∧ e = e' := by
  obtain rfl : e = e' := Int.le_antisymm (Int.not_lt.mp (h'.not_exponent_lt h))
    (Int.not_lt.mp (h.not_exponent_lt h'))
  exact ⟨h.halfEven.unique h'.halfEven, rfl⟩

/-- The doubles of an exponent reach no further than their mantissas do. -/
theorem lt_zpow (h : Nearest q m e) : q < 2 ^ (e + 53) := by
  have hbound : (m : ℚ) + 1 ≤ 2 * leastNormalMantissa := by exact_mod_cast h.canonical.lt
  have hlt : q / 2 ^ e < 2 ^ 53 := by
    simp only [leastNormalMantissa_eq] at hbound
    norm_num at hbound ⊢
    linarith [h.halfEven.high]
  rw [div_lt_iff₀ (two_zpow_pos e)] at hlt
  rw [add_comm, zpow_add₀ (by norm_num)]
  exact_mod_cast hlt

theorem lt_exponent (h : Nearest q m e) {t : Int} (hq : (2 : ℚ) ^ t ≤ q) : t - 53 < e := by
  have := (zpow_lt_zpow_iff_right₀ (by norm_num : (1 : ℚ) < 2)).mp (lt_of_le_of_lt hq h.lt_zpow)
  omega

end Nearest

/-- A number below half of the least double vanishes. -/
theorem nearest_zero {q : ℚ} (hq : 0 ≤ q) (hlt : q < 2 ^ (leastExponent - 1)) :
    Nearest q 0 leastExponent := by
  have hhalf : q / 2 ^ leastExponent < 1 / 2 := by
    rw [div_lt_iff₀ (two_zpow_pos _)]
    have := two_zpow_succ (leastExponent - 1)
    rw [sub_add_cancel] at this
    linarith
  have hnonneg : 0 ≤ q / 2 ^ leastExponent := div_nonneg hq (two_zpow_pos _).le
  refine ⟨⟨?_, le_rfl, .inl rfl⟩, .of_lt ?_ ?_, fun _ h => absurd h (lt_irrefl _)⟩
  · simp only [leastNormalMantissa_eq]
    norm_num
  · push_cast
    linarith
  · push_cast
    linarith

/-- The exponent with which `q` has 53 bits before the point, or fewer at the least exponent. -/
structure Scale (q : ℚ) (exponent : Int) : Prop where
  nonneg : 0 ≤ q
  least : leastExponent ≤ exponent
  lt : q / 2 ^ exponent < 2 * leastNormalMantissa
  normal : exponent = leastExponent ∨ (leastNormalMantissa : ℚ) ≤ q / 2 ^ exponent

/-- Rounding at its scale gives the double nearest to a number; when all 53 bits carry over, it is
the power of two above them. -/
theorem Scale.nearest {q : ℚ} {e : Int} (h : Scale q e) {n : Nat}
    (hn : HalfEven (q / 2 ^ e) n) :
    n < 2 * leastNormalMantissa ∧ Nearest q n e ∨
      n = 2 * leastNormalMantissa ∧ Nearest q leastNormalMantissa (e + 1) := by
  have hle : n ≤ 2 * leastNormalMantissa := by
    have : (n : ℚ) < (2 * leastNormalMantissa : Nat) + 1 := by
      push_cast
      linarith [hn.low, h.lt]
    exact Nat.lt_succ_iff.mp (by exact_mod_cast this)
  rcases Nat.lt_or_eq_of_le hle with hlt | rfl
  · refine .inl ⟨hlt, ⟨hlt, h.least, ?_⟩, hn, ?_⟩
    · refine h.normal.imp_right fun hnormal => ?_
      have : ((leastNormalMantissa : Nat) : ℚ) < n + 1 := by linarith [hn.high]
      exact Nat.lt_succ_iff.mp (by exact_mod_cast this)
    · intro _ hexponent
      rcases h.normal with heq | hnormal
      · exact absurd hexponent (heq ▸ Int.lt_irrefl _)
      · linarith
  · refine .inr ⟨rfl, ?_⟩
    have hhalf : q / 2 ^ (e + 1) = q / 2 ^ e / 2 := by
      rw [two_zpow_succ, mul_comm, div_div]
    have hlow := hn.low
    push_cast at hlow
    have hdense : (leastNormalMantissa : ℚ) - 1 / 4 ≤ q / 2 ^ (e + 1) := by
      rw [hhalf]
      linarith
    refine ⟨⟨?_, Int.le_add_one h.least, .inr le_rfl⟩, .of_lt ?_ ?_, fun _ _ => hdense⟩
    · simp only [leastNormalMantissa_eq]
      norm_num
    · linarith
    · rw [hhalf]
      linarith [h.lt]

theorem scale_leastExponent {q : ℚ} (hq : 0 ≤ q) (hlt : q < 2 ^ (leastExponent + 53)) :
    Scale q leastExponent := by
  refine ⟨hq, le_rfl, ?_, .inl rfl⟩
  rw [div_lt_iff₀ (two_zpow_pos _)]
  rw [zpow_add₀ (by norm_num)] at hlt
  simp only [leastNormalMantissa_eq]
  norm_num at hlt ⊢
  linarith

/-- A number between two powers of two has the scale at which the lower one is the least normal
mantissa, unless that is below the least exponent. -/
theorem scale_of_zpow {q : ℚ} {t : Int} (hlow : (2 : ℚ) ^ t ≤ q) (hhigh : q < 2 ^ (t + 1)) :
    Scale q (max (t - 52) leastExponent) := by
  have hq : 0 ≤ q := le_trans (two_zpow_pos t).le hlow
  rcases le_total (t - 52) leastExponent with hle | hle
  · rw [max_eq_right hle]
    refine scale_leastExponent hq (lt_of_lt_of_le hhigh (zpow_le_zpow_right₀ (by norm_num) ?_))
    omega
  · rw [max_eq_left hle]
    have hunit : (2 : ℚ) ^ t = 2 ^ 52 * 2 ^ (t - 52) := by
      rw [← zpow_natCast, ← zpow_add₀ (by norm_num)]
      congr 1
      push_cast
      ring
    refine ⟨hq, hle, ?_, .inr ?_⟩
    · rw [div_lt_iff₀ (two_zpow_pos _)]
      rw [two_zpow_succ, hunit] at hhigh
      simp only [leastNormalMantissa_eq]
      push_cast
      linarith
    · rw [le_div_iff₀ (two_zpow_pos _)]
      rw [hunit] at hlow
      simp only [leastNormalMantissa_eq]
      push_cast
      exact hlow

theorem exists_scale {q : ℚ} (hq : 0 ≤ q) : ∃ e, Scale q e := by
  rcases hq.eq_or_lt with rfl | hpos
  · exact ⟨_, scale_leastExponent le_rfl (two_zpow_pos _)⟩
  · have hlow := Int.zpow_log_le_self (b := 2) (by norm_num) hpos
    have hhigh := Int.lt_zpow_succ_log_self (b := 2) (by norm_num) q
    exact ⟨_, scale_of_zpow hlow hhigh⟩

theorem exists_nearest {q : ℚ} (hq : 0 ≤ q) : ∃ m e, Nearest q m e := by
  obtain ⟨e, hscale⟩ := exists_scale hq
  obtain ⟨n, hn⟩ := exists_halfEven (div_nonneg hq (two_zpow_pos e).le)
  rcases hscale.nearest hn with ⟨_, h⟩ | ⟨_, h⟩
  · exact ⟨_, _, h⟩
  · exact ⟨_, _, h⟩

end LedgerFields.Number
