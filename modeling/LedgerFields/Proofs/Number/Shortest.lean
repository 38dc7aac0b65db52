import LedgerFields.Number.Decimal
import LedgerFields.Proofs.Number.Nearest
import Mathlib.Tactic.FieldSimp

/-! The shortest decimal of a double lies among the numbers that read as that double, so that the
double is the one nearest to it. -/

namespace LedgerFields.Number

/-- The number that a decimal is. -/
def Decimal.value (d : Decimal) : ℚ := d.digits * 10 ^ d.exponent

namespace ReadInterval

def Contains (i : ReadInterval) (q : ℚ) : Prop :=
  (i.low < q * i.scale ∧ q * i.scale < i.high) ∨
    i.closed = true ∧ (i.low = q * i.scale ∨ q * i.scale = i.high)

theorem ten_zpow_eq (e : Int) : (10 : ℚ) ^ e = 10 ^ e.toNat / 10 ^ (-e).toNat := by
  rw [← zpow_natCast, ← zpow_natCast, ← zpow_sub₀ (by norm_num)]
  congr 1
  omega

theorem two_zpow_eq (e : Int) : (2 : ℚ) ^ e = 2 ^ e.toNat / 2 ^ (-e).toNat := by
  rw [← zpow_natCast, ← zpow_natCast, ← zpow_sub₀ (by norm_num)]
  congr 1
  omega

/-- Whether a multiple of a power of ten lies in the interval, found without fractions. -/
def inside (i : ReadInterval) (exponent : Int) (n : Nat) : Bool :=
  let zoom := Nat.pow 10 (-exponent).toNat
  let step := i.scale * Nat.pow 10 exponent.toNat
  (i.low * zoom < n * step && n * step < i.high * zoom) ||
    (i.closed && (i.low * zoom == n * step || n * step == i.high * zoom))

theorem contains_of_inside {i : ReadInterval} {exponent : Int} {n : Nat}
    (h : i.inside exponent n = true) : i.Contains (n * 10 ^ exponent) := by
  have hzoom : (0 : ℚ) < 10 ^ (-exponent).toNat := by positivity
  have hvalue : (n * 10 ^ exponent * i.scale : ℚ) * 10 ^ (-exponent).toNat =
      (n * (i.scale * 10 ^ exponent.toNat) : Nat) := by
    rw [ten_zpow_eq]
    push_cast
    field_simp
  simp only [inside, Nat.pow_eq, Bool.or_eq_true, Bool.and_eq_true, decide_eq_true_eq,
    beq_iff_eq] at h
  generalize n * (i.scale * 10 ^ exponent.toNat) = steps at h hvalue
  have hcast (k : Nat) : ((k * 10 ^ (-exponent).toNat : Nat) : ℚ) = k * 10 ^ (-exponent).toNat := by
    push_cast
    rfl
  refine h.imp (fun ⟨hlow, hhigh⟩ => ⟨?_, ?_⟩) (fun ⟨hclosed, hend⟩ => ⟨hclosed, hend.imp ?_ ?_⟩)
  · rw [← mul_lt_mul_iff_left₀ hzoom, hvalue, ← hcast]
    exact_mod_cast hlow
  · rw [← mul_lt_mul_iff_left₀ hzoom, hvalue, ← hcast]
    exact_mod_cast hhigh
  · intro heq
    rw [← mul_left_inj' hzoom.ne', hvalue, ← hcast, heq]
  · intro heq
    rw [← mul_left_inj' hzoom.ne', hvalue, ← hcast, heq]

/-- A multiple of a power of ten that is taken lies in the interval. -/
theorem inside_of_multiple? {i : ReadInterval} {tie : Tie} {exponent : Int} {d : Decimal}
    (h : i.multiple? tie exponent = some d) :
    d.exponent = exponent ∧ i.inside exponent d.digits = true := by
  unfold multiple? at h
  dsimp only at h
  split at h
  · cases h
  · next hn _ => cases h; exact ⟨rfl, hn⟩
  · next _ hn => cases h; exact ⟨rfl, hn⟩
  · next hn hn' =>
    cases h
    refine ⟨rfl, ?_⟩
    rw [Bool.cond_eq_ite]
    split_ifs
    · exact hn'
    · exact hn

theorem contains_of_coarsest? {i : ReadInterval} {tie : Tie} {tries : Nat} {exponent : Int}
    {d : Decimal} (h : i.coarsest? tie tries exponent = some d) : i.Contains d.value := by
  induction tries generalizing exponent with
  | zero => cases h
  | succ tries ih =>
    rw [coarsest?] at h
    cases hmultiple : i.multiple? tie exponent with
    | some d' =>
      rw [hmultiple] at h
      cases h
      obtain ⟨rfl, hinside⟩ := inside_of_multiple? hmultiple
      exact contains_of_inside hinside
    | none =>
      rw [hmultiple] at h
      exact ih h

end ReadInterval

theorem Decimal.value_exact (mantissa : Nat) (exponent : Int) :
    (Decimal.exact mantissa exponent).value = mantissa * 2 ^ exponent := by
  cases exponent with
  | ofNat n => simp [Decimal.exact, Decimal.value]
  | negSucc n =>
    have hten : (10 : ℚ) ^ (n + 1) = 5 ^ (n + 1) * 2 ^ (n + 1) := by
      rw [← mul_pow]
      norm_num
    have hexponent : (-((n : Int) + 1)) = -((n + 1 : Nat) : Int) := by push_cast; rfl
    simp only [Decimal.exact, Decimal.value, Int.negSucc_eq, Nat.pow_eq, hexponent, zpow_neg,
      zpow_natCast, hten]
    push_cast
    field_simp

section

variable {mantissa : Nat} {exponent : Int}

/-- A quarter of the unit in the last place is the least that the ends of an interval are
measured in. -/
theorem mul_scale (q : ℚ) : q * (ReadInterval.ofDouble mantissa exponent).scale =
    q / 2 ^ exponent * (4 * 2 ^ exponent.toNat) := by
  rw [ReadInterval.two_zpow_eq exponent]
  simp only [ReadInterval.ofDouble, Nat.pow_eq]
  push_cast
  field_simp

/-- How far below a double its interval reaches, in units of the last place. -/
def reach (mantissa : Nat) (exponent : Int) : ℚ :=
  if mantissa = leastNormalMantissa ∧ leastExponent < exponent then 1 / 4 else 1 / 2

theorem cast_low (h : mantissa ≠ 0) : ((ReadInterval.ofDouble mantissa exponent).low : ℚ) =
    (mantissa - reach mantissa exponent) * (4 * 2 ^ exponent.toNat) := by
  have hunit : 2 ^ exponent.toNat ≤ mantissa * 2 ^ exponent.toNat :=
    Nat.le_mul_of_pos_left _ (Nat.pos_of_ne_zero h)
  simp only [ReadInterval.ofDouble, reach, Nat.pow_eq, Nat.mul_assoc]
  split_ifs
  · rw [Nat.cast_sub (by omega)]
    push_cast
    ring
  · rw [Nat.cast_sub (by omega)]
    push_cast
    ring

theorem cast_high : ((ReadInterval.ofDouble mantissa exponent).high : ℚ) =
    (mantissa + 1 / 2) * (4 * 2 ^ exponent.toNat) := by
  simp only [ReadInterval.ofDouble, Nat.pow_eq]
  push_cast
  ring

/-- The interval of a double in units of its last place. -/
theorem contains_iff (h : mantissa ≠ 0) {q : ℚ} :
    (ReadInterval.ofDouble mantissa exponent).Contains q ↔
      (mantissa - reach mantissa exponent < q / 2 ^ exponent ∧
        q / 2 ^ exponent < mantissa + 1 / 2) ∨
      mantissa % 2 = 0 ∧ (mantissa - reach mantissa exponent = q / 2 ^ exponent ∨
        q / 2 ^ exponent = mantissa + 1 / 2) := by
  have hscale : (0 : ℚ) < 4 * 2 ^ exponent.toNat := by positivity
  have hclosed : (ReadInterval.ofDouble mantissa exponent).closed = true ↔ mantissa % 2 = 0 :=
    decide_eq_true_iff
  rw [ReadInterval.Contains, mul_scale, cast_low h, cast_high, hclosed,
    mul_lt_mul_iff_left₀ hscale, mul_lt_mul_iff_left₀ hscale, mul_left_inj' hscale.ne',
    mul_left_inj' hscale.ne']

theorem reach_pos (mantissa : Nat) (exponent : Int) : 0 < reach mantissa exponent := by
  unfold reach
  split_ifs <;> norm_num

theorem reach_le (mantissa : Nat) (exponent : Int) : reach mantissa exponent ≤ 1 / 2 := by
  unfold reach
  split_ifs <;> norm_num

theorem contains_self (h : mantissa ≠ 0) :
    (ReadInterval.ofDouble mantissa exponent).Contains (mantissa * 2 ^ exponent) := by
  rw [contains_iff h, mul_div_cancel_right₀ _ (two_zpow_pos exponent).ne']
  exact .inl ⟨by linarith [reach_pos mantissa exponent], by linarith⟩

/-- The shortest decimal of a double reads as that double. -/
theorem contains_shortest (tie : Tie) (h : mantissa ≠ 0) :
    (ReadInterval.ofDouble mantissa exponent).Contains
      (Decimal.shortest tie mantissa exponent).value := by
  obtain ⟨tries, first, hshortest⟩ : ∃ tries first, Decimal.shortest tie mantissa exponent =
      ((ReadInterval.ofDouble mantissa exponent).coarsest? tie tries first).getD
        (.exact mantissa exponent) := ⟨_, _, if_neg h⟩
  rw [hshortest]
  cases hfound : (ReadInterval.ofDouble mantissa exponent).coarsest? tie tries first with
  | none =>
    rw [Option.getD_none, Decimal.value_exact]
    exact contains_self h
  | some d =>
    rw [Option.getD_some]
    exact ReadInterval.contains_of_coarsest? hfound

/-- The numbers of the interval of a double are those of which it is the nearest. -/
theorem nearest_of_contains {q : ℚ} (hcanonical : Canonical mantissa exponent)
    (hpos : mantissa ≠ 0) (h : (ReadInterval.ofDouble mantissa exponent).Contains q) :
    Nearest q mantissa exponent := by
  have hreach := reach_le mantissa exponent
  refine ⟨hcanonical, ?_, fun hnormal hleast => ?_⟩
  · rcases (contains_iff hpos).mp h with ⟨hlow, hhigh⟩ | ⟨heven, hlow | hhigh⟩
    · exact .of_lt (by linarith) hhigh
    · have := reach_pos mantissa exponent
      exact .of_even heven (by linarith) (by linarith)
    · exact .of_even heven (by linarith) hhigh.le
  · have hquarter : reach mantissa exponent = 1 / 4 := if_pos ⟨hnormal, hleast⟩
    rw [← hnormal, ← hquarter]
    rcases (contains_iff hpos).mp h with ⟨hlow, -⟩ | ⟨-, hlow | hhigh⟩ <;> linarith

end

/-- The double is nearest to its shortest decimal. -/
theorem nearest_shortest (tie : Tie) {mantissa : Nat} {exponent : Int}
    (h : Canonical mantissa exponent) :
    Nearest (Decimal.shortest tie mantissa exponent).value mantissa exponent := by
  rcases Nat.eq_zero_or_pos mantissa with rfl | hpos
  · obtain rfl : exponent = leastExponent := h.normal.resolve_right (by decide)
    rw [Decimal.shortest, if_pos rfl]
    simp only [Decimal.value, Nat.cast_zero, zero_mul]
    exact nearest_zero le_rfl (two_zpow_pos _)
  · exact nearest_of_contains h hpos.ne' (contains_shortest tie hpos.ne')

/-! A whole double is written without a fraction: the search meets a power of ten that is whole
before all others that would do. -/

namespace ReadInterval

theorem multiple?_ne_none {i : ReadInterval} {exponent : Int} (tie : Tie)
    (h : i.inside exponent (i.middle * Nat.pow 10 (-exponent).toNat /
      (i.scale * Nat.pow 10 exponent.toNat)) = true) : i.multiple? tie exponent ≠ none := by
  intro hnone
  unfold multiple? at hnone
  dsimp only at hnone
  split at hnone
  · next hn _ => exact absurd (h.symm.trans hn) Bool.noConfusion
  all_goals cases hnone

theorem coarsest?_whole {i : ReadInterval} {tie : Tie} (tries : Nat) (first : Int)
    (h : i.multiple? tie 0 ≠ none) (hfirst : 0 ≤ first) (htries : first < tries) :
    ∃ d, i.coarsest? tie tries first = some d ∧ 0 ≤ d.exponent := by
  induction tries generalizing first with
  | zero => omega
  | succ tries ih =>
    rw [coarsest?]
    cases hmultiple : i.multiple? tie first with
    | some d =>
      refine ⟨d, rfl, ?_⟩
      rwa [(inside_of_multiple? hmultiple).1]
    | none =>
      have hne : first ≠ 0 := by
        rintro rfl
        exact h hmultiple
      exact ih _ (by omega) (by omega)

end ReadInterval

theorem mul_eq_of_wholeValue? {mantissa : Nat} {exponent : Int} {n : Nat}
    (h : wholeValue? mantissa exponent = some n) :
    mantissa * 2 ^ exponent.toNat = n * 2 ^ (-exponent).toNat := by
  cases exponent with
  | ofNat k =>
    cases h
    simp
  | negSucc k =>
    rw [wholeValue?] at h
    split at h
    · next hmod =>
      cases h
      simpa using (Nat.div_mul_cancel (Nat.dvd_of_mod_eq_zero hmod)).symm
    · cases h

theorem inside_middle {mantissa : Nat} {exponent : Int} {n : Nat} (hpos : mantissa ≠ 0)
    (h : wholeValue? mantissa exponent = some n) :
    (ReadInterval.ofDouble mantissa exponent).inside 0 n = true ∧
      (ReadInterval.ofDouble mantissa exponent).middle =
        n * (ReadInterval.ofDouble mantissa exponent).scale := by
  have hwhole := mul_eq_of_wholeValue? h
  have hunit : 2 ^ exponent.toNat ≤ mantissa * 2 ^ exponent.toNat :=
    Nat.le_mul_of_pos_left _ (Nat.pos_of_ne_zero hpos)
  have hunit' : 0 < 2 ^ exponent.toNat := Nat.two_pow_pos _
  have hmiddle : 4 * mantissa * 2 ^ exponent.toNat = n * (4 * 2 ^ (-exponent).toNat) := by
    rw [Nat.mul_assoc, hwhole]
    ring
  simp only [ReadInterval.inside, ReadInterval.ofDouble, Nat.pow_eq, Int.neg_zero, Int.toNat_zero,
    Nat.pow_zero, Nat.mul_one]
  refine ⟨?_, hmiddle⟩
  rw [← hmiddle, Nat.mul_assoc]
  simp only [Bool.or_eq_true, Bool.and_eq_true, decide_eq_true_eq]
  refine .inl ⟨?_, by omega⟩
  split_ifs <;> omega

theorem shortest_whole (tie : Tie) {mantissa : Nat} {exponent : Int} {n : Nat}
    (h : wholeValue? mantissa exponent = some n) :
    0 ≤ (Decimal.shortest tie mantissa exponent).exponent := by
  unfold Decimal.shortest
  by_cases hzero : mantissa = 0
  · rw [if_pos hzero]
  rw [if_neg hzero]
  obtain ⟨hinside, hmiddle⟩ := inside_middle hzero h
  have hscale : 0 < (ReadInterval.ofDouble mantissa exponent).scale := by
    simp [ReadInterval.ofDouble]
  have hone : (ReadInterval.ofDouble mantissa exponent).multiple? tie 0 ≠ none := by
    apply ReadInterval.multiple?_ne_none
    rw [hmiddle]
    simpa [Nat.mul_div_cancel _ hscale] using hinside
  have hlog : 0 ≤ exponent + mantissa.log2 := by
    rcases le_or_gt 0 exponent with hle | hlt
    · omega
    · have hwhole := mul_eq_of_wholeValue? h
      rw [Int.toNat_of_nonpos hlt.le, Nat.pow_zero, Nat.mul_one] at hwhole
      have hn : 0 < n := Nat.pos_of_ne_zero (by rintro rfl; simp at hwhole; exact hzero hwhole)
      have := (Nat.le_log2 hzero).mpr (hwhole ▸ Nat.le_mul_of_pos_left _ hn)
      omega
  obtain ⟨d, hd, hexponent⟩ := ReadInterval.coarsest?_whole
    (((exponent + mantissa.log2 + 1) * 1233 / 4096 + 1) - min exponent 0 + 1).toNat
    ((exponent + mantissa.log2 + 1) * 1233 / 4096 + 1) hone (by omega) (by omega)
  simp only [hd, Option.getD_some]
  exact hexponent

end LedgerFields.Number
