import LedgerFields.Proofs.Number.Hundredths
import Mathlib.Tactic.FieldSimp
import Mathlib.Tactic.NormNum

/-! Decimals of 96 bits as a way to round. A double is brought into such a decimal by steps that may
lose its last digits, and by then digits are dropped one by one. All that is lost is far less than
what any double that is no tie has to the next tie, and a tie loses nothing: so the decimal is
rounded to the same hundredth as the double. -/

namespace LedgerFields.Number

theorem coefficientBound_eq : coefficientBound = 2 ^ 96 := rfl

/-- The number that a scaled decimal stands for. -/
def ScaledDecimal.value (d : ScaledDecimal) : ℚ := d.coefficient / 10 ^ d.scale

/-- The number `bits * 10 ^ power`. -/
def powerValue (p : Nat × Int) : ℚ := p.1 * 10 ^ p.2

/-! ### Whole doubles -/

/-- A whole number is doubled as often as there is room. It never takes a division by five. -/
theorem divideByFives_eq (n bits : Nat) (h : bits < coefficientBound) :
    divideByFives n bits n = if bits * 2 ^ n < coefficientBound then some (bits * 2 ^ n, 0)
      else none := by
  induction n generalizing bits with
  | zero => simp [divideByFives, h]
  | succ n ih =>
    have hpower : ((n + 1 : Nat) : Int) - 1 = n := by omega
    have hdouble : bits * 2 ^ (n + 1) = bits * 2 * 2 ^ n := by ring
    unfold divideByFives
    rw [hpower, hdouble]
    by_cases hroom : 2 * bits < coefficientBound
    · rw [if_pos hroom]
      exact ih (bits * 2) (by omega)
    · have hfull : ¬bits * 2 * 2 ^ n < coefficientBound := by
        have := Nat.le_mul_of_pos_right (bits * 2) (Nat.two_pow_pos n)
        omega
      rw [if_neg hroom, if_pos (by push_cast; omega), if_neg hfull]

theorem ofDouble?_ofNat (mantissa n : Nat) (h : mantissa < coefficientBound) :
    ScaledDecimal.ofDouble? mantissa (.ofNat n) =
      if mantissa * 2 ^ n < coefficientBound then some ⟨mantissa * 2 ^ n, 0⟩ else none := by
  simp only [ScaledDecimal.ofDouble?, divideByFives_eq n mantissa h]
  split <;> rfl

/-! ### Halving -/

theorem snd_divideByTwos (n bits : Nat) (power : Int) :
    power - n ≤ (divideByTwos n bits power).2 ∧ (divideByTwos n bits power).2 ≤ power := by
  induction n generalizing bits power with
  | zero => simp [divideByTwos]
  | succ n ih =>
    unfold divideByTwos
    have hkept := ih (bits / 2) power
    have hlowered := ih (bits * 5) (power - 1)
    split
    · omega
    · split <;> omega

/-- The factors of two that a number has are halved away first. -/
theorem divideByTwos_mul (n m bits : Nat) (power : Int) :
    divideByTwos (n + m) (bits * 2 ^ m) power = divideByTwos n bits power := by
  induction m with
  | zero => simp
  | succ m ih =>
    have heven : bits * 2 ^ (m + 1) = bits * 2 ^ m * 2 := by ring
    rw [← Nat.add_assoc, divideByTwos, heven, if_pos (by omega), Nat.mul_div_cancel _ two_pos, ih]

theorem powerValue_half (half : Nat) (power : Int) :
    powerValue (half, power) = powerValue (2 * half, power) / 2 := by
  simp only [powerValue]
  push_cast
  ring

theorem powerValue_five (bits : Nat) (power : Int) :
    powerValue (bits * 5, power - 1) = powerValue (bits, power) / 2 := by
  simp only [powerValue]
  rw [zpow_sub_one₀ (by norm_num)]
  push_cast
  ring

/-- A number that has room for all its fives is halved without a loss. -/
theorem powerValue_divideByTwos {n bits : Nat} (power : Int)
    (h : bits * 5 ^ n < coefficientBound) :
    powerValue (divideByTwos n bits power) = powerValue (bits, power) / 2 ^ n := by
  induction n generalizing bits power with
  | zero => simp [divideByTwos]
  | succ n ih =>
    have hfive : bits * 5 ^ (n + 1) = bits * 5 * 5 ^ n := by ring
    rw [pow_succ, mul_comm, ← div_div]
    unfold divideByTwos
    split
    · next heven =>
      obtain ⟨half, rfl⟩ := Nat.dvd_of_mod_eq_zero heven
      have hhalf : half * 5 ^ n < coefficientBound :=
        lt_of_le_of_lt (Nat.mul_le_mul_right _ (by omega)) (hfive ▸ h)
      rw [Nat.mul_div_cancel_left _ two_pos, ih _ hhalf, powerValue_half]
    · have hroom : bits * 5 < coefficientBound := by
        have := Nat.le_mul_of_pos_right (bits * 5) (Nat.pow_pos (n := n) (show 0 < 5 by decide))
        omega
      rw [if_pos hroom, ih _ (hfive ▸ h), powerValue_five]

/-- `p` is `q` less a part of it: the part that `n` steps lose at most. -/
structure Loses (n : Nat) (p q : ℚ) : Prop where
  le : p ≤ q
  lost : q ≤ p + n * (5 / 2 ^ 96 * q)

namespace Loses

variable {n : Nat} {p q r : ℚ}

theorem of_eq (n : Nat) (hq : 0 ≤ q) (h : p = q) : Loses n p q := by
  have hpart : 0 ≤ n * (5 / 2 ^ 96 * q) := by positivity
  exact ⟨h.le, by linarith⟩

theorem trans (h : Loses n p q) (hstep : Loses 1 q r) : Loses (n + 1) p r := by
  refine ⟨h.le.trans hstep.le, ?_⟩
  -- What `n` steps lose is a part of the smaller number.
  have hpart : (n : ℚ) * (5 / 2 ^ 96 * q) ≤ n * (5 / 2 ^ 96 * r) := by
    gcongr
    exact hstep.le
  have hlost := h.lost
  have hlostStep := hstep.lost
  push_cast at hlostStep ⊢
  linarith

theorem div (h : Loses n p q) {c : ℚ} (hc : 0 < c) : Loses n (p / c) (q / c) := by
  refine ⟨div_le_div_of_nonneg_right h.le hc.le, ?_⟩
  have hlost := div_le_div_of_nonneg_right h.lost hc.le
  rwa [add_div, mul_div_assoc, mul_div_assoc] at hlost

end Loses

/-- A step that drops the last bit loses little, since there are many. -/
theorem loses_odd {bits : Nat} (power : Int) (hodd : bits % 2 = 1)
    (hfull : coefficientBound ≤ bits * 5) :
    Loses 1 (powerValue (bits / 2, power)) (powerValue (bits, power) / 2) := by
  obtain ⟨half, rfl⟩ : ∃ half, bits = 2 * half + 1 := ⟨bits / 2, by omega⟩
  have hhalf : (2 * half + 1) / 2 = half := by omega
  have hmany : (2 ^ 96 : ℚ) ≤ (2 * half + 1) * 5 := by exact_mod_cast hfull
  have hunit : (0 : ℚ) < 10 ^ power := zpow_pos (by norm_num) power
  have hlost : (10 : ℚ) ^ power * 1 ≤ 10 ^ power * (5 / 2 ^ 96 * (2 * half + 1)) := by
    refine mul_le_mul_of_nonneg_left ?_ hunit.le
    rw [div_mul_eq_mul_div, le_div_iff₀ (by positivity)]
    linarith
  rw [hhalf]
  simp only [powerValue]
  push_cast
  constructor <;> push_cast <;> linarith

theorem powerValue_nonneg (p : Nat × Int) : 0 ≤ powerValue p := by
  unfold powerValue
  positivity

theorem loses_divideByTwos (n bits : Nat) (power : Int) :
    Loses n (powerValue (divideByTwos n bits power)) (powerValue (bits, power) / 2 ^ n) := by
  have hnonneg := powerValue_nonneg (bits, power)
  induction n generalizing bits power with
  | zero => exact .of_eq 0 (by positivity) (by simp [divideByTwos])
  | succ n ih =>
    have hpos : (0 : ℚ) < 2 ^ n := by positivity
    have hhalf : 0 ≤ powerValue (bits, power) / 2 := by positivity
    rw [pow_succ, mul_comm, ← div_div]
    unfold divideByTwos
    split
    · next heven =>
      obtain ⟨half, rfl⟩ := Nat.dvd_of_mod_eq_zero heven
      have hstep := Loses.of_eq 1 hhalf (powerValue_half half power)
      rw [Nat.mul_div_cancel_left _ two_pos]
      exact (ih _ _ (powerValue_nonneg _)).trans (hstep.div hpos)
    · split
      · have hstep := Loses.of_eq 1 hhalf (powerValue_five bits power)
        exact (ih _ _ (powerValue_nonneg _)).trans (hstep.div hpos)
      · next hodd hfull =>
        have hstep := loses_odd power (by omega) (Nat.not_lt.mp hfull)
        exact (ih _ _ (powerValue_nonneg _)).trans (hstep.div hpos)

/-! ### Dropping decimal places -/

theorem abs_dropPlace_le (bits : Nat) :
    |((if 5 ≤ bits % 10 then bits / 10 + 1 else bits / 10 : Nat) : ℚ) - bits / 10| ≤ 1 / 2 := by
  have hdivide : (bits : ℚ) = 10 * (bits / 10 : Nat) + (bits % 10 : Nat) := by
    exact_mod_cast (Nat.div_add_mod bits 10).symm
  have hdigit : ((bits % 10 : Nat) : ℚ) ≤ 9 := by
    exact_mod_cast Nat.le_of_lt_succ (Nat.mod_lt bits (by decide))
  rw [abs_le]
  split
  · next hup =>
    have hup' : (5 : ℚ) ≤ (bits % 10 : Nat) := by exact_mod_cast hup
    push_cast
    constructor <;> linarith
  · next hdown =>
    have hdown' : ((bits % 10 : Nat) : ℚ) ≤ 4 := by exact_mod_cast (by omega : bits % 10 ≤ 4)
    have hnonneg : (0 : ℚ) ≤ (bits % 10 : Nat) := Nat.cast_nonneg _
    constructor <;> linarith

/-- Places that are dropped one by one change the last place that is kept by less than two. -/
theorem value_dropPlaces (n bits : Nat) :
    |(dropPlaces n bits).value * 10 ^ greatestScale - bits / 10 ^ n| ≤ 2 - 1 / 10 ^ n := by
  induction n generalizing bits with
  | zero => simp [dropPlaces, ScaledDecimal.value]
  | succ n ih =>
    have hunit : (1 : ℚ) / 10 ^ n = 10 * (1 / 10 ^ (n + 1)) := by
      rw [pow_succ]
      field_simp
    have hpos : (0 : ℚ) < 1 / 10 ^ (n + 1) := by positivity
    have hone : (1 : ℚ) / 10 ^ n ≤ 1 := div_le_self zero_le_one (one_le_pow₀ (by norm_num))
    rw [← mul_one_div (bits : ℚ)]
    unfold dropPlaces
    split
    · next hsmall =>
      have hbits : (bits : ℚ) ≤ 9 := by exact_mod_cast (by omega : bits ≤ 9)
      have hle : (bits : ℚ) * (1 / 10 ^ (n + 1)) ≤ 9 * (1 / 10 ^ (n + 1)) := by gcongr
      have hnonneg : (0 : ℚ) ≤ bits * (1 / 10 ^ (n + 1)) := by positivity
      simp only [ScaledDecimal.value, Nat.cast_zero, zero_div, zero_mul, zero_sub, abs_neg]
      rw [abs_of_nonneg hnonneg]
      linarith
    · have hplace := abs_dropPlace_le bits
      generalize (if 5 ≤ bits % 10 then bits / 10 + 1 else bits / 10) = kept at hplace ⊢
      have hlater := ih kept
      rw [← mul_one_div (kept : ℚ), hunit] at hlater
      rw [abs_le] at hplace hlater ⊢
      have hlow := mul_le_mul_of_nonneg_right hplace.1 hpos.le
      have hhigh := mul_le_mul_of_nonneg_right hplace.2 hpos.le
      constructor <;> linarith

/-- A number that is no whole one is brought into a decimal with 28 places at most. -/
theorem ofPower?_of_nonpos (bits : Nat) {power : Int} (h : power ≤ 0) :
    ∃ d, ScaledDecimal.ofPower? bits power = some d ∧
      |d.value - powerValue (bits, power)| ≤ 2 / 10 ^ 28 ∧
      (-28 ≤ power → d.value = powerValue (bits, power)) := by
  cases power with
  | ofNat n =>
    obtain rfl : n = 0 := by
      have : (n : Int) ≤ 0 := h
      omega
    have hvalue : (⟨bits, 0⟩ : ScaledDecimal).value = powerValue (bits, Int.ofNat 0) := by
      simp [ScaledDecimal.value, powerValue]
    refine ⟨⟨bits, 0⟩, rfl, ?_, fun _ => hvalue⟩
    rw [hvalue, sub_self, abs_zero]
    positivity
  | negSucc n =>
    by_cases hplaces : n + 1 ≤ greatestScale
    · have hvalue : (⟨bits, n + 1⟩ : ScaledDecimal).value = powerValue (bits, .negSucc n) := by
        simp [ScaledDecimal.value, powerValue, zpow_negSucc, div_eq_mul_inv]
      refine ⟨⟨bits, n + 1⟩, if_pos hplaces, ?_, fun _ => hvalue⟩
      rw [hvalue, sub_self, abs_zero]
      positivity
    · obtain ⟨m, hm⟩ : ∃ m, n + 1 = m + greatestScale := ⟨n + 1 - greatestScale, by omega⟩
      have hdropped : n + 1 - greatestScale = m := by omega
      refine ⟨dropPlaces m bits, hdropped ▸ if_neg hplaces, ?_, fun hpower => ?_⟩
      · have hle := value_dropPlaces m bits
        have hpos : (0 : ℚ) < 1 / 10 ^ m := by positivity
        have hvalue : powerValue (bits, .negSucc n) = bits / 10 ^ m / 10 ^ 28 := by
          rw [powerValue, zpow_negSucc, hm, pow_add, ← div_eq_mul_inv, ← div_div, greatestScale]
        have hsame : (dropPlaces m bits).value - powerValue (bits, .negSucc n) =
            ((dropPlaces m bits).value * 10 ^ greatestScale - bits / 10 ^ m) / 10 ^ 28 := by
          rw [hvalue, greatestScale, sub_div, mul_div_cancel_right₀ _ (by positivity)]
        rw [hsame, abs_div, abs_of_pos (show (0 : ℚ) < 10 ^ 28 by positivity)]
        exact div_le_div_of_nonneg_right (hle.trans (by linarith)) (by positivity)
      · simp only [greatestScale] at hplaces
        omega

/-! ### Doubles that are no whole numbers -/

variable {mantissa n : Nat}

/-- A multiple of one eighth has few fives, and loses nothing. -/
theorem powerValue_divideByTwos_of_dvd {n : Nat} (hmantissa : mantissa < 2 ^ 53)
    (h : 2 ^ n ∣ 8 * mantissa) :
    powerValue (divideByTwos n mantissa 0) = mantissa / 2 ^ n ∧
      -3 ≤ (divideByTwos n mantissa 0).2 := by
  -- After the factors of two are gone there are three steps at most.
  obtain ⟨few, m, bits, hfew, rfl, rfl⟩ :
      ∃ few m bits, few ≤ 3 ∧ n = few + m ∧ mantissa = bits * 2 ^ m := by
    rcases Nat.le_total n 3 with hn | hn
    · exact ⟨n, 0, mantissa, hn, rfl, by simp⟩
    · obtain ⟨m, rfl⟩ := Nat.exists_eq_add_of_le hn
      rw [pow_add] at h
      obtain ⟨bits, hbits⟩ := Nat.dvd_of_mul_dvd_mul_left (by decide) h
      exact ⟨3, m, bits, le_rfl, rfl, by rw [hbits, mul_comm]⟩
  have hbits : bits ≤ bits * 2 ^ m := Nat.le_mul_of_pos_right bits (Nat.two_pow_pos m)
  have hroom : bits * 5 ^ few < coefficientBound :=
    calc bits * 5 ^ few ≤ bits * 5 ^ 3 :=
          Nat.mul_le_mul_left _ (Nat.pow_le_pow_right (by decide) hfew)
      _ < coefficientBound := by rw [coefficientBound_eq]; omega
  have hrange := (snd_divideByTwos few bits 0).1
  rw [divideByTwos_mul, powerValue_divideByTwos 0 hroom]
  refine ⟨?_, by omega⟩
  rw [powerValue, zpow_zero, mul_one, pow_add]
  push_cast
  rw [mul_div_mul_right _ _ (by positivity)]

/-- A double below the whole ones is brought into a decimal near to it, and a multiple of one eighth
into a decimal of its value. -/
theorem ofDouble?_negSucc (hmantissa : mantissa < 2 ^ 53) (hn : n < 1074) :
    ∃ d, ScaledDecimal.ofDouble? mantissa (.negSucc n) = some d ∧
      |d.value - mantissa / 2 ^ (n + 1)| ≤
        2 ^ 13 / 2 ^ 96 * (mantissa / 2 ^ (n + 1)) + 2 / 10 ^ 28 ∧
      (2 ^ (n + 1) ∣ 8 * mantissa → d.value = mantissa / 2 ^ (n + 1)) := by
  have hrange := snd_divideByTwos (n + 1) mantissa 0
  obtain ⟨hle, hlost⟩ := loses_divideByTwos (n + 1) mantissa 0
  obtain ⟨d, hd, hnear, hexact⟩ := ofPower?_of_nonpos (divideByTwos (n + 1) mantissa 0).1 hrange.2
  have hstart : powerValue (mantissa, 0) = mantissa := by simp [powerValue]
  rw [hstart] at hle hlost
  refine ⟨d, hd, ?_, fun hdvd => ?_⟩
  · have hsteps : ((n + 1 : Nat) : ℚ) * (5 / 2 ^ 96 * (mantissa / 2 ^ (n + 1))) ≤
        2 ^ 13 / 2 ^ 96 * (mantissa / 2 ^ (n + 1)) := by
      rw [← mul_assoc]
      refine mul_le_mul_of_nonneg_right ?_ (by positivity)
      have hcast : ((n + 1 : Nat) : ℚ) ≤ 1074 := by exact_mod_cast hn
      linarith
    rw [abs_le] at hnear ⊢
    constructor <;> linarith
  · obtain ⟨hvalue, hpower⟩ := powerValue_divideByTwos_of_dvd hmantissa hdvd
    rw [hexact (by omega), ← hvalue]

/-! ### Ties -/

theorem HalfEven.of_near {q r : ℚ} {n : Nat} (h : HalfEven r n) (hq : 0 ≤ q)
    (hfar : ∀ t : Nat, |r - q| < |q - (t + 1 / 2)|) : HalfEven q n := by
  have hlow := h.low
  have hhigh := h.high
  refine .of_lt ?_ ?_
  -- A tie between `q` and `n` lies between `q` and `r` too, so that `r` is farther away.
  · by_contra hle
    have hle := le_of_not_gt hle
    cases n with
    | zero =>
      rw [Nat.cast_zero] at hle
      linarith
    | succ t =>
      have htie := hfar t
      push_cast at hle hlow
      rw [abs_of_nonpos (by linarith : q - (t + 1 / 2) ≤ 0)] at htie
      linarith [le_abs_self (r - q)]
  · by_contra hge
    have hge := le_of_not_gt hge
    have htie := hfar n
    rw [abs_of_nonneg (by linarith : (0 : ℚ) ≤ q - (n + 1 / 2))] at htie
    linarith [neg_abs_le (r - q)]

/-- A double that is no multiple of one eighth is no tie of hundredths, and not near to one. -/
theorem tie_distance {k : Nat} (t : Nat) (h : ¬2 ^ k ∣ 8 * mantissa) :
    4 / 2 ^ k ≤ |100 * ((mantissa : ℚ) / 2 ^ k) - (t + 1 / 2)| := by
  obtain ⟨m, rfl⟩ : ∃ m, k = 3 + m := by
    refine Nat.exists_eq_add_of_le ?_
    by_contra hk
    exact h (Dvd.dvd.mul_right (Nat.pow_dvd_pow 2 (by omega : k ≤ 3)) mantissa)
  have hne : (25 * mantissa : Int) - (2 * t + 1) * 2 ^ m ≠ 0 := by
    intro hzero
    have hmul : 2 ^ m ∣ 25 * mantissa := by
      refine ⟨2 * t + 1, ?_⟩
      have : (25 * mantissa : Int) = 2 ^ m * (2 * t + 1) := by linarith
      exact_mod_cast this
    have hdvd : 2 ^ m ∣ mantissa :=
      Nat.Coprime.dvd_of_dvd_mul_left (Nat.Coprime.pow_left m (by decide)) hmul
    exact h (by rw [pow_add]; exact Nat.mul_dvd_mul_left 8 hdvd)
  have hone : (1 : ℚ) ≤ |(25 * mantissa : ℚ) - (2 * t + 1) * 2 ^ m| := by
    exact_mod_cast Int.one_le_abs hne
  have hpos : (0 : ℚ) < 2 ^ m := by positivity
  have hunits : 100 * ((mantissa : ℚ) / 2 ^ (3 + m)) - (t + 1 / 2) =
      (25 * mantissa - (2 * t + 1) * 2 ^ m) / (2 * 2 ^ m) := by
    rw [pow_add]
    field_simp
    ring
  have hhalf : (4 : ℚ) / 2 ^ (3 + m) = 1 / (2 * 2 ^ m) := by
    rw [pow_add]
    field_simp
    norm_num
  rw [hunits, hhalf, abs_div, abs_of_pos (show (0 : ℚ) < 2 * 2 ^ m by positivity)]
  exact div_le_div_of_nonneg_right hone (by positivity)

/-- What is lost on the way into a decimal does not lead over a tie. -/
theorem HalfEven.of_decimal {k n : Nat} {v : ℚ} (hmantissa : mantissa < 2 ^ 53)
    (h : ¬2 ^ k ∣ 8 * mantissa)
    (hnear : |v - mantissa / 2 ^ k| ≤ 2 ^ 13 / 2 ^ 96 * (mantissa / 2 ^ k) + 2 / 10 ^ 28)
    (hround : HalfEven (100 * v) n) : HalfEven (100 * (mantissa / 2 ^ k)) n := by
  refine hround.of_near (by positivity) fun t => ?_
  have htie := tie_distance t h
  rw [← mul_sub, abs_mul, abs_of_pos (by norm_num : (0 : ℚ) < 100)]
  have hbound : (mantissa : ℚ) / 2 ^ k ≤ 2 ^ 53 * (1 / 2 ^ k) := by
    rw [div_eq_mul_one_div]
    have hcast : (mantissa : ℚ) ≤ 2 ^ 53 := by exact_mod_cast hmantissa.le
    gcongr
  rcases Nat.le_total k 86 with hk | hk
  · have hunit : (1 : ℚ) / 2 ^ 86 ≤ 1 / 2 ^ k := by
      gcongr
      norm_num
    rw [← mul_one_div (4 : ℚ)] at htie
    linarith
  · -- So small a double is not even near to the first tie.
    have hunit : (1 : ℚ) / 2 ^ k ≤ 1 / 2 ^ 86 := by
      gcongr
      norm_num
    have hnonneg : (0 : ℚ) ≤ t := Nat.cast_nonneg t
    have habs := neg_abs_le (100 * ((mantissa : ℚ) / 2 ^ k) - (t + 1 / 2))
    linarith

theorem halfEven_divideHalfEven (numerator : Nat) {denominator : Nat} (h : 0 < denominator) :
    HalfEven (numerator / denominator) (divideHalfEven numerator denominator) := by
  have hpos : (0 : ℚ) < denominator := by exact_mod_cast h
  have hdivide : (numerator : ℚ) / denominator = (numerator / denominator : Nat) +
      (numerator % denominator : Nat) / denominator := by
    have hsum : (numerator : ℚ) = denominator * (numerator / denominator : Nat) +
        (numerator % denominator : Nat) := by
      exact_mod_cast (Nat.div_add_mod numerator denominator).symm
    nth_rewrite 1 [hsum]
    rw [add_div, mul_div_cancel_left₀ _ hpos.ne']
  have hrest : ((numerator % denominator : Nat) : ℚ) / denominator < 1 := by
    rw [div_lt_one hpos]
    exact_mod_cast Nat.mod_lt numerator h
  have hnonneg : (0 : ℚ) ≤ (numerator % denominator : Nat) / denominator := by positivity
  rw [hdivide]
  unfold divideHalfEven
  dsimp only
  cases hcompare : compare (2 * (numerator % denominator)) denominator with
  | lt =>
    have hless : (2 * (numerator % denominator : Nat) : ℚ) < denominator := by
      exact_mod_cast Nat.compare_eq_lt.mp hcompare
    have hhalf : ((numerator % denominator : Nat) : ℚ) / denominator < 1 / 2 := by
      rw [div_lt_iff₀ hpos]
      linarith
    exact .of_lt (by linarith) (by linarith)
  | gt =>
    have hmore : (denominator : ℚ) < 2 * (numerator % denominator : Nat) := by
      exact_mod_cast Nat.compare_eq_gt.mp hcompare
    have hhalf : (1 : ℚ) / 2 < (numerator % denominator : Nat) / denominator := by
      rw [lt_div_iff₀ hpos]
      linarith
    refine .of_lt ?_ ?_ <;> push_cast <;> linarith
  | eq =>
    have hsame : (2 * (numerator % denominator : Nat) : ℚ) = denominator := by
      exact_mod_cast Nat.compare_eq_eq.mp hcompare
    have hhalf : ((numerator % denominator : Nat) : ℚ) / denominator = 1 / 2 := by
      rw [div_eq_iff hpos.ne']
      linarith
    dsimp only
    rcases Nat.mod_two_eq_zero_or_one (numerator / denominator) with heven | hodd
    · rw [heven]
      exact .of_even (by omega) (by push_cast; linarith) (by push_cast; linarith)
    · rw [hodd]
      exact .of_even (by omega) (by push_cast; linarith) (by push_cast; linarith)

/-- A decimal is rounded to the even one of two nearest ones. -/
theorem ScaledDecimal.value_round (d : ScaledDecimal) (places : Nat) :
    (d.round places).scale ≤ places ∧ ∃ n, HalfEven (10 ^ places * d.value) n ∧
      (d.round places).value = n / 10 ^ places := by
  unfold ScaledDecimal.round
  split
  · next hscale =>
    obtain ⟨m, rfl⟩ := Nat.exists_eq_add_of_le hscale
    have hvalue : 10 ^ (d.scale + m) * d.value = (d.coefficient * 10 ^ m : Nat) := by
      rw [value, pow_add]
      push_cast
      field_simp
    refine ⟨hscale, d.coefficient * 10 ^ m, .of_eq hvalue, ?_⟩
    rw [← hvalue, mul_div_cancel_left₀ _ (by positivity)]
  · next hscale =>
    obtain ⟨m, hm⟩ := Nat.exists_eq_add_of_le (Nat.le_of_not_le hscale)
    have hvalue : 10 ^ places * d.value = d.coefficient / (10 ^ m : Nat) := by
      rw [value, hm, pow_add]
      push_cast
      field_simp
    rw [hvalue, hm, Nat.add_sub_cancel_left]
    exact ⟨le_rfl, _, halfEven_divideHalfEven _ (Nat.pow_pos (by decide)), rfl⟩

/-! ### The decimal of a double -/

variable {exponent : Int}

theorem ofDouble?_eq_none_iff (h : Canonical mantissa exponent) :
    ScaledDecimal.ofDouble? mantissa exponent = none ↔
      (2 ^ 96 : ℚ) ≤ mantissa * 2 ^ exponent := by
  have hmantissa : mantissa < 2 ^ 53 := h.lt
  have hleast := h.least
  cases exponent with
  | ofNat n =>
    have hfits : mantissa < coefficientBound := hmantissa.trans (by decide)
    rw [ofDouble?_ofNat mantissa n hfits, Int.ofNat_eq_natCast, zpow_natCast]
    have hcast : (2 ^ 96 : ℚ) ≤ mantissa * 2 ^ n ↔ coefficientBound ≤ mantissa * 2 ^ n := by
      rw [coefficientBound_eq]
      exact_mod_cast Iff.rfl
    rw [hcast]
    split <;> simp_all
  | negSucc n =>
    have hn : n < 1074 := by
      rw [leastExponent] at hleast
      omega
    obtain ⟨d, hd, -, -⟩ := ofDouble?_negSucc hmantissa hn
    have hsmall : (mantissa : ℚ) * 2 ^ (Int.negSucc n) < 2 ^ 96 := by
      rw [zpow_negSucc, ← div_eq_mul_inv]
      have hcast : (mantissa : ℚ) < 2 ^ 53 := by exact_mod_cast hmantissa
      have hle : (mantissa : ℚ) / 2 ^ (n + 1) ≤ mantissa :=
        div_le_self (by positivity) (one_le_pow₀ (by norm_num))
      linarith
    exact iff_of_false (by simp [hd]) (not_le.mpr hsmall)

/-- The decimal of a double may not have its value, but is rounded to the same hundredth. -/
theorem halfEven_round_ofDouble? {d : ScaledDecimal} (h : Canonical mantissa exponent)
    (hd : ScaledDecimal.ofDouble? mantissa exponent = some d) :
    ∃ n, HalfEven (100 * (mantissa * 2 ^ exponent)) n ∧ (d.round 2).value = n / 100 := by
  obtain ⟨-, n, hn, hvalue⟩ := d.value_round 2
  have hhundred : (10 : ℚ) ^ 2 = 100 := by norm_num
  rw [hhundred] at hn hvalue
  refine ⟨n, ?_, hvalue⟩
  have hmantissa : mantissa < 2 ^ 53 := h.lt
  have hleast := h.least
  cases exponent with
  | ofNat k =>
    rw [ofDouble?_ofNat mantissa k (hmantissa.trans (by decide))] at hd
    split at hd
    · cases hd
      simpa [ScaledDecimal.value] using hn
    · cases hd
  | negSucc k =>
    have hk : k < 1074 := by
      rw [leastExponent] at hleast
      omega
    obtain ⟨d', hd', hnear, hexact⟩ := ofDouble?_negSucc hmantissa hk
    obtain rfl : d' = d := Option.some.inj (hd'.symm.trans hd)
    rw [zpow_negSucc, ← div_eq_mul_inv]
    by_cases hdvd : 2 ^ (k + 1) ∣ 8 * mantissa
    · rwa [← hexact hdvd]
    · exact .of_decimal hmantissa hdvd hnear hn

/-- A finite double is brought into a decimal unless it is too great for one, and that decimal is
rounded to the hundredth nearest to the double itself, the even one when two are equally near. -/
theorem round_ofDouble?_exact {x : Float} (h : x.isFinite = true) :
    ∃ negative mantissa exponent a,
      Binary64.ofFloat x = .finite negative mantissa exponent ∧ value? x = some a ∧
      (ScaledDecimal.ofDouble? mantissa exponent = none ↔ 2 ^ 96 ≤ |a|) ∧
      ∀ d, ScaledDecimal.ofDouble? mantissa exponent = some d →
        (d.round 2).scale ≤ 2 ∧
          ∃ n, HalfEven (100 * |a|) n ∧ (d.round 2).value = n / 100 := by
  obtain ⟨a, ha⟩ := exists_value? h
  obtain ⟨sign, mantissa, exponent, hx, hcanonical, -, rfl⟩ := exists_of_value? ha
  refine ⟨_, mantissa, exponent, _, hx, ha, ?_, fun d hd => ⟨(d.value_round 2).1, ?_⟩⟩ <;>
    rw [abs_withSign sign (by positivity)]
  · exact ofDouble?_eq_none_iff hcanonical
  · exact halfEven_round_ofDouble? hcanonical hd

/-- One eighth lies between 12 and 13 hundredths, equally near to both. -/
theorem round_ofDouble?_eighth : (0.125 : Float).isFinite = true ∧
    ∃ d, ScaledDecimal.ofDouble? leastNormalMantissa (-55) = some d ∧
      (d.round 2).value = 12 / 100 := by
  have hfinite : (0.125 : Float).isFinite = true := by decide +kernel
  have hx : Binary64.ofFloat 0.125 = .finite false leastNormalMantissa (-55) := by decide +kernel
  obtain ⟨_, mantissa, exponent, a, hx', ha, hnone, hround⟩ := round_ofDouble?_exact hfinite
  rw [hx] at hx'
  injection hx' with _ hmantissa hexponent
  have hvalue : a = 1 / 8 := by
    rw [value?_eq hx] at ha
    rw [← Option.some.inj ha, leastNormalMantissa_eq]
    norm_num
  subst hmantissa hexponent hvalue
  obtain ⟨d, hd⟩ := Option.ne_none_iff_exists'.mp (mt hnone.mp (by norm_num [abs_of_pos]))
  obtain ⟨-, n, hn, hd'⟩ := hround d hd
  have heven : HalfEven (100 * |(1 / 8 : ℚ)|) 12 := by
    rw [abs_of_pos (by norm_num)]
    exact .of_even rfl (by norm_num) (by norm_num)
  exact ⟨hfinite, d, hd, by rw [hd', hn.unique heven, Nat.cast_ofNat]⟩

end LedgerFields.Number
