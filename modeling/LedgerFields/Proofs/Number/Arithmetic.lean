import LedgerFields.Proofs.Number.Signed

/-! The arithmetic of finite doubles, with their signs: sums, differences, products, quotients and
whole numbers are the doubles nearest to the exact results. A result is finite when the exact one is
below the greatest double by which a tie would still be rounded down. -/

namespace LedgerFields.Number

open Float.Model Float.Model.UnpackedFloat

/-- The number with a sign. -/
def withSign (sign : Sign) (q : ℚ) : ℚ :=
  (if isNegative sign then -1 else 1) * q

/-- `x` is the double nearest to `q`, an infinity when `q` is beyond the doubles. -/
def IsRounded (q : ℚ) (x : Float) : Prop :=
  ∃ sign mantissa exponent, Nearest |q| mantissa exponent ∧
    Binary64.ofFloat x = .ofCanonical (isNegative sign) mantissa exponent ∧
    (q < 0 → sign = .negative) ∧ (0 < q → sign = .positive)

variable {x y : Float} {a b q : ℚ}

theorem withSign_negative (q : ℚ) : withSign .negative q = -q := neg_one_mul q

theorem withSign_positive (q : ℚ) : withSign .positive q = q := one_mul q

theorem abs_withSign (sign : Sign) (hq : 0 ≤ q) : |withSign sign q| = q := by
  cases sign <;> simp [withSign, isNegative, abs_of_nonneg hq]

/-- A finite double has a sign, a mantissa and an exponent, which give its value. -/
theorem exists_of_value? (h : value? x = some a) : ∃ sign mantissa exponent,
    Binary64.ofFloat x = .finite (isNegative sign) mantissa exponent ∧
      Canonical mantissa exponent ∧ exponent < 972 ∧
      a = withSign sign (mantissa * 2 ^ exponent) := by
  unfold value? at h
  split at h
  · next negative mantissa exponent hx =>
    obtain ⟨hcanonical, hexponent, -⟩ := toNat_toBits_of_finite hx
    cases h
    cases negative with
    | false => exact ⟨.positive, mantissa, exponent, hx, hcanonical, hexponent, rfl⟩
    | true => exact ⟨.negative, mantissa, exponent, hx, hcanonical, hexponent, rfl⟩
  · cases h

theorem isRounded_of_nearest (sign : Sign) {mantissa : Nat} {exponent : Int} (hq : 0 ≤ q)
    (h : Nearest q mantissa exponent)
    (hx : Binary64.ofFloat x = .ofCanonical (isNegative sign) mantissa exponent) :
    IsRounded (withSign sign q) x := by
  refine ⟨sign, mantissa, exponent, ?_, hx, fun hneg => ?_, fun hpos => ?_⟩
  · rwa [abs_withSign sign hq]
  · cases sign with
    | negative => rfl
    | positive =>
      rw [withSign_positive] at hneg
      exact absurd hneg (not_lt.mpr hq)
  · cases sign with
    | negative =>
      rw [withSign_negative] at hpos
      linarith
    | positive => rfl

/-- A canonical double is put together as the double nearest to a number with its sign. -/
theorem isRounded_pack (sign : Sign) {mantissa : Nat} {exponent : Int} (hq : 0 ≤ q)
    (h : Nearest q mantissa exponent) :
    IsRounded (withSign sign q) (.ofModel (.pack (unpacked sign mantissa exponent))) :=
  isRounded_of_nearest sign hq h (ofFloat_pack h.canonical sign)

theorem isRounded_zero (sign : Sign) : IsRounded 0 (.ofModel (.pack (.zero sign))) := by
  have hzero := isRounded_pack sign le_rfl (nearest_zero le_rfl (two_zpow_pos _))
  rwa [withSign, mul_zero] at hzero

theorem isRounded_unpacked (sign : Sign) {mantissa : Nat} {exponent : Int}
    (h : Canonical mantissa exponent) :
    IsRounded (withSign sign (mantissa * 2 ^ exponent))
      (.ofModel (.pack (unpacked sign mantissa exponent))) :=
  isRounded_pack sign (by positivity) h.nearest

/-- A whole number of units, with its sign, is rounded to the nearest double. -/
theorem isRounded_normalize (m : Int) (e : Int) :
    IsRounded (m * 2 ^ e)
      (.ofModel (.pack (UnpackedFloat.normalize Format.binary64 m e .positive))) := by
  unfold UnpackedFloat.normalize
  rcases lt_trichotomy m 0 with hm | rfl | hm
  · obtain ⟨n, rfl⟩ : ∃ n : Nat, m = -(n : Int) := ⟨m.natAbs, by omega⟩
    obtain ⟨mantissa, exponent, hnearest, hround⟩ :=
      round_nearest (e := e) .negative (show 0 < n by omega)
    have hrounded := isRounded_pack .negative (by positivity) hnearest
    rw [withSign_negative, ← hround] at hrounded
    rw [Int.compare_eq_lt.mpr hm, Int.cast_neg, Int.cast_natCast, neg_mul]
    simpa only [neg_neg, Int.toNat_natCast] using hrounded
  · rw [Int.compare_eq_eq.mpr rfl, Int.cast_zero, zero_mul]
    exact isRounded_zero .positive
  · obtain ⟨n, rfl⟩ : ∃ n : Nat, m = (n : Int) := ⟨m.natAbs, by omega⟩
    obtain ⟨mantissa, exponent, hnearest, hround⟩ :=
      round_nearest (e := e) .positive (show 0 < n by omega)
    have hrounded := isRounded_pack .positive (by positivity) hnearest
    rw [withSign_positive, ← hround] at hrounded
    rw [Int.compare_eq_gt.mpr hm, Int.cast_natCast]
    simpa only [Int.toNat_natCast] using hrounded

theorem cast_apply (sign : Sign) (n : Nat) : ((sign.apply n : Int) : ℚ) = withSign sign n := by
  cases sign <;> simp [Sign.apply, withSign, isNegative]

theorem withSign_neg (sign : Sign) (q : ℚ) : withSign (-sign) q = -withSign sign q := by
  cases sign
  · show withSign .positive q = -withSign .negative q
    rw [withSign_positive, withSign_negative, neg_neg]
  · show withSign .negative q = -withSign .positive q
    rw [withSign_positive, withSign_negative]

section

variable {m n : Nat} {e f : Int}

/-- A mantissa in units that are not greater than its own. -/
theorem shiftLeft_mul_zpow (m : Nat) {e t : Int} (h : t ≤ e) :
    ((m <<< (e - t).toNat : Nat) : ℚ) * 2 ^ t = m * 2 ^ e := by
  rw [Nat.shiftLeft_eq]
  push_cast
  rw [mul_assoc, ← zpow_natCast, ← zpow_add₀ (by norm_num)]
  congr 2
  omega

/-- The mantissas of both terms are brought to the lesser exponent and added. -/
theorem isRounded_add_unpacked (s t : Sign) (hm : Canonical m e) (hn : Canonical n f) :
    IsRounded (withSign s (m * 2 ^ e) + withSign t (n * 2 ^ f))
      (.ofModel (.pack (UnpackedFloat.add Format.binary64 (unpacked s m e) (unpacked t n f)))) := by
  have hnone (sign : Sign) (exponent : Int) :
      withSign sign ((0 : Nat) * 2 ^ exponent) = 0 := by
    simp [withSign]
  rcases Nat.eq_zero_or_pos m with rfl | hmpos <;> rcases Nat.eq_zero_or_pos n with rfl | hnpos
  · rw [hnone, hnone, add_zero]
    obtain ⟨sign, hsign⟩ : ∃ sign, UnpackedFloat.add Format.binary64 (unpacked s 0 e)
        (unpacked t 0 f) = .zero sign := by
      cases s <;> cases t <;> exact ⟨_, rfl⟩
    rw [hsign]
    exact isRounded_zero sign
  · have hadd : UnpackedFloat.add Format.binary64 (unpacked s 0 e) (unpacked t n f) =
        unpacked t n f := by
      rw [unpacked_zero, unpacked_of_pos _ _ hnpos]
      rfl
    rw [hnone, zero_add, hadd]
    exact isRounded_unpacked t hn
  · have hadd : UnpackedFloat.add Format.binary64 (unpacked s m e) (unpacked t 0 f) =
        unpacked s m e := by
      rw [unpacked_zero, unpacked_of_pos _ _ hmpos]
      rfl
    rw [hnone, add_zero, hadd]
    exact isRounded_unpacked s hm
  · have hadd : UnpackedFloat.add Format.binary64 (unpacked s m e) (unpacked t n f) =
        UnpackedFloat.normalize Format.binary64
          (s.apply (m <<< (e - min e f).toNat : Nat) + t.apply (n <<< (f - min e f).toNat : Nat))
          (min e f) .positive := by
      rw [unpacked_of_pos _ _ hmpos, unpacked_of_pos _ _ hnpos]
      rfl
    have hsign (sign : Sign) (p q : ℚ) : withSign sign p * q = withSign sign (p * q) := by
      simp only [withSign, mul_assoc]
    have hsum := isRounded_normalize (s.apply (m <<< (e - min e f).toNat : Nat) +
      t.apply (n <<< (f - min e f).toNat : Nat)) (min e f)
    rw [Int.cast_add, cast_apply, cast_apply, add_mul, hsign, hsign,
      shiftLeft_mul_zpow m (min_le_left e f), shiftLeft_mul_zpow n (min_le_right e f)] at hsum
    rw [hadd]
    exact hsum

theorem apply_neg (sign : Sign) (n : Int) : (-sign).apply n = -sign.apply n := by
  cases sign
  · exact (Int.neg_neg n).symm
  · rfl

theorem sub_unpacked (u v : UnpackedFloat) :
    UnpackedFloat.sub Format.binary64 u v = UnpackedFloat.add Format.binary64 u v.neg := by
  cases u with
  | finite s m e hm =>
    cases v with
    | finite t n f hn =>
      have hsub (i j : Int) : i - t.apply j = i + (-t).apply j := by
        rw [apply_neg, Int.sub_eq_add_neg]
      exact congrArg (UnpackedFloat.normalize Format.binary64 · (min e f) .positive) (hsub _ _)
    | _ => rfl
  | _ => cases v <;> rfl

end

/-- A sum is the double nearest to the exact sum. -/
theorem isRounded_add (hx : value? x = some a) (hy : value? y = some b) :
    IsRounded (a + b) (x + y) := by
  obtain ⟨s, m, e, hx', hm, -, rfl⟩ := exists_of_value? hx
  obtain ⟨t, n, f, hy', hn, -, rfl⟩ := exists_of_value? hy
  have hsum : x + y = .ofModel (.pack
      (UnpackedFloat.add Format.binary64 (unpacked s m e) (unpacked t n f))) := by
    rw [← unpack_toModel hx', ← unpack_toModel hy']
    rfl
  rw [hsum]
  exact isRounded_add_unpacked s t hm hn

theorem ofFloat_neg_signed {sign : Sign} {mantissa : Nat} {exponent : Int}
    (h : Binary64.ofFloat x = .finite (isNegative sign) mantissa exponent) :
    Binary64.ofFloat (-x) = .finite (isNegative (-sign)) mantissa exponent := by
  have hsign : isNegative (-sign) = !isNegative sign := by cases sign <;> rfl
  rw [hsign]
  exact ofFloat_neg h

theorem value?_neg (h : value? x = some a) : value? (-x) = some (-a) := by
  obtain ⟨sign, mantissa, exponent, hx, -, -, rfl⟩ := exists_of_value? h
  rw [value?_eq (ofFloat_neg_signed hx)]
  exact congrArg some (withSign_neg sign _)

/-- A difference is a sum, also where it is rounded. -/
theorem sub_eq_add_neg_of_value? (x : Float) (hy : value? y = some b) : x - y = x + -y := by
  obtain ⟨sign, mantissa, exponent, hy', -, -, -⟩ := exists_of_value? hy
  have hneg : (-y).toModel.unpack = y.toModel.unpack.neg := by
    rw [unpack_toModel (ofFloat_neg_signed hy'), unpack_toModel hy', neg_unpacked]
  have hdifference : x - y = .ofModel (.pack (UnpackedFloat.sub Format.binary64
      x.toModel.unpack y.toModel.unpack)) := rfl
  rw [hdifference, sub_unpacked, ← hneg]
  rfl

theorem isRounded_sub (hx : value? x = some a) (hy : value? y = some b) :
    IsRounded (a - b) (x - y) := by
  rw [sub_eq_add_neg_of_value? x hy, sub_eq_add_neg]
  exact isRounded_add hx (value?_neg hy)

theorem withSign_mul (s t : Sign) (p q : ℚ) :
    withSign s p * withSign t q = withSign (s * t) (p * q) := by
  cases s <;> cases t
  · show _ = withSign .positive _
    simp only [withSign_negative, withSign_positive, neg_mul_neg]
  · show _ = withSign .negative _
    simp only [withSign_negative, withSign_positive, neg_mul]
  · show _ = withSign .negative _
    simp only [withSign_negative, withSign_positive, mul_neg]
  · show _ = withSign .positive _
    simp only [withSign_positive]

theorem withSign_inv (sign : Sign) (q : ℚ) : (withSign sign q)⁻¹ = withSign sign q⁻¹ := by
  cases sign
  · rw [withSign_negative, withSign_negative, inv_neg]
  · rw [withSign_positive, withSign_positive]

theorem withSign_div (s t : Sign) (p q : ℚ) :
    withSign s p / withSign t q = withSign (s / t) (p / q) := by
  -- a sign is its own inverse, so that the signs of a quotient are those of a product
  have hsign : s / t = s * t := by cases s <;> cases t <;> rfl
  rw [hsign, div_eq_mul_inv, withSign_inv, withSign_mul, ← div_eq_mul_inv]

theorem mul_unpacked_of_zero (s t : Sign) {m n : Nat} (e f : Int) (h : m = 0 ∨ n = 0) :
    UnpackedFloat.mul Format.binary64 (unpacked s m e) (unpacked t n f) = .zero (s * t) := by
  rcases Nat.eq_zero_or_pos m with rfl | hm
  · rcases Nat.eq_zero_or_pos n with rfl | hn
    · rfl
    · rw [unpacked_zero, unpacked_of_pos _ _ hn]
      rfl
  · obtain rfl : n = 0 := h.resolve_left hm.ne'
    rw [unpacked_zero, unpacked_of_pos _ _ hm]
    rfl

theorem isRounded_mul (hx : value? x = some a) (hy : value? y = some b) :
    IsRounded (a * b) (x * y) := by
  obtain ⟨s, m, e, hx', -, -, rfl⟩ := exists_of_value? hx
  obtain ⟨t, n, f, hy', -, -, rfl⟩ := exists_of_value? hy
  rw [withSign_mul]
  by_cases hzero : m = 0 ∨ n = 0
  · have hproduct : x * y = .ofModel (.pack
        (UnpackedFloat.mul Format.binary64 (unpacked s m e) (unpacked t n f))) := by
      rw [← unpack_toModel hx', ← unpack_toModel hy']
      rfl
    have hq : (m * 2 ^ e * (n * 2 ^ f) : ℚ) = 0 := by
      rcases hzero with rfl | rfl <;> simp
    rw [hproduct, mul_unpacked_of_zero s t e f hzero, hq, withSign, mul_zero]
    exact isRounded_zero _
  · obtain ⟨hm, hn⟩ := not_or.mp hzero
    obtain ⟨mantissa, exponent, hnearest, hfloat⟩ :=
      ofFloat_mul hx' hy' (Nat.pos_of_ne_zero hm) (Nat.pos_of_ne_zero hn)
    exact isRounded_of_nearest (s * t) (by positivity) hnearest hfloat

/-- A quotient is the double nearest to the exact quotient, if the divisor is not zero. -/
theorem isRounded_div (hx : value? x = some a) (hy : value? y = some b) (hb : b ≠ 0) :
    IsRounded (a / b) (x / y) := by
  obtain ⟨s, m, e, hx', -, -, rfl⟩ := exists_of_value? hx
  obtain ⟨t, n, f, hy', -, -, rfl⟩ := exists_of_value? hy
  have hn : n ≠ 0 := by
    rintro rfl
    exact hb (by simp [withSign])
  rw [withSign_div]
  rcases Nat.eq_zero_or_pos m with rfl | hm
  · have hquotient : x / y = .ofModel (.pack
        (UnpackedFloat.div Format.binary64 (unpacked s 0 e) (unpacked t n f))) := by
      rw [← unpack_toModel hx', ← unpack_toModel hy']
      rfl
    have hdiv : UnpackedFloat.div Format.binary64 (unpacked s 0 e) (unpacked t n f) =
        .zero (s / t) := by
      rw [unpacked_zero, unpacked_of_pos _ _ (Nat.pos_of_ne_zero hn)]
      rfl
    rw [hquotient, hdiv, Nat.cast_zero, zero_mul, zero_div, withSign, mul_zero]
    exact isRounded_zero _
  · obtain ⟨mantissa, exponent, hnearest, hfloat⟩ :=
      ofFloat_div hx' hy' hm (Nat.pos_of_ne_zero hn)
    exact isRounded_of_nearest (s / t) (by positivity) hnearest hfloat

theorem isRounded_ofNat (n : Nat) : IsRounded n (Float.ofNat n) := by
  obtain ⟨mantissa, exponent, hnearest, hfloat⟩ := ofFloat_ofScientific n false 0
  rw [if_neg Bool.false_ne_true, Nat.cast_zero, zpow_zero, mul_one] at hnearest
  rw [← withSign_positive (n : ℚ)]
  exact isRounded_of_nearest .positive (Nat.cast_nonneg n) hnearest hfloat

/-! ### The range of the doubles -/

/-- The least number that is rounded beyond the doubles: it lies half way between the greatest one
and the power of two above it. -/
def overflowBound : ℚ := 2 ^ 1024 - 2 ^ 970

/-- The bound in units of the last place, below the power of two and above it. -/
theorem overflowBound_eq : overflowBound = (2 ^ 53 - 1 / 2) * 2 ^ (971 : Int) ∧
    overflowBound = (2 ^ 52 - 1 / 4) * 2 ^ (972 : Int) := by
  have hpower : (2 : ℚ) ^ 1024 = 2 ^ 54 * 2 ^ 970 := by rw [← pow_add]
  have hbelow : (2 : ℚ) ^ (971 : Int) = 2 ^ 970 * 2 := (zpow_ofNat 2 971).trans (pow_succ 2 970)
  have habove : (2 : ℚ) ^ (972 : Int) = 2 ^ 970 * 2 ^ 2 :=
    (zpow_ofNat 2 972).trans (pow_add 2 970 2)
  rw [overflowBound, hpower, hbelow, habove]
  generalize (2 : ℚ) ^ 970 = unit
  constructor <;> ring

/-- The double nearest to a number has too great an exponent when the number reaches the bound. -/
theorem Nearest.exponent_lt_iff {mantissa : Nat} {exponent : Int}
    (h : Nearest q mantissa exponent) : exponent < 972 ↔ q < overflowBound := by
  constructor
  · intro he
    have hlast : mantissa + 1 ≤ 2 ^ 53 := h.canonical.lt
    have hunits : q / 2 ^ exponent < 2 ^ 53 - 1 / 2 := by
      rcases Nat.eq_or_lt_of_le hlast with heq | hlt
      · have hodd := (h.halfEven.tie (by omega)).2
        have hcast : (mantissa : ℚ) + 1 = 2 ^ 53 := by exact_mod_cast heq
        linarith
      · have hcast : (mantissa : ℚ) + 1 + 1 ≤ 2 ^ 53 := by exact_mod_cast hlt
        linarith [h.halfEven.high]
    rw [div_lt_iff₀ (two_zpow_pos exponent)] at hunits
    have hpower : (2 : ℚ) ^ exponent ≤ 2 ^ (971 : Int) :=
      zpow_le_zpow_right₀ (by norm_num) (by omega)
    calc q < (2 ^ 53 - 1 / 2) * 2 ^ exponent := hunits
      _ ≤ (2 ^ 53 - 1 / 2) * 2 ^ (971 : Int) := mul_le_mul_of_nonneg_left hpower (by norm_num)
      _ = overflowBound := overflowBound_eq.1.symm
  · intro hq
    by_contra hge
    have hnormal : leastNormalMantissa ≤ mantissa := by
      refine h.canonical.normal.resolve_left fun heq => ?_
      simp only [leastExponent] at heq
      omega
    have hunits : (2 ^ 52 - 1 / 4 : ℚ) ≤ q / 2 ^ exponent := by
      rcases Nat.eq_or_lt_of_le hnormal with heq | hlt
      · have hdense := h.dense heq.symm (by simp only [leastExponent]; omega)
        simpa only [leastNormalMantissa_eq, Nat.cast_pow, Nat.cast_ofNat] using hdense
      · have hcast : (2 ^ 52 : ℚ) + 1 ≤ mantissa := by exact_mod_cast hlt
        linarith [h.halfEven.low]
    rw [le_div_iff₀ (two_zpow_pos exponent)] at hunits
    have hpower : (2 : ℚ) ^ (972 : Int) ≤ 2 ^ exponent :=
      zpow_le_zpow_right₀ (by norm_num) (by omega)
    have hbound : overflowBound ≤ q :=
      calc overflowBound = (2 ^ 52 - 1 / 4) * 2 ^ (972 : Int) := overflowBound_eq.2
        _ ≤ (2 ^ 52 - 1 / 4) * 2 ^ exponent := mul_le_mul_of_nonneg_left hpower (by norm_num)
        _ ≤ q := hunits
    exact absurd hq (not_lt.mpr hbound)

/-- A double that a number is rounded to is finite when the number is below the bound. -/
theorem IsRounded.isFinite_iff (h : IsRounded q x) : x.isFinite = true ↔ |q| < overflowBound := by
  obtain ⟨sign, mantissa, exponent, hnearest, hfloat, -, -⟩ := h
  rw [Number.isFinite_iff, hfloat, ← hnearest.exponent_lt_iff, Binary64.ofCanonical]
  split
  · next hlt => exact ⟨fun _ => hlt, fun _ => ⟨_, _, _, rfl⟩⟩
  · next hge =>
    refine iff_of_false ?_ hge
    rintro ⟨_, _, _, h⟩
    cases h

/-- Rounding makes a number twice as great at most. -/
theorem IsRounded.abs_le (h : IsRounded q x) (ha : value? x = some a) : |a| ≤ 2 * |q| := by
  obtain ⟨sign, mantissa, exponent, hnearest, hfloat, -, -⟩ := h
  obtain ⟨sign', mantissa', exponent', hx, -, -, rfl⟩ := exists_of_value? ha
  rw [hx, Binary64.ofCanonical] at hfloat
  split at hfloat
  · rw [Binary64.finite.injEq] at hfloat
    obtain ⟨-, rfl, rfl⟩ := hfloat
    have hunits : (mantissa' : ℚ) ≤ 2 * (|q| / 2 ^ exponent') := by
      rcases Nat.eq_zero_or_pos mantissa' with rfl | hpos
      · rw [Nat.cast_zero]
        positivity
      · have hone : (1 : ℚ) ≤ mantissa' := by exact_mod_cast hpos
        linarith [hnearest.halfEven.low]
    rw [← mul_div_assoc, le_div_iff₀ (two_zpow_pos exponent')] at hunits
    rwa [abs_withSign _ (by positivity)]
  · cases hfloat

/-- What is a double already is not rounded. -/
theorem IsRounded.value?_of_canonical {mantissa : Nat} {exponent : Int} (h : IsRounded q x)
    (hcanonical : Canonical mantissa exponent) (hexponent : exponent < 972)
    (hq : |q| = mantissa * 2 ^ exponent) : value? x = some q := by
  obtain ⟨sign, mantissa', exponent', hnearest, hfloat, hneg, hpos⟩ := h
  rw [hq] at hnearest
  obtain ⟨rfl, rfl⟩ := hnearest.unique hcanonical.nearest
  rw [Binary64.ofCanonical, if_pos hexponent] at hfloat
  rw [value?_eq hfloat, ← hq]
  show some (withSign sign |q|) = some q
  congr 1
  rcases lt_trichotomy q 0 with hlt | rfl | hgt
  · rw [hneg hlt, withSign_negative, abs_of_neg hlt, neg_neg]
  · rw [withSign, abs_zero, mul_zero]
  · rw [hpos hgt, withSign_positive, abs_of_pos hgt]

/-- The value of a double is rounded to that value. -/
theorem IsRounded.value?_eq_of_value? (h : IsRounded a y) (hx : value? x = some a) :
    value? y = some a := by
  obtain ⟨sign, mantissa, exponent, -, hcanonical, hexponent, rfl⟩ := exists_of_value? hx
  exact h.value?_of_canonical hcanonical hexponent (abs_withSign sign (by positivity))

/-- A whole number of at most 53 bits is turned into a double without being rounded. -/
theorem value?_ofNat {n : Nat} (h : n < 2 * leastNormalMantissa) :
    value? (Float.ofNat n) = some (n : ℚ) := by
  rcases Nat.eq_zero_or_pos n with rfl | hpos
  · refine (isRounded_ofNat 0).value?_of_canonical (nearest_zero le_rfl (two_zpow_pos _)).canonical
      (by decide) ?_
    simp
  · have hlog := (Nat.log2_lt hpos.ne').mpr (show n < 2 ^ 53 from h)
    refine (isRounded_ofNat n).value?_of_canonical (canonical_of_lt hpos h) (by omega) ?_
    rw [value_of_lt hpos h, abs_of_nonneg (Nat.cast_nonneg n)]

/-- The double is finite, and its value is not beyond the bound. -/
def IsWithin (bound : ℚ) (x : Float) : Prop :=
  ∃ a, value? x = some a ∧ |a| ≤ bound

variable {bound bound' : ℚ}

theorem IsWithin.isFinite (h : IsWithin bound x) : x.isFinite = true := by
  obtain ⟨a, ha, -⟩ := h
  exact isFinite_of_value? ha

theorem lt_overflowBound : (2 : ℚ) ^ 200 < overflowBound := by
  rw [overflowBound_eq.1, zpow_ofNat]
  have hpower : (2 : ℚ) ^ 200 ≤ 2 ^ 971 := pow_le_pow_right₀ (by norm_num) (by norm_num)
  have hpos : (0 : ℚ) < 2 ^ 971 := pow_pos (by norm_num) 971
  generalize (2 : ℚ) ^ 971 = unit at hpower hpos
  linarith

/-- Rounding a number that is not too great gives a double that is not much greater. -/
theorem IsRounded.isWithin (h : IsRounded q x) (hq : |q| ≤ bound) (hbound : bound ≤ 2 ^ 200) :
    IsWithin (2 * bound) x := by
  have hfinite := h.isFinite_iff.mpr (lt_of_le_of_lt (hq.trans hbound) lt_overflowBound)
  obtain ⟨a, ha⟩ := exists_value? hfinite
  have hle := h.abs_le ha
  exact ⟨a, ha, by linarith⟩

theorem isWithin_ofNat {n : Nat} (h : (n : ℚ) ≤ bound) (hbound : bound ≤ 2 ^ 200) :
    IsWithin (2 * bound) (Float.ofNat n) := by
  refine (isRounded_ofNat n).isWithin ?_ hbound
  rwa [abs_of_nonneg (Nat.cast_nonneg n)]

theorem IsWithin.add (hx : IsWithin bound x) (hy : IsWithin bound' y)
    (hbound : bound + bound' ≤ 2 ^ 200) : IsWithin (2 * (bound + bound')) (x + y) := by
  obtain ⟨a, ha, hale⟩ := hx
  obtain ⟨b, hb, hble⟩ := hy
  exact (isRounded_add ha hb).isWithin ((abs_add_le a b).trans (add_le_add hale hble)) hbound

theorem IsWithin.mul (hx : IsWithin bound x) (hy : IsWithin bound' y)
    (hbound : bound * bound' ≤ 2 ^ 200) : IsWithin (2 * (bound * bound')) (x * y) := by
  obtain ⟨a, ha, hale⟩ := hx
  obtain ⟨b, hb, hble⟩ := hy
  refine (isRounded_mul ha hb).isWithin ?_ hbound
  rw [abs_mul]
  exact mul_le_mul hale hble (abs_nonneg b) ((abs_nonneg a).trans hale)

theorem IsWithin.div (hx : IsWithin bound x) (hy : value? y = some b) (hb : 1 ≤ b)
    (hbound : bound ≤ 2 ^ 200) : IsWithin (2 * bound) (x / y) := by
  obtain ⟨a, ha, hale⟩ := hx
  refine (isRounded_div ha hy (by linarith)).isWithin ?_ hbound
  rw [abs_div]
  refine (div_le_self (abs_nonneg a) ?_).trans hale
  exact hb.trans (le_abs_self b)

end LedgerFields.Number
