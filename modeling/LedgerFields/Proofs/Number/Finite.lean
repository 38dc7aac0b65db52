import LedgerFields.Proofs.Number.Hundredths

/-! When the result of an operation is finite. On finite operands it is unless the exact result is
too great for a double. What is infinite or no number stays so through all operations but one: a
finite number divided by an infinite one is zero. -/

namespace LedgerFields.Number

open Float.Model Float.Model.UnpackedFloat

section

variable {u v : UnpackedFloat}

/-- Packing makes nothing finite. -/
theorem isFinite_of_pack (h : (Float.ofModel (.pack u)).isFinite = true) : u.isFinite = true := by
  cases u with
  | notANumber => exact absurd h (by decide +kernel)
  | infinity sign => exact absurd h (by cases sign <;> decide +kernel)
  | zero | finite => rfl

theorem isFinite_of_add_unpacked (h : (UnpackedFloat.add Format.binary64 u v).isFinite = true) :
    u.isFinite = true ∧ v.isFinite = true := by
  cases u with
  | notANumber => cases h
  | infinity sign =>
    cases v with
    | infinity sign' => cases sign <;> cases sign' <;> cases h
    | _ => cases h
  | zero | finite =>
    cases v with
    | notANumber | infinity => cases h
    | zero | finite => exact ⟨rfl, rfl⟩

theorem isFinite_of_mul_unpacked (h : (UnpackedFloat.mul Format.binary64 u v).isFinite = true) :
    u.isFinite = true ∧ v.isFinite = true := by
  cases u with
  | notANumber => cases h
  | infinity => cases v <;> cases h
  | zero | finite =>
    cases v with
    | notANumber | infinity => cases h
    | zero | finite => exact ⟨rfl, rfl⟩

theorem isFinite_of_div_unpacked (h : (UnpackedFloat.div Format.binary64 u v).isFinite = true) :
    u.isFinite = true ∧ v.isNaN = false := by
  cases u with
  | notANumber => cases h
  | infinity => cases v <;> cases h
  | zero | finite =>
    cases v with
    | notANumber => cases h
    | infinity | zero | finite => exact ⟨rfl, rfl⟩

theorem isFinite_of_neg_unpacked (h : u.neg.isFinite = true) : u.isFinite = true := by
  cases u with
  | notANumber | infinity => cases h
  | zero | finite => rfl

/-- A finite number divided by an infinite one. -/
theorem div_infinity_unpacked (hu : u.isFinite = true) (hv : ¬v.isFinite = true)
    (hnumber : v.isNaN = false) : ∃ sign, UnpackedFloat.div Format.binary64 u v = .zero sign := by
  cases v with
  | notANumber => cases hnumber
  | zero | finite => exact absurd rfl hv
  | infinity sign =>
    cases u with
    | notANumber | infinity => cases hu
    | zero sign' | finite sign' => exact ⟨sign' / sign, rfl⟩

end

variable {x y z : Float} {a b : ℚ}

theorem unpack_zero : (0.0 : Float).toModel.unpack = .zero .positive := by
  have hread : Binary64.ofFloat 0.0 = .finite (isNegative .positive) 0 leastExponent :=
    ofFloat_ofScientific_zero true ⟨1, by decide⟩
  exact unpack_toModel hread

theorem beq_zero_iff {x : Float} {a : ℚ} (h : value? x = some a) :
    (x == 0.0) = true ↔ a = 0 := by
  obtain ⟨sign, mantissa, exponent, hx, -, -, rfl⟩ := exists_of_value? h
  have hbeq : (x == 0.0) = (unpacked sign mantissa exponent).beq (.zero .positive) := by
    rw [← unpack_toModel hx, ← unpack_zero]
    rfl
  have hvalue : withSign sign (mantissa * 2 ^ exponent) = 0 ↔ mantissa = 0 := by
    rw [← abs_eq_zero, abs_withSign sign (by positivity), mul_eq_zero,
      or_iff_left (two_zpow_pos exponent).ne', Nat.cast_eq_zero]
  rw [hbeq, hvalue]
  rcases Nat.eq_zero_or_pos mantissa with rfl | hpos
  · exact ⟨fun _ => rfl, fun _ => (by cases sign <;> rfl)⟩
  · rw [unpacked_of_pos _ _ hpos]
    exact ⟨fun h => (by cases sign <;> cases h), fun h => absurd h hpos.ne'⟩

theorem isFinite_zero : (0.0 : Float).isFinite = true := by
  decide +kernel

theorem isNaN_of_isFinite {x : Float} (h : x.isFinite = true) : x.isNaN = false := by
  have hfinite : x.toModel.unpack.isFinite = true := h
  show x.toModel.unpack.isNaN = false
  cases hunpack : x.toModel.unpack with
  | notANumber =>
    rw [hunpack] at hfinite
    cases hfinite
  | infinity | zero | finite => rfl

theorem isFinite_of_beq_zero {x : Float} (h : (x == 0.0) = true) : x.isFinite = true := by
  have hbeq : x.toModel.unpack.beq (0.0 : Float).toModel.unpack = true := h
  show x.toModel.unpack.isFinite = true
  rw [unpack_zero] at hbeq
  cases hunpack : x.toModel.unpack with
  | notANumber =>
    rw [hunpack] at hbeq
    cases hbeq
  | infinity sign =>
    rw [hunpack] at hbeq
    cases sign <;> cases hbeq
  | zero | finite => rfl

/-- The exact result of an operation on two finite numbers is too great for a double. -/
def Exceeds (exact : ℚ → ℚ → ℚ) (x y : Float) : Prop :=
  ∃ a b, value? x = some a ∧ value? y = some b ∧ overflowBound ≤ |exact a b|

section

variable (hx : x.isFinite = true) (hy : y.isFinite = true)

include hx hy

/-- An operation that rounds its exact result gives an infinity only when that is too great. -/
theorem isFinite_iff_not_exceeds {exact : ℚ → ℚ → ℚ}
    (h : ∀ a b, value? x = some a → value? y = some b → IsRounded (exact a b) z) :
    z.isFinite = true ↔ ¬Exceeds exact x y := by
  obtain ⟨a, ha⟩ := exists_value? hx
  obtain ⟨b, hb⟩ := exists_value? hy
  rw [(h a b ha hb).isFinite_iff, ← not_le]
  refine not_congr ⟨fun hge => ⟨a, b, ha, hb, hge⟩, ?_⟩
  rintro ⟨a', b', ha', hb', hge⟩
  obtain rfl := Option.some.inj (ha.symm.trans ha')
  obtain rfl := Option.some.inj (hb.symm.trans hb')
  exact hge

theorem isFinite_add_iff : (x + y).isFinite = true ↔ ¬Exceeds (· + ·) x y :=
  isFinite_iff_not_exceeds hx hy fun _ _ => isRounded_add

theorem isFinite_sub_iff : (x - y).isFinite = true ↔ ¬Exceeds (· - ·) x y :=
  isFinite_iff_not_exceeds hx hy fun _ _ => isRounded_sub

theorem isFinite_mul_iff : (x * y).isFinite = true ↔ ¬Exceeds (· * ·) x y :=
  isFinite_iff_not_exceeds hx hy fun _ _ => isRounded_mul

theorem isFinite_div_iff (hzero : ¬(y == 0.0) = true) :
    (x / y).isFinite = true ↔ ¬Exceeds (· / ·) x y :=
  isFinite_iff_not_exceeds hx hy fun _ _ ha hb =>
    isRounded_div ha hb (mt (beq_zero_iff hb).mpr hzero)

end

theorem isFinite_of_add (h : (x + y).isFinite = true) : x.isFinite = true ∧ y.isFinite = true :=
  isFinite_of_add_unpacked (isFinite_of_pack h)

theorem isFinite_of_sub (h : (x - y).isFinite = true) :
    x.isFinite = true ∧ y.isFinite = true := by
  have hsub : (UnpackedFloat.sub Format.binary64 x.toModel.unpack y.toModel.unpack).isFinite =
      true := isFinite_of_pack h
  rw [sub_unpacked] at hsub
  obtain ⟨hx, hy⟩ := isFinite_of_add_unpacked hsub
  exact ⟨hx, isFinite_of_neg_unpacked hy⟩

theorem isFinite_of_mul (h : (x * y).isFinite = true) : x.isFinite = true ∧ y.isFinite = true :=
  isFinite_of_mul_unpacked (isFinite_of_pack h)

theorem isFinite_of_div (h : (x / y).isFinite = true) : x.isFinite = true ∧ y.isNaN = false :=
  isFinite_of_div_unpacked (isFinite_of_pack h)

theorem isFinite_of_neg (h : (-x).isFinite = true) : x.isFinite = true :=
  isFinite_of_neg_unpacked (isFinite_of_pack h)

theorem isFinite_div_infinite (hx : x.isFinite = true) (hy : ¬y.isFinite = true)
    (hnumber : y.isNaN = false) : (x / y).isFinite = true := by
  obtain ⟨sign, hdiv⟩ := div_infinity_unpacked hx hy hnumber
  have hquotient : x / y = .ofModel (.pack (.zero sign)) := by
    rw [← hdiv]
    rfl
  rw [hquotient]
  cases sign <;> decide +kernel

theorem isFinite_roundHundredths_iff : (roundHundredths x).isFinite = true ↔ x.isFinite = true := by
  refine ⟨fun h => ?_, isFinite_roundHundredths⟩
  cases hx : Binary64.ofFloat x with
  | finite negative mantissa exponent => exact isFinite_iff.mpr ⟨_, _, _, hx⟩
  | nan | infinite =>
    rw [roundHundredths, hx] at h
    exact h

end LedgerFields.Number
