import LedgerFields.Number.Binary64
import LedgerFields.Proofs.Number.Rounding

/-! The bits of a double and what they mean: reading them agrees with taking a double apart for an
operation, and putting a canonical double together gives the bits that read as it. -/

namespace LedgerFields.Number

open Float.Model Float.Model.UnpackedFloat

/-- Whether a sign is that of the negative numbers. -/
def isNegative : Sign → Bool
  | .negative => true
  | .positive => false

namespace Binary64

/-- What a double means that has been taken apart for an operation. -/
def ofUnpacked : UnpackedFloat → Binary64
  | .notANumber => .nan
  | .infinity sign => .infinite (isNegative sign)
  | .zero sign => .finite (isNegative sign) 0 leastExponent
  | .finite sign mantissa exponent _ => .finite (isNegative sign) mantissa exponent

/-- What the three fields of a double mean. -/
def ofFields (negative : Bool) (field fraction : Nat) : Binary64 :=
  if field = 2047 then
    if fraction = 0 then .infinite negative else .nan
  else if field = 0 then
    .finite negative fraction leastExponent
  else
    .finite negative (leastNormalMantissa + fraction) ((field : Int) - 1075)

/-- What a canonical double means, which is infinite when its exponent is too great. -/
def ofCanonical (negative : Bool) (mantissa : Nat) (exponent : Int) : Binary64 :=
  if exponent < 972 then .finite negative mantissa exponent else .infinite negative

theorem ofFloat_eq_ofFields (x : Float) :
    ofFloat x = ofFields (decide (2 ^ 63 ≤ x.toBits.toNat)) (x.toBits.toNat / 2 ^ 52 % 2 ^ 11)
      (x.toBits.toNat % 2 ^ 52) := rfl

end Binary64

section

variable (b : BitVec Format.binary64.numBits)

theorem toNat_unpackMantissa :
    (unpackMantissa b).toNat = b.toNat % 2 ^ 52 := by
  simp [unpackMantissa]

theorem toNat_unpackExponent :
    (unpackExponent b).toNat = b.toNat / 2 ^ 52 % 2 ^ 11 := by
  simp [unpackExponent, Nat.shiftRight_eq_div_pow]

theorem unpackSign_eq : unpackSign b = b.extractLsb 63 63 := rfl

theorem isNegative_unpackSign :
    isNegative (Sign.ofBitVec (unpackSign b)) =
      decide (2 ^ 63 ≤ b.toNat) := by
  have hlt : b.toNat < 2 ^ 64 := b.isLt
  have hsign : (unpackSign b).toNat = b.toNat / 2 ^ 63 % 2 := by
    simp [unpackSign_eq, Nat.shiftRight_eq_div_pow]
  have hzero : unpackSign b = 0#1 ↔ b.toNat < 2 ^ 63 := by
    rw [← BitVec.toNat_inj, hsign, BitVec.toNat_zero]
    omega
  unfold Sign.ofBitVec
  by_cases h : unpackSign b = 0#1
  · rw [if_pos h]
    have := hzero.mp h
    exact (decide_eq_false (by omega)).symm
  · rw [if_neg h]
    have := mt hzero.mpr h
    exact (decide_eq_true (by omega)).symm

/-- Taking a double apart keeps what its fields mean. -/
theorem ofUnpacked_unpack :
    Binary64.ofUnpacked (UnpackedFloat.unpack Format.binary64 b) =
      .ofFields (decide (2 ^ 63 ≤ b.toNat)) (b.toNat / 2 ^ 52 % 2 ^ 11) (b.toNat % 2 ^ 52) := by
  rw [← toNat_unpackExponent, ← toNat_unpackMantissa, ← isNegative_unpackSign]
  unfold UnpackedFloat.unpack Binary64.ofFields
  have hones : unpackExponent b = -1#_ ↔ (unpackExponent b).toNat = 2047 :=
    BitVec.toNat_inj.symm
  have hzeros : unpackExponent b = 0#_ ↔ (unpackExponent b).toNat = 0 := BitVec.toNat_inj.symm
  have hnone : unpackMantissa b = 0#_ ↔ (unpackMantissa b).toNat = 0 := BitVec.toNat_inj.symm
  have hfull : (1#1 ++ unpackMantissa b).toNat =
      leastNormalMantissa + (unpackMantissa b).toNat := by
    rw [BitVec.toNat_append, ← Nat.shiftLeft_add_eq_or_of_lt (BitVec.isLt _)]
    rfl
  dsimp only
  by_cases h : unpackExponent b = -1#_
  · rw [if_pos h, if_pos (hones.mp h)]
    by_cases h0 : unpackMantissa b = 0#_
    · rw [if_pos h0, if_pos (hnone.mp h0)]
      rfl
    · rw [if_neg h0, if_neg (mt hnone.mpr h0)]
      rfl
  · rw [if_neg h, if_neg (mt hones.mpr h)]
    by_cases hz : unpackExponent b = 0#_
    · rw [if_pos hz, if_pos (hzeros.mp hz)]
      by_cases h0 : unpackMantissa b = 0#_
      · rw [dif_pos h0, hnone.mp h0]
        rfl
      · rw [dif_neg h0, hzeros.mp hz]
        rfl
    · rw [if_neg hz, if_neg (mt hzeros.mpr hz), ← hfull]
      rfl

end

/-- The meaning of the bits of a double is what operations take it for. -/
theorem ofFloat_eq (x : Float) : Binary64.ofFloat x = .ofUnpacked x.toModel.unpack := by
  rw [Binary64.ofFloat_eq_ofFields]
  exact (ofUnpacked_unpack x.toModel.toBits.toBitVec).symm

/-- A finite double is taken apart into what it means. -/
theorem unpack_toModel {x : Float} {sign : Sign} {mantissa : Nat} {exponent : Int}
    (h : Binary64.ofFloat x = .finite (isNegative sign) mantissa exponent) :
    x.toModel.unpack = unpacked sign mantissa exponent := by
  rw [ofFloat_eq] at h
  cases hunpack : x.toModel.unpack with
  | notANumber | infinity =>
    rw [hunpack] at h
    cases h
  | zero s =>
    rw [hunpack] at h
    obtain ⟨hs, rfl, -⟩ := Binary64.finite.inj h
    cases s <;> cases sign <;> first | rfl | cases hs
  | finite s m e hm =>
    rw [hunpack] at h
    obtain ⟨hs, rfl, rfl⟩ := Binary64.finite.inj h
    rw [unpacked_of_pos _ _ hm]
    cases s <;> cases sign <;> first | rfl | cases hs

theorem unpack_of_pos {x : Float} {sign : Sign} {mantissa : Nat} {exponent : Int}
    (h : Binary64.ofFloat x = .finite (isNegative sign) mantissa exponent) (hpos : 0 < mantissa) :
    x.toModel.unpack = .finite sign mantissa exponent hpos :=
  (unpack_toModel h).trans (unpacked_of_pos sign exponent hpos)

theorem unpackSign_packComponents (sign : Sign) (e : BitVec 11) (m : BitVec 52) :
    Sign.ofBitVec (unpackSign (packComponents Format.binary64 sign e m)) = sign := by
  have hsign : unpackSign (packComponents Format.binary64 sign e m) = sign.toBitVec := by
    apply BitVec.eq_of_getLsbD_eq
    intro i hi
    obtain rfl : i = 0 := by omega
    simp only [unpackSign_eq, packComponents, BitVec.getLsbD_extractLsb, BitVec.getLsbD_append]
    simp
  rw [hsign]
  cases sign <;> rfl

/-- A double that is put together from three fields has their meaning. -/
theorem ofFloat_packComponents (sign : Sign) (e : BitVec 11) (m : BitVec 52) {x : Float}
    (hx : x.toModel.toBits.toBitVec = packComponents Format.binary64 sign e m) :
    Binary64.ofFloat x = .ofFields (isNegative sign) e.toNat m.toNat := by
  have hm := toNat_unpackMantissa (packComponents Format.binary64 sign e m)
  have he := toNat_unpackExponent (packComponents Format.binary64 sign e m)
  have hsign := isNegative_unpackSign (packComponents Format.binary64 sign e m)
  rw [unpackMantissa_packComponents] at hm
  rw [unpackExponent_packComponents] at he
  rw [unpackSign_packComponents] at hsign
  rw [hm, he, hsign, ← hx]
  exact Binary64.ofFloat_eq_ofFields x

/-- A canonical double is put together from the bits that read as it. -/
theorem ofFloat_pack {mantissa : Nat} {exponent : Int} (h : Canonical mantissa exponent)
    (sign : Sign) :
    Binary64.ofFloat (.ofModel (.pack (unpacked sign mantissa exponent))) =
      .ofCanonical (isNegative sign) mantissa exponent := by
  unfold Binary64.ofCanonical
  have hleast := h.least
  have hlt : mantissa < 2 ^ 53 := h.lt
  simp only [leastExponent] at hleast
  rcases Nat.eq_zero_or_pos mantissa with rfl | hpos
  · have hexponent : exponent = leastExponent := h.normal.resolve_right (by decide)
    rw [if_pos (by rw [hexponent]; decide), hexponent]
    exact ofFloat_packComponents sign 0#11 0#52 rfl
  rw [unpacked_of_pos sign exponent hpos]
  have hbits : UnpackedFloat.pack Format.binary64 (.finite sign mantissa exponent hpos) =
      if 2 ^ 11 ≤ (exponent + 1023 + 52).toNat + 1 then packedInfinity Format.binary64 sign
      else if mantissa.log2 + 1 = 53 then
        packComponents Format.binary64 sign (BitVec.ofNat 11 (exponent + 1023 + 52).toNat)
          (BitVec.ofNat 52 mantissa)
      else packComponents Format.binary64 sign 0#11 (BitVec.ofNat 52 mantissa) := rfl
  by_cases hmax : exponent < 972
  · rw [if_pos hmax]
    rw [if_neg (by omega)] at hbits
    by_cases hnormal : 2 ^ 52 ≤ mantissa
    · have hlog : mantissa.log2 + 1 = 53 := by
        rw [(Nat.log2_eq_iff hpos.ne').mpr ⟨hnormal, hlt⟩]
      rw [if_pos hlog] at hbits
      rw [ofFloat_packComponents sign _ _ hbits, Binary64.ofFields, BitVec.toNat_ofNat,
        BitVec.toNat_ofNat, leastNormalMantissa_eq, if_neg (by omega), if_neg (by omega)]
      congr 1
      · omega
      · omega
    · have hexponent : exponent = -1074 := h.normal.resolve_right hnormal
      have hlog : ¬mantissa.log2 + 1 = 53 := by
        have := (Nat.log2_lt hpos.ne').mpr (Nat.not_le.mp hnormal)
        omega
      rw [if_neg hlog] at hbits
      rw [ofFloat_packComponents sign _ _ hbits, Binary64.ofFields, BitVec.toNat_ofNat,
        BitVec.toNat_ofNat, Nat.mod_eq_of_lt (Nat.not_le.mp hnormal), hexponent]
      rfl
  · rw [if_neg hmax]
    rw [if_pos (by omega)] at hbits
    exact ofFloat_packComponents sign (-1#11) 0#52 hbits

theorem eq_sign_add_mod {n : Nat} (h : n < 2 ^ 64) :
    n = (if decide (2 ^ 63 ≤ n) then 2 ^ 63 else 0) + n % 2 ^ 63 := by
  by_cases hn : 2 ^ 63 ≤ n
  · rw [if_pos (decide_eq_true hn)]
    omega
  · rw [if_neg (mt of_decide_eq_true hn)]
    omega

/-- The bits of a double of which its meaning is known. -/
theorem toNat_toBits_of_finite {x : Float} {negative : Bool} {mantissa : Nat} {exponent : Int}
    (h : Binary64.ofFloat x = .finite negative mantissa exponent) :
    Canonical mantissa exponent ∧ exponent < 972 ∧
      x.toBits.toNat = (if negative then 2 ^ 63 else 0) +
        (if mantissa < leastNormalMantissa then mantissa
         else (exponent + 1074).toNat * 2 ^ 52 + mantissa) := by
  have hbits : x.toBits.toNat < 2 ^ 64 := x.toBits.toNat_lt
  rw [Binary64.ofFloat_eq_ofFields, Binary64.ofFields] at h
  have hfraction : x.toBits.toNat % 2 ^ 52 < 2 ^ 52 := Nat.mod_lt _ (by norm_num)
  have hfield : x.toBits.toNat / 2 ^ 52 % 2 ^ 11 < 2 ^ 11 := Nat.mod_lt _ (by norm_num)
  split at h
  · split at h <;> cases h
  · split at h
    · cases h
      refine ⟨⟨?_, le_rfl, .inl rfl⟩, by decide, ?_⟩
      · rw [leastNormalMantissa_eq]; omega
      · rw [leastNormalMantissa_eq, if_pos hfraction]
        refine (eq_sign_add_mod hbits).trans (congrArg _ ?_)
        omega
    · cases h
      refine ⟨⟨?_, ?_, .inr (Nat.le_add_right _ _)⟩, ?_, ?_⟩
      · rw [leastNormalMantissa_eq]; omega
      · simp only [leastExponent]; omega
      · omega
      · rw [if_neg (Nat.not_lt.mpr (Nat.le_add_right _ _)), leastNormalMantissa_eq]
        refine (eq_sign_add_mod hbits).trans (congrArg _ ?_)
        omega

/-- A finite double is known from its meaning. -/
theorem eq_of_ofFloat_eq {x y : Float} {negative : Bool} {mantissa : Nat} {exponent : Int}
    (hx : Binary64.ofFloat x = .finite negative mantissa exponent)
    (hy : Binary64.ofFloat y = .finite negative mantissa exponent) : x = y := by
  have hbits : x.toBits = y.toBits := UInt64.toNat_inj.mp <| by
    rw [(toNat_toBits_of_finite hx).2.2, (toNat_toBits_of_finite hy).2.2]
  rcases x with ⟨⟨bits, _⟩⟩
  rcases y with ⟨⟨bits', _⟩⟩
  cases hbits
  rfl

end LedgerFields.Number
