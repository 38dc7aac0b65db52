import LedgerFields.Proofs.Number.Text

/-! Doubles of either sign, as data files hold them: negation, the value of a finite double, and the
numerals, which are read as in a formula when one minus sign may precede them. -/

namespace LedgerFields.Number

open Float.Model

section

variable {x y : Float} {negative : Bool} {mantissa : Nat} {exponent : Int}

theorem neg_unpacked (sign : UnpackedFloat.Sign) (mantissa : Nat) (exponent : Int) :
    (unpacked sign mantissa exponent).neg = unpacked (-sign) mantissa exponent := by
  rcases Nat.eq_zero_or_pos mantissa with rfl | hpos
  · rfl
  · rw [unpacked_of_pos _ _ hpos, unpacked_of_pos _ _ hpos]
    rfl

theorem ofFloat_neg (h : Binary64.ofFloat x = .finite negative mantissa exponent) :
    Binary64.ofFloat x.neg = .finite (!negative) mantissa exponent := by
  obtain ⟨hcanonical, hexponent, -⟩ := toNat_toBits_of_finite h
  obtain ⟨sign, rfl⟩ : ∃ sign, negative = isNegative sign := by
    cases negative
    · exact ⟨.positive, rfl⟩
    · exact ⟨.negative, rfl⟩
  have hneg : x.neg = .ofModel (.pack (unpacked (-sign) mantissa exponent)) := by
    rw [← neg_unpacked, ← unpack_toModel h]
    rfl
  rw [hneg, ofFloat_pack hcanonical, Binary64.ofCanonical, if_pos hexponent]
  cases sign <;> rfl

/-- The value of a finite double. Both zeros have the value zero. -/
def value? (x : Float) : Option ℚ :=
  match Binary64.ofFloat x with
  | .finite negative mantissa exponent =>
    some ((if negative then -1 else 1) * ((mantissa : ℚ) * 2 ^ exponent))
  | _ => none

theorem value?_eq (h : Binary64.ofFloat x = .finite negative mantissa exponent) :
    value? x = some ((if negative then -1 else 1) * ((mantissa : ℚ) * 2 ^ exponent)) := by
  rw [value?, h]

theorem isSome_value? : (value? x).isSome = true ↔ x.isFinite = true := by
  rw [isFinite_iff, value?]
  cases Binary64.ofFloat x <;> simp

theorem exists_value? (h : x.isFinite = true) : ∃ a, value? x = some a :=
  Option.isSome_iff_exists.mp (isSome_value?.mpr h)

theorem isFinite_of_value? {a : ℚ} (h : value? x = some a) : x.isFinite = true :=
  isSome_value?.mp (Option.isSome_iff_exists.mpr ⟨a, h⟩)

/-- Finite doubles of one value differ at most in the sign of a zero. -/
theorem eq_of_value?_eq {negative' : Bool} {mantissa' : Nat} {exponent' : Int}
    (hx : Binary64.ofFloat x = .finite negative mantissa exponent)
    (hy : Binary64.ofFloat y = .finite negative' mantissa' exponent')
    (h : value? x = value? y) :
    mantissa = mantissa' ∧ exponent = exponent' ∧ (mantissa = 0 ∨ negative = negative') := by
  rw [value?_eq hx, value?_eq hy, Option.some.injEq] at h
  have hnearest := (toNat_toBits_of_finite hx).1.nearest
  have hnearest' := (toNat_toBits_of_finite hy).1.nearest
  have hnonneg : (0 : ℚ) ≤ mantissa * 2 ^ exponent := by positivity
  have hnonneg' : (0 : ℚ) ≤ mantissa' * 2 ^ exponent' := by positivity
  have hmagnitude : (mantissa * 2 ^ exponent : ℚ) = mantissa' * 2 ^ exponent' := by
    split at h <;> split at h <;> linarith
  rw [← hmagnitude] at h hnearest'
  obtain ⟨rfl, rfl⟩ := hnearest.unique hnearest'
  refine ⟨rfl, rfl, ?_⟩
  by_cases hzero : mantissa = 0
  · exact .inl hzero
  · have hne : (mantissa * 2 ^ exponent : ℚ) ≠ 0 :=
      mul_ne_zero (by exact_mod_cast hzero) (two_zpow_pos _).ne'
    have hsign := mul_right_cancel₀ hne h
    right
    cases negative <;> cases negative' <;> norm_num at hsign <;> rfl

end

section

variable {text : String} {x : Float}

theorem chars_of_splitNumeral {cs whole fraction : List Char}
    (h : splitNumeral cs = (whole, fraction, [])) : ∀ c ∈ cs, c.isDigit = true ∨ c = '.' := by
  intro c hc
  rw [← List.takeWhile_append_dropWhile (p := Char.isDigit) (l := cs), List.mem_append] at hc
  rcases hc with hc | hc
  · exact .inl (List.mem_takeWhile_imp hc)
  · unfold splitNumeral at h
    split at h
    · next rest hrest =>
      rw [hrest] at hc
      rcases List.mem_cons.mp hc with rfl | hc
      · exact .inr rfl
      · have hdrop : rest.dropWhile Char.isDigit = [] := congrArg (·.2.2) h
        exact .inl (List.dropWhile_eq_nil_iff.mp hdrop c hc)
    · have hdrop : cs.dropWhile Char.isDigit = [] := congrArg (·.2.2) h
      rw [hdrop] at hc
      cases hc

/-- A numeral splits into digits with a point among them or none, and nothing follows. -/
theorem splitNumeral_of_readNumeral? (h : readNumeral? text = some x) :
    ∃ whole fraction, splitNumeral text.toList = (whole, fraction, []) ∧
      ¬(whole = [] ∧ fraction = []) ∧
      x = nearestFloat (digitsValue (whole ++ fraction)) (-fraction.length) := by
  unfold readNumeral? at h
  split at h
  · cases h
  · next whole fraction hne hsplit =>
    cases h
    exact ⟨whole, fraction, hsplit, fun ⟨hwhole, hfraction⟩ => hne hwhole hfraction, rfl⟩
  · cases h

/-- A numeral has a character, and all are digits or points. -/
theorem chars_of_readNumeral? (h : readNumeral? text = some x) :
    text.toList ≠ [] ∧ ∀ c ∈ text.toList, c.isDigit = true ∨ c = '.' := by
  obtain ⟨whole, fraction, hsplit, hne, -⟩ := splitNumeral_of_readNumeral? h
  refine ⟨?_, chars_of_splitNumeral hsplit⟩
  intro hnil
  rw [hnil] at hsplit
  cases hsplit
  exact hne ⟨rfl, rfl⟩

theorem toLower_eq_of_isDigit {c : Char} (h : c.isDigit = true) : c.toLower = c := by
  have hnine : '9'.val.toNat = 57 := rfl
  have hupper : 'A'.val.toNat = 65 := rfl
  simp only [Char.isDigit, Bool.and_eq_true, decide_eq_true_eq, UInt32.le_iff_toNat_le] at h
  unfold Char.toLower
  rw [dif_neg]
  rintro ⟨hle, -⟩
  rw [ge_iff_le, UInt32.le_iff_toNat_le] at hle
  omega

theorem readMagnitude?_of_readNumeral? (h : readNumeral? text = some x) :
    readMagnitude? text.toList = some x := by
  obtain ⟨hne, hchars⟩ := chars_of_readNumeral? h
  -- The names start with a letter.
  have hname {c : Char} {name : List Char} (hc : ¬(c.isDigit = true ∨ c = '.')) :
      text.toList.map Char.toLower ≠ c :: name := by
    obtain ⟨d, cs, hcons⟩ := List.exists_cons_of_ne_nil hne
    have hd := hchars d (by rw [hcons]; exact List.mem_cons_self)
    have hlower : d.toLower = d := by
      rcases hd with hd | rfl
      · exact toLower_eq_of_isDigit hd
      · rfl
    rw [hcons, List.map_cons, hlower]
    intro heq
    rw [(List.cons.inj heq).1] at hd
    exact hc hd
  have hinf : ¬(text.toList.map Char.toLower = "inf".toList ∨
      text.toList.map Char.toLower = "infinity".toList) := by
    rintro (heq | heq)
    · exact hname (by decide) heq
    · exact hname (by decide) heq
  have hnan : ¬text.toList.map Char.toLower = "nan".toList := hname (by decide)
  obtain ⟨whole, fraction, hsplit, hdigits, rfl⟩ := splitNumeral_of_readNumeral? h
  unfold readMagnitude?
  simp only [if_neg hinf, if_neg hnan, hsplit, if_neg hdigits, zero_sub]

/-- A numeral says the same in a data file as in a formula. -/
theorem readFloat?_of_readNumeral? (h : readNumeral? text = some x) :
    readFloat? text = some x := by
  have hmagnitude := readMagnitude?_of_readNumeral? h
  obtain ⟨-, hchars⟩ := chars_of_readNumeral? h
  unfold readFloat?
  split
  · next heq => exact absurd (hchars '+' (by rw [heq]; exact List.mem_cons_self)) (by decide)
  · next heq => exact absurd (hchars '-' (by rw [heq]; exact List.mem_cons_self)) (by decide)
  · exact hmagnitude

theorem readFloat?_neg (h : readNumeral? text = some x) :
    readFloat? ("-" ++ text) = some x.neg := by
  unfold readFloat?
  rw [String.toList_append]
  show (readMagnitude? text.toList).map Float.neg = some x.neg
  rw [readMagnitude?_of_readNumeral? h, Option.map_some]

end

section

variable {x : Float} {negative : Bool} {mantissa n : Nat} {exponent : Int}

theorem wholeValue?_zero (exponent : Int) : wholeValue? 0 exponent = some 0 := by
  cases exponent <;> simp [wholeValue?]

theorem value_of_wholeValue? (h : wholeValue? mantissa exponent = some n) :
    (mantissa * 2 ^ exponent : ℚ) = n := by
  have hmul : (mantissa * 2 ^ exponent.toNat : ℚ) = n * 2 ^ (-exponent).toNat := by
    exact_mod_cast mul_eq_of_wholeValue? h
  rw [ReadInterval.two_zpow_eq, ← mul_div_assoc, hmul, mul_div_cancel_right₀ _ (by positivity)]

theorem eq_zero_iff_of_wholeValue? (h : wholeValue? mantissa exponent = some n) :
    n = 0 ↔ mantissa = 0 := by
  have hvalue := value_of_wholeValue? h
  constructor
  · rintro rfl
    rw [Nat.cast_zero, mul_eq_zero] at hvalue
    exact_mod_cast hvalue.resolve_right (two_zpow_pos exponent).ne'
  · rintro rfl
    rw [Nat.cast_zero, zero_mul] at hvalue
    exact_mod_cast hvalue.symm

/-- The digits of a whole double are read as the double without its sign. -/
theorem ofFloat_wholeValue? (h : Binary64.ofFloat x = .finite negative mantissa exponent)
    (hn : wholeValue? mantissa exponent = some n) :
    Binary64.ofFloat (nearestFloat n 0) = .finite false mantissa exponent := by
  obtain ⟨hcanonical, hexponent, -⟩ := toNat_toBits_of_finite h
  obtain ⟨mantissa', exponent', hnearest, hfloat⟩ := ofFloat_nearestFloat n 0
  rw [zpow_zero, mul_one, ← value_of_wholeValue? hn] at hnearest
  obtain ⟨rfl, rfl⟩ := hnearest.unique hcanonical.nearest
  rw [hfloat, Binary64.ofCanonical, if_pos hexponent]

theorem readNumeral?_toString (n : Nat) :
    readNumeral? (toString n) = some (nearestFloat n 0) := by
  have hread := readNumeral?_digits (digits_toDigits n) Nat.toDigits_ne_nil
  rw [digitsValue_toDigits] at hread
  exact hread

theorem plainText_eq_sign (h : Binary64.ofFloat x = .finite negative mantissa exponent) :
    ∃ text y, readNumeral? text = some y ∧
      Binary64.ofFloat y = .finite false mantissa exponent ∧
      plainText x = (if negative then "-" else "") ++ text := by
  cases negative with
  | false => exact ⟨plainText x, x, readNumeral?_plainText h, h, (String.empty_append).symm⟩
  | true =>
    have hneg := ofFloat_neg h
    refine ⟨plainText x.neg, x.neg, readNumeral?_plainText hneg, hneg, ?_⟩
    rw [plainText, plainText, h, hneg]
    simp [NumberStyle.finiteText]

end

end LedgerFields.Number
