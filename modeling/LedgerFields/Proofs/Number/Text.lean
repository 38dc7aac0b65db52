import LedgerFields.Number.Layout
import LedgerFields.Proofs.Number.Scientific
import LedgerFields.Proofs.Number.Shortest
import Mathlib.Data.List.TakeWhile

/-! The text of a double reads back as the double: its digits are those of the shortest decimal, of
which the double is the nearest. -/

namespace LedgerFields.Number

def Digits (cs : List Char) : Prop :=
  ∀ c ∈ cs, c.isDigit = true

theorem Digits.append {cs ds : List Char} (hcs : Digits cs) (hds : Digits ds) :
    Digits (cs ++ ds) :=
  fun c hc => (List.mem_append.mp hc).elim (hcs c) (hds c)

theorem digits_replicate_zero (n : Nat) : Digits (List.replicate n '0') := by
  intro c hc
  rw [List.eq_of_mem_replicate hc]
  decide

theorem digits_toDigits (n : Nat) : Digits (Nat.toDigits 10 n) :=
  fun _ hc => Nat.isDigit_of_mem_toDigits (by decide) (by decide) hc

theorem digitsValue_toDigits (n : Nat) : digitsValue (Nat.toDigits 10 n) = n :=
  Nat.ofDigitChars_ten_toDigits

theorem digitsValue_append_zeros (ds : List Char) (n : Nat) :
    digitsValue (ds ++ List.replicate n '0') = 10 ^ n * digitsValue ds := by
  have happend := Nat.ofDigitChars_append (b := 10) (l := ds) (m := List.replicate n '0') 0
  rw [Nat.ofDigitChars_replicate_zero] at happend
  exact happend

theorem digitsValue_zeros_append (n : Nat) (ds : List Char) :
    digitsValue (List.replicate n '0' ++ ds) = digitsValue ds := by
  have happend := Nat.ofDigitChars_append (b := 10) (l := List.replicate n '0') (m := ds) 0
  rw [Nat.ofDigitChars_replicate_zero, Nat.mul_zero] at happend
  exact happend

section

variable {ds whole fraction : List Char}

theorem splitNumeral_digits (h : Digits ds) : splitNumeral ds = (ds, [], []) := by
  have htake : ds.takeWhile Char.isDigit = ds := List.takeWhile_eq_self_iff.mpr h
  have hdrop : ds.dropWhile Char.isDigit = [] := List.dropWhile_eq_nil_iff.mpr h
  simp only [splitNumeral, htake, hdrop]

theorem splitNumeral_point (hwhole : Digits whole) (hfraction : Digits fraction) :
    splitNumeral (whole ++ '.' :: fraction) = (whole, fraction, []) := by
  have htake : (whole ++ '.' :: fraction).takeWhile Char.isDigit = whole := by
    rw [List.takeWhile_append_of_pos hwhole]
    simp
  have hdrop : (whole ++ '.' :: fraction).dropWhile Char.isDigit = '.' :: fraction := by
    rw [List.dropWhile_append_of_pos hwhole]
    simp
  have htake' : fraction.takeWhile Char.isDigit = fraction :=
    List.takeWhile_eq_self_iff.mpr hfraction
  have hdrop' : fraction.dropWhile Char.isDigit = [] := List.dropWhile_eq_nil_iff.mpr hfraction
  simp only [splitNumeral, htake, hdrop, htake', hdrop']

theorem readNumeral?_digits (h : Digits ds) (hds : ds ≠ []) :
    readNumeral? (String.ofList ds) = some (nearestFloat (digitsValue ds) 0) := by
  unfold readNumeral?
  rw [String.toList_ofList, splitNumeral_digits h]
  cases ds with
  | nil => exact absurd rfl hds
  | cons d ds => simp

theorem readNumeral?_point (hwhole : Digits whole) (hfraction : Digits fraction)
    (hne : whole ≠ []) :
    readNumeral? (String.ofList (whole ++ '.' :: fraction)) =
      some (nearestFloat (digitsValue (whole ++ fraction)) (-fraction.length)) := by
  unfold readNumeral?
  rw [String.toList_ofList, splitNumeral_point hwhole hfraction]
  cases whole with
  | nil => exact absurd rfl hne
  | cons d whole => rfl

/-- Digits and a power of ten are written as digits alone when it is whole, and else as digits with
a point before as many of them as it is below one. -/
theorem positionalText_cases (h : Digits ds) (hds : ds ≠ []) (exponent : Int) :
    (0 ≤ exponent ∧ positionalText "" ds exponent =
      String.ofList (ds ++ List.replicate exponent.toNat '0')) ∨
    exponent < 0 ∧ ∃ whole fraction, whole ≠ [] ∧ Digits whole ∧ Digits fraction ∧
      exponent = -(fraction.length : Int) ∧
      positionalText "" ds exponent = String.ofList (whole ++ '.' :: fraction) ∧
      digitsValue (whole ++ fraction) = digitsValue ds := by
  cases exponent with
  | ofNat n => exact .inl ⟨Int.natCast_nonneg n, by simp [positionalText]⟩
  | negSucc n =>
    refine .inr ⟨Int.negSucc_lt_zero n, ?_⟩
    by_cases hplaces : n + 1 < ds.length
    · refine ⟨ds.take (ds.length - (n + 1)), ds.drop (ds.length - (n + 1)), ?_, ?_, ?_, ?_, ?_, ?_⟩
      · simp [List.take_eq_nil_iff, hds]
        omega
      · exact fun c hc => h c (List.mem_of_mem_take hc)
      · exact fun c hc => h c (List.mem_of_mem_drop hc)
      · rw [List.length_drop]
        omega
      · rw [← String.toList_inj]
        simp [positionalText, hplaces]
      · rw [List.take_append_drop]
    · refine ⟨['0'], List.replicate (n + 1 - ds.length) '0' ++ ds, by simp,
        digits_replicate_zero 1, (digits_replicate_zero _).append h, ?_, ?_, ?_⟩
      · simp
        omega
      · rw [← String.toList_inj]
        simp [positionalText, hplaces]
      · exact digitsValue_zeros_append (n + 1 - ds.length + 1) ds

/-- A text of digits and a power of ten is read as a double for their number. -/
theorem readNumeral?_positionalText (h : Digits ds) (hds : ds ≠ []) (exponent : Int) :
    ∃ (n : Nat) (e : Int), readNumeral? (positionalText "" ds exponent) = some (nearestFloat n e) ∧
      (n * 10 ^ e : ℚ) = digitsValue ds * 10 ^ exponent := by
  rcases positionalText_cases h hds exponent with ⟨hsign, htext⟩ |
    ⟨-, whole, fraction, hne, hwhole, hfraction, hexponent, htext, hvalue⟩
  · refine ⟨digitsValue (ds ++ List.replicate exponent.toNat '0'), 0, ?_, ?_⟩
    · rw [htext]
      exact readNumeral?_digits (h.append (digits_replicate_zero _)) (by simp [hds])
    · obtain ⟨n, rfl⟩ := Int.eq_ofNat_of_zero_le hsign
      rw [digitsValue_append_zeros]
      push_cast
      rw [Int.toNat_natCast, zpow_natCast, mul_one, mul_comm]
  · refine ⟨digitsValue (whole ++ fraction), -fraction.length, ?_, ?_⟩
    · rw [htext]
      exact readNumeral?_point hwhole hfraction hne
    · rw [hvalue, hexponent]

end

section

variable {x : Float} {mantissa : Nat} {exponent : Int}

theorem plainText_eq (h : Binary64.ofFloat x = .finite false mantissa exponent) :
    plainText x = positionalText ""
      (Nat.toDigits 10 (Decimal.shortest .greater mantissa exponent).digits)
      (Decimal.shortest .greater mantissa exponent).exponent := by
  rw [plainText, h]
  simp [NumberStyle.finiteText, NumberStyle.decimalText, NumberStyle.plain]

/-- The text of a finite double without a sign reads back as the double. -/
theorem readNumeral?_plainText (h : Binary64.ofFloat x = .finite false mantissa exponent) :
    readNumeral? (plainText x) = some x := by
  obtain ⟨hcanonical, hexponent, -⟩ := toNat_toBits_of_finite h
  obtain ⟨n, e, hread, hvalue⟩ := readNumeral?_positionalText
    (digits_toDigits (Decimal.shortest .greater mantissa exponent).digits) Nat.toDigits_ne_nil
    (Decimal.shortest .greater mantissa exponent).exponent
  rw [digitsValue_toDigits] at hvalue
  rw [plainText_eq h, hread]
  congr 1
  obtain ⟨mantissa', exponent', hnearest, hfloat⟩ := ofFloat_nearestFloat n e
  rw [hvalue] at hnearest
  obtain ⟨rfl, rfl⟩ := hnearest.unique (nearest_shortest .greater hcanonical)
  rw [Binary64.ofCanonical, if_pos hexponent] at hfloat
  exact eq_of_ofFloat_eq hfloat h

/-- The text of a finite double without a sign starts with a digit and holds only digits and a
point, which a whole number does without. -/
theorem plainText_chars (h : Binary64.ofFloat x = .finite false mantissa exponent) :
    ∃ d word, (plainText x).toList = d :: word ∧ d.isDigit = true ∧
      (∀ c ∈ word, c.isDigit = true ∨ c = '.') ∧
      ((wholeValue? mantissa exponent).isSome = true → Digits word) := by
  have hds := digits_toDigits (Decimal.shortest .greater mantissa exponent).digits
  rw [plainText_eq h]
  rcases positionalText_cases hds Nat.toDigits_ne_nil
      (Decimal.shortest .greater mantissa exponent).exponent with ⟨-, htext⟩ |
    ⟨hnegative, whole, fraction, hne, hwhole, hfraction, -, htext, -⟩
  · have hall := hds.append
      (digits_replicate_zero (Decimal.shortest .greater mantissa exponent).exponent.toNat)
    obtain ⟨d, word, hcons⟩ := List.exists_cons_of_ne_nil
      (List.append_ne_nil_of_left_ne_nil Nat.toDigits_ne_nil _)
    rw [htext, String.toList_ofList, hcons]
    rw [hcons] at hall
    exact ⟨d, word, rfl, hall d (by simp), fun c hc => .inl (hall c (by simp [hc])),
      fun _ c hc => hall c (by simp [hc])⟩
  · obtain ⟨d, word, rfl⟩ := List.exists_cons_of_ne_nil hne
    refine ⟨d, word ++ '.' :: fraction, by rw [htext, String.toList_ofList]; rfl,
      hwhole d (by simp), fun c hc => ?_, fun hsome => ?_⟩
    · rcases List.mem_append.mp hc with hc | hc
      · exact .inl (hwhole c (by simp [hc]))
      · rcases List.mem_cons.mp hc with rfl | hc
        · exact .inr rfl
        · exact .inl (hfraction c hc)
    · obtain ⟨n, hn⟩ := Option.isSome_iff_exists.mp hsome
      exact absurd (shortest_whole .greater hn) (Int.not_le.mpr hnegative)

end

/-- A finite double whose sign bit is clear. -/
def IsUnsigned (x : Float) : Prop :=
  ∃ mantissa exponent, Binary64.ofFloat x = .finite false mantissa exponent

/-- A whole number that is no less than zero, and not the negative zero. -/
def IsWhole (x : Float) : Prop :=
  ∃ mantissa exponent, Binary64.ofFloat x = .finite false mantissa exponent ∧
    (wholeValue? mantissa exponent).isSome = true

theorem isFinite_iff {x : Float} : x.isFinite = true ↔
    ∃ negative mantissa exponent, Binary64.ofFloat x = .finite negative mantissa exponent := by
  have hfinite : x.isFinite = x.toModel.unpack.isFinite := rfl
  rw [hfinite, ofFloat_eq]
  cases x.toModel.unpack with
  | zero | finite => exact iff_of_true rfl ⟨_, _, _, rfl⟩
  | infinity | notANumber =>
    refine iff_of_false Bool.false_ne_true ?_
    rintro ⟨_, _, _, h⟩
    cases h

theorem plainText_infinite {x : Float} (h : Binary64.ofFloat x = .infinite false) :
    plainText x = "inf" := by
  rw [plainText, h]
  rfl

/-! What a numeral is read as: a double without a sign, which is whole without a point. -/

section

variable {text : String} {x : Float}

/-- A numeral is read as a finite double without a sign, or as infinity when it is too great. -/
theorem isUnsigned_or_infinite (h : readNumeral? text = some x) :
    IsUnsigned x ∨ Binary64.ofFloat x = .infinite false := by
  unfold readNumeral? at h
  split at h
  · cases h
  · cases h
    obtain ⟨mantissa, exponent, -, hfloat⟩ := ofFloat_nearestFloat _ _
    rw [Binary64.ofCanonical] at hfloat
    split at hfloat
    · exact .inl ⟨mantissa, exponent, hfloat⟩
    · exact .inr hfloat
  · cases h

/-- What a numeral is read as can be written and read again unless it is infinite. -/
theorem readNumeral?_plainText_iff (h : readNumeral? text = some x) :
    readNumeral? (plainText x) = some x ↔ x.isFinite = true := by
  rcases isUnsigned_or_infinite h with ⟨mantissa, exponent, hx⟩ | hx
  · exact ⟨fun _ => isFinite_iff.mpr ⟨false, mantissa, exponent, hx⟩,
      fun _ => readNumeral?_plainText hx⟩
  · have hinf : readNumeral? "inf" = none := by decide
    rw [plainText_infinite hx, hinf, isFinite_iff, hx]
    simp

theorem splitNumeral_of_not_mem {cs : List Char} (h : '.' ∉ cs) : (splitNumeral cs).2.1 = [] := by
  unfold splitNumeral
  split
  · next rest hdrop =>
    exact absurd ((List.dropWhile_suffix _).subset (hdrop ▸ List.mem_cons_self)) h
  · rfl

theorem isWhole_of_readNumeral? (h : readNumeral? text = some x) (hpoint : '.' ∉ text.toList)
    (hx : IsUnsigned x) : IsWhole x := by
  obtain ⟨mantissa, exponent, hx⟩ := hx
  refine ⟨mantissa, exponent, hx, ?_⟩
  have hfraction := splitNumeral_of_not_mem hpoint
  unfold readNumeral? at h
  split at h
  · cases h
  · next whole fraction _ hsplit =>
    rw [hsplit] at hfraction
    obtain rfl : fraction = [] := hfraction
    cases h
    obtain ⟨mantissa', exponent', hnearest, hfloat⟩ :=
      ofFloat_nearestFloat (digitsValue (whole ++ [])) (-([] : List Char).length)
    rw [hx, Binary64.ofCanonical] at hfloat
    split at hfloat
    · cases hfloat
      simp only [List.length_nil, Nat.cast_zero, neg_zero, zpow_zero, mul_one] at hnearest
      exact hnearest.isSome_wholeValue?
    · cases hfloat
  · cases h

end

/-- A whole number is written without a point, and no other finite double is. -/
theorem point_not_mem_plainText {x : Float} (h : IsUnsigned x) :
    '.' ∉ (plainText x).toList ↔ IsWhole x := by
  constructor
  · intro hpoint
    obtain ⟨mantissa, exponent, hx⟩ := h
    exact isWhole_of_readNumeral? (readNumeral?_plainText hx) hpoint ⟨mantissa, exponent, hx⟩
  · rintro ⟨mantissa, exponent, hx, hwhole⟩ hmem
    obtain ⟨d, word, hchars, hd, -, hdigits⟩ := plainText_chars hx
    rw [hchars] at hmem
    rcases List.mem_cons.mp hmem with rfl | hmem
    · cases hd
    · cases hdigits hwhole '.' hmem

section

variable {ds : List Char}

/-- A text of digits and a power of ten has a digit, however it is laid out. -/
theorem exists_isDigit_positionalText (h : Digits ds) (hds : ds ≠ []) (wholeMark : String)
    (exponent : Int) :
    ∃ c ∈ (positionalText wholeMark ds exponent).toList, c.isDigit = true := by
  obtain ⟨d, hd⟩ := List.exists_mem_of_ne_nil ds hds
  refine ⟨d, ?_, h d hd⟩
  unfold positionalText
  cases exponent with
  | ofNat n => simp [hd]
  | negSucc n =>
    dsimp only
    split
    · have hsplit : d ∈ ds.take (ds.length - (n + 1)) ++ ds.drop (ds.length - (n + 1)) := by
        rwa [List.take_append_drop]
      rcases List.mem_append.mp hsplit with hmem | hmem <;> simp [hmem]
    · simp [hd]

theorem exists_isDigit_exponentText (h : Digits ds) (hds : ds ≠ []) (exponent : Int) :
    ∃ c ∈ (exponentText ds exponent).toList, c.isDigit = true := by
  obtain ⟨d, rest, rfl⟩ := List.exists_cons_of_ne_nil hds
  exact ⟨d, by simp [exponentText], h d List.mem_cons_self⟩

theorem exists_isDigit_finiteText (style : NumberStyle) (negative : Bool) (mantissa : Nat)
    (exponent : Int) :
    ∃ c ∈ (style.finiteText negative mantissa exponent).toList, c.isDigit = true := by
  have hds := digits_toDigits (Decimal.shortest style.tie mantissa exponent).digits
  have hdecimal : ∃ c ∈ (style.decimalText (Decimal.shortest style.tie mantissa exponent)).toList,
      c.isDigit = true := by
    unfold NumberStyle.decimalText
    dsimp only
    split
    · split
      · exact exists_isDigit_positionalText hds Nat.toDigits_ne_nil _ _
      · exact exists_isDigit_exponentText hds Nat.toDigits_ne_nil _
    · exact exists_isDigit_positionalText hds Nat.toDigits_ne_nil _ _
  obtain ⟨c, hc, hdigit⟩ := hdecimal
  exact ⟨c, by simp [NumberStyle.finiteText, hc], hdigit⟩

end

end LedgerFields.Number
