import LedgerFields.Number.Binary64

/-! Rounding of doubles to hundredths. The double is first brought into a decimal of 96 bits, which
drops digits when they do not fit, then rounded there, and only then turned back. -/

namespace LedgerFields.Number

/-- A number `coefficient / 10 ^ scale`. -/
structure ScaledDecimal where
  coefficient : Nat
  scale : Nat
  deriving DecidableEq, Repr

/-- The coefficients of a scaled decimal are below this. -/
def coefficientBound : Nat := Nat.pow 2 96

/-- The greatest scale of a scaled decimal. -/
def greatestScale : Nat := 28

/-- Divides `bits * 10 ^ power` by `2 ^ n`, step by step. A step halves even bits, and multiplies
odd ones by five for a lower power; when that does not fit they are halved and lose their last
bit. -/
def divideByTwos : (n : Nat) → (bits : Nat) → (power : Int) → Nat × Int
  | 0, bits, power => (bits, power)
  | n + 1, bits, power =>
    if bits % 2 = 0 then
      divideByTwos n (bits / 2) power
    else if bits * 5 < coefficientBound then
      divideByTwos n (bits * 5) (power - 1)
    else
      divideByTwos n (bits / 2) power

/-- Divides `bits * 10 ^ power` by `5 ^ n`, step by step. A step doubles the bits for a lower power
while they have room, and divides them by five, losing the rest, when they have none. It gives up
when the power is too high to be used up by the steps that are left. -/
def divideByFives : (n : Nat) → (bits : Nat) → (power : Int) → Option (Nat × Int)
  | 0, bits, power => some (bits, power)
  | n + 1, bits, power =>
    if 2 * bits < coefficientBound then
      divideByFives n (bits * 2) (power - 1)
    else if (n + 1 : Int) < power * 2 then
      none
    else
      divideByFives n (bits / 5) power

/-- Multiplies by ten `n` times, unless the coefficient outgrows its bound. -/
def multiplyByTens : (n : Nat) → (bits : Nat) → Option Nat
  | 0, bits => some bits
  | n + 1, bits =>
    if bits * 10 < coefficientBound then multiplyByTens n (bits * 10) else none

/-- Drops `n` decimal places, one at a time; each time a half or more goes up, and a number that
has vanished stays zero. -/
def dropPlaces : (n : Nat) → (bits : Nat) → ScaledDecimal
  | 0, bits => ⟨bits, greatestScale⟩
  | n + 1, bits =>
    if bits / 10 = 0 then
      ⟨0, 0⟩
    else
      dropPlaces n (if 5 ≤ bits % 10 then bits / 10 + 1 else bits / 10)

/-- The number `bits * 10 ^ power` as a scaled decimal. -/
def ScaledDecimal.ofPower? (bits : Nat) : (power : Int) → Option ScaledDecimal
  | .ofNat n => (multiplyByTens n bits).map (⟨·, 0⟩)
  | .negSucc n =>
    let places := n + 1
    if places ≤ greatestScale then
      some ⟨bits, places⟩
    else
      some (dropPlaces (places - greatestScale) bits)

/-- The double `mantissa * 2 ^ exponent` as a scaled decimal, unless it is too great. -/
def ScaledDecimal.ofDouble? (mantissa : Nat) : (exponent : Int) → Option ScaledDecimal
  | .ofNat n => do
    let (bits, power) ← divideByFives n mantissa n
    ScaledDecimal.ofPower? bits power
  | .negSucc n =>
    let (bits, power) := divideByTwos (n + 1) mantissa 0
    ScaledDecimal.ofPower? bits power

/-- The whole number nearest to `numerator / denominator`; of two it is the even one. -/
def divideHalfEven (numerator denominator : Nat) : Nat :=
  let quotient := numerator / denominator
  match compare (2 * (numerator % denominator)) denominator with
  | .lt => quotient
  | .gt => quotient + 1
  | .eq => quotient + quotient % 2

/-- The nearest decimal of at most `places` places; a tie goes to the even coefficient. -/
def ScaledDecimal.round (d : ScaledDecimal) (places : Nat) : ScaledDecimal :=
  if d.scale ≤ places then
    d
  else
    ⟨divideHalfEven d.coefficient (Nat.pow 10 (d.scale - places)), places⟩

/-- The whole double nearest to a positive one; a half goes up. -/
def roundHalfUp (x : Float) : Float :=
  match Binary64.ofFloat x with
  | .finite _ mantissa exponent => Float.ofNat (nearestWhole mantissa exponent)
  | _ => x

/-- The double of a scaled decimal. Its whole part and its fraction are turned into doubles apart,
and their sum is rounded again to as many places. -/
def ScaledDecimal.toFloat (d : ScaledDecimal) : Float :=
  if d.scale = 0 then
    Float.ofNat d.coefficient
  else
    let unit := Nat.pow 10 d.scale
    let whole := Float.ofNat (d.coefficient / unit)
    let fraction := Float.ofNat (d.coefficient % unit) / Float.ofNat unit
    if fraction == 0.0 then
      whole
    else
      roundHalfUp ((whole + fraction) * Float.ofNat unit) / Float.ofNat unit

/-- The double rounded to hundredths. A zero result has no sign, and what fits no scaled decimal
stays as it is. -/
def roundHundredths (x : Float) : Float :=
  match Binary64.ofFloat x with
  | .finite negative mantissa exponent =>
    match ScaledDecimal.ofDouble? mantissa exponent with
    | none => x
    | some d =>
      let magnitude := (d.round 2).toFloat
      if magnitude == 0.0 then 0.0 else if negative then -magnitude else magnitude
  | _ => x

end LedgerFields.Number
