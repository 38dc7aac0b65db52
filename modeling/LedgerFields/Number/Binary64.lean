/-! Doubles taken apart: the sign, the whole mantissa and the power of two of a finite double. -/

namespace LedgerFields.Number

/-- A double as what its bits mean. A finite one is `mantissa * 2 ^ exponent`, with its sign kept
beside, so that both zeros have mantissa 0. -/
inductive Binary64 where
  | nan
  | infinite (negative : Bool)
  | finite (negative : Bool) (mantissa : Nat) (exponent : Int)
  deriving DecidableEq, Repr

/-- The least exponent of a double, which is that of the subnormal ones. -/
def leastExponent : Int := -1074

/-- The mantissa of a power of two among the normal doubles, which have 53 significant bits. -/
def leastNormalMantissa : Nat := Nat.pow 2 52

/-- Reads the sign bit, the eleven bits of the exponent and the 52 of the fraction. -/
def Binary64.ofFloat (x : Float) : Binary64 :=
  let bits : Nat := x.toBits.toNat
  let negative := decide (Nat.pow 2 63 ≤ bits)
  let field : Nat := bits / Nat.pow 2 52 % Nat.pow 2 11
  let fraction := bits % Nat.pow 2 52
  if field = 2047 then
    if fraction = 0 then .infinite negative else .nan
  else if field = 0 then
    .finite negative fraction leastExponent
  else
    .finite negative (leastNormalMantissa + fraction) ((field : Int) - 1075)

/-- The value `mantissa * 2 ^ exponent` when it is a whole number. -/
def wholeValue? (mantissa : Nat) : (exponent : Int) → Option Nat
  | .ofNat n => some (mantissa * Nat.pow 2 n)
  | .negSucc n =>
    if mantissa % Nat.pow 2 (n + 1) = 0 then some (mantissa / Nat.pow 2 (n + 1)) else none

/-- The whole number nearest to `mantissa * 2 ^ exponent`; a half goes up. -/
def nearestWhole (mantissa : Nat) : (exponent : Int) → Nat
  | .ofNat n => mantissa * Nat.pow 2 n
  | .negSucc n => (2 * mantissa + Nat.pow 2 (n + 1)) / Nat.pow 2 (n + 2)

end LedgerFields.Number
