import LedgerFields.Number.Binary64

/-! Decimals, and the shortest one that reads back as a given double: the reals nearer to the double
than to any other form an interval, and the coarsest power of ten with a multiple in it gives the
fewest digits. -/

namespace LedgerFields.Number

/-- The number `digits * 10 ^ exponent`. -/
structure Decimal where
  digits : Nat
  exponent : Int
  deriving DecidableEq, Repr

/-- Which of two equally near decimals is taken. -/
inductive Tie where
  | greater
  | even
  deriving DecidableEq, Repr

/-- The reals that read as one double, as multiples of `1 / scale`: the double itself is at `middle`
and the ends are part of it when `closed`. -/
structure ReadInterval where
  low : Nat
  middle : Nat
  high : Nat
  scale : Nat
  closed : Bool

/-- The interval of the double `mantissa * 2 ^ exponent`. Its ends lie half way to the neighbours,
the lower of which is nearer below a power of two, and read as the double of even mantissa. -/
def ReadInterval.ofDouble (mantissa : Nat) (exponent : Int) : ReadInterval :=
  let unit := Nat.pow 2 exponent.toNat
  let below :=
    if mantissa = leastNormalMantissa ∧ leastExponent < exponent then unit else 2 * unit
  { low := 4 * mantissa * unit - below
    middle := 4 * mantissa * unit
    high := 4 * mantissa * unit + 2 * unit
    scale := 4 * Nat.pow 2 (-exponent).toNat
    closed := mantissa % 2 = 0 }

/-- The multiple of `10 ^ exponent` that lies in the interval and is nearest to its middle. -/
def ReadInterval.multiple? (i : ReadInterval) (tie : Tie) (exponent : Int) : Option Decimal :=
  let zoom := Nat.pow 10 (-exponent).toNat
  let step := i.scale * Nat.pow 10 exponent.toNat
  let middle := i.middle * zoom
  let inside (n : Nat) : Bool :=
    (i.low * zoom < n * step && n * step < i.high * zoom) ||
      (i.closed && (i.low * zoom == n * step || n * step == i.high * zoom))
  let n := middle / step
  let up : Bool :=
    match compare (2 * (middle % step)) step with
    | .lt => false
    | .gt => true
    | .eq => tie = .greater || n % 2 = 1
  match inside n, inside (n + 1) with
  | false, false => none
  | true, false => some ⟨n, exponent⟩
  | false, true => some ⟨n + 1, exponent⟩
  | true, true => some ⟨bif up then n + 1 else n, exponent⟩

/-- Tries the powers of ten from `10 ^ exponent` down, `tries` of them. -/
def ReadInterval.coarsest? (i : ReadInterval) (tie : Tie) : (tries : Nat) → Int → Option Decimal
  | 0, _ => none
  | tries + 1, exponent =>
    match i.multiple? tie exponent with
    | some d => some d
    | none => i.coarsest? tie tries (exponent - 1)

/-- The double `mantissa * 2 ^ exponent` written out in full. -/
def Decimal.exact (mantissa : Nat) : (exponent : Int) → Decimal
  | .ofNat n => ⟨mantissa * Nat.pow 2 n, 0⟩
  | .negSucc n => ⟨mantissa * Nat.pow 5 (n + 1), -(n + 1)⟩

/-- The decimal of fewest digits that reads as the double `mantissa * 2 ^ exponent`, and of those
the nearest to it. A power of ten above the double is the first that is tried, and a double is
itself a multiple of the last one. -/
def Decimal.shortest (tie : Tie) (mantissa : Nat) (exponent : Int) : Decimal :=
  if mantissa = 0 then
    ⟨0, 0⟩
  else
    let first : Int := (exponent + mantissa.log2 + 1) * 1233 / 4096 + 1
    let last : Int := min exponent 0
    let found := (ReadInterval.ofDouble mantissa exponent).coarsest? tie
      (first - last + 1).toNat first
    found.getD (Decimal.exact mantissa exponent)

end LedgerFields.Number
