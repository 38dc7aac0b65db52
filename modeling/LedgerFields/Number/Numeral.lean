/-! Numbers read from text: the unsigned numerals of a formula, and the wider notation of data,
with a sign, an exponent and names for infinity and for what is no number. -/

namespace LedgerFields.Number

/-- The value of decimal digits, the first of which counts most. -/
def digitsValue (ds : List Char) : Nat :=
  ds.foldl (fun n c => 10 * n + (c.toNat - '0'.toNat)) 0

/-- The double nearest to `digits * 10 ^ exponent`; a tie goes to the even mantissa. -/
def nearestFloat (digits : Nat) (exponent : Int) : Float :=
  Float.ofScientific digits (decide (exponent < 0)) exponent.natAbs

/-- The digits before and after a decimal point that may be missing, and what follows them. -/
def splitNumeral (cs : List Char) : List Char × List Char × List Char :=
  let whole := cs.takeWhile Char.isDigit
  match cs.dropWhile Char.isDigit with
  | '.' :: rest => (whole, rest.takeWhile Char.isDigit, rest.dropWhile Char.isDigit)
  | rest => (whole, [], rest)

/-- Reads ASCII digits with at most one point anywhere among them and at least one digit. -/
def readNumeral? (text : String) : Option Float :=
  match splitNumeral text.toList with
  | ([], [], _) => none
  | (whole, fraction, []) =>
    some (nearestFloat (digitsValue (whole ++ fraction)) (-fraction.length))
  | _ => none

/-- Reads an exponent after its letter: a sign that may be missing, and digits up to the end. -/
def readExponent? : List Char → Option Int
  | '+' :: ds => digits? ds
  | '-' :: ds => (digits? ds).map (- ·)
  | ds => digits? ds
where
  /-- The value of one or more digits and nothing else. -/
  digits? (ds : List Char) : Option Int :=
    if ds ≠ [] ∧ ds.all Char.isDigit then some (digitsValue ds) else none

/-- Reads an unsigned number: `inf`, `infinity` or `nan` in any case, or a numeral that an exponent
may follow. -/
def readMagnitude? (cs : List Char) : Option Float :=
  let name := cs.map Char.toLower
  if name = "inf".toList ∨ name = "infinity".toList then
    some (1.0 / 0.0)
  else if name = "nan".toList then
    some (0.0 / 0.0)
  else
    let (whole, fraction, rest) := splitNumeral cs
    if whole = [] ∧ fraction = [] then
      none
    else
      let value (exponent : Int) :=
        nearestFloat (digitsValue (whole ++ fraction)) (exponent - fraction.length)
      match rest with
      | [] => some (value 0)
      | 'e' :: tail | 'E' :: tail => (readExponent? tail).map value
      | _ => none

/-- Reads a number as data files hold them: a magnitude that one sign may precede. -/
def readFloat? (text : String) : Option Float :=
  match text.toList with
  | '+' :: cs => readMagnitude? cs
  | '-' :: cs => (readMagnitude? cs).map Float.neg
  | cs => readMagnitude? cs

end LedgerFields.Number
