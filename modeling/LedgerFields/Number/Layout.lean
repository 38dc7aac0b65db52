import LedgerFields.Number.Decimal

/-! Numbers as text: a style says how the digits of a double are chosen and laid out, and the
program has two of them, one for people and one for results that other programs read. -/

namespace LedgerFields.Number

/-- How a finite double is written. -/
structure NumberStyle where
  /-- The decimal taken when two of the fewest digits are equally near. -/
  tie : Tie
  /-- The exponents of the leading digit that are written out with zeros: from the first of the two
  up to the second, which is excluded. Absent, all are. -/
  positional : Option (Int × Int)
  /-- What follows the digits of a whole number. -/
  wholeMark : String

/-- Numbers for people: never an exponent, and nothing after a whole number. -/
def NumberStyle.plain : NumberStyle := ⟨.greater, none, ""⟩

/-- Numbers in results: an exponent below `0.00001` and from `10 ^ 16` on, and a whole number shows
that it is a double. -/
def NumberStyle.result : NumberStyle := ⟨.even, some (-5, 16), ".0"⟩

/-- The digits `ds` followed by `10 ^ exponent`, written out with zeros. -/
def positionalText (wholeMark : String) (ds : List Char) (exponent : Int) : String :=
  match exponent with
  | .ofNat n => String.ofList (ds ++ List.replicate n '0') ++ wholeMark
  | .negSucc n =>
    let places := n + 1
    if places < ds.length then
      String.ofList (ds.take (ds.length - places)) ++ "." ++
        String.ofList (ds.drop (ds.length - places))
    else
      "0." ++ String.ofList (List.replicate (places - ds.length) '0' ++ ds)

/-- The first digit, a point before the others, and the exponent with its sign. -/
def exponentText (ds : List Char) (exponent : Int) : String :=
  let mark := if exponent < 0 then "e-" else "e+"
  let fraction := if ds.length ≤ 1 then "" else "." ++ String.ofList (ds.drop 1)
  String.ofList (ds.take 1) ++ fraction ++ mark ++ toString exponent.natAbs

/-- The text of a decimal without its sign. -/
def NumberStyle.decimalText (style : NumberStyle) (d : Decimal) : String :=
  let ds := Nat.toDigits 10 d.digits
  let leading := d.exponent + ds.length - 1
  match style.positional with
  | some (first, last) =>
    if first ≤ leading ∧ leading < last then
      positionalText style.wholeMark ds d.exponent
    else
      exponentText ds leading
  | none => positionalText style.wholeMark ds d.exponent

/-- The text of the double `mantissa * 2 ^ exponent`. A zero keeps its sign. -/
def NumberStyle.finiteText (style : NumberStyle) (negative : Bool) (mantissa : Nat)
    (exponent : Int) : String :=
  (if negative then "-" else "") ++
    style.decimalText (Decimal.shortest style.tie mantissa exponent)

/-- A double as people read it. -/
def plainText (x : Float) : String :=
  match Binary64.ofFloat x with
  | .nan => "NaN"
  | .infinite negative => if negative then "-inf" else "inf"
  | .finite negative mantissa exponent => NumberStyle.plain.finiteText negative mantissa exponent

/-- A double in a result. What is not a finite number has no text there. -/
def resultText? (x : Float) : Option String :=
  match Binary64.ofFloat x with
  | .finite negative mantissa exponent =>
    some (NumberStyle.result.finiteText negative mantissa exponent)
  | _ => none

end LedgerFields.Number
