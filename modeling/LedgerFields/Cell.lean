import LedgerFields.Number.Layout
import LedgerFields.Text

/-! The cells of a table, the text that shows a cell, and the text under which a cell of a key
column is looked up. -/

namespace LedgerFields

/-- What a cell holds. -/
inductive Cell where
  | empty
  | number (value : Float)
  | text (value : String)
  deriving DecidableEq, Inhabited

namespace Cell

/-- Whole numbers below this are written as integers. -/
def wholeBound : Nat := Nat.pow 10 15

/-- The text of a number in a cell: a whole number that is not too great is written as an integer,
so that zero has no sign, and any other number as people read it. -/
def numberText (x : Float) : String :=
  match Number.Binary64.ofFloat x with
  | .finite negative mantissa exponent =>
    match Number.wholeValue? mantissa exponent with
    | some n =>
      if n < wholeBound then
        toString (if negative then -(n : Int) else n)
      else
        Number.plainText x
    | none => Number.plainText x
  | _ => Number.plainText x

/-- The text that shows a cell. -/
def display : Cell → String
  | .empty => ""
  | .number x => numberText x
  | .text s => s

/-- The text under which a row is found by this cell. It is trimmed, so that an empty one stands
for no key. -/
def keyText : Cell → String
  | .empty => ""
  | .number x => numberText x
  | .text s => Text.trim s

/-- The number in a cell that holds one. -/
def number? : Cell → Option Float
  | .number x => some x
  | _ => none

/-- The text in a cell that holds one. -/
def text? : Cell → Option String
  | .text s => some s
  | _ => none

end Cell

end LedgerFields
