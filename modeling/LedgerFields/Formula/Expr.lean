import LedgerFields.Number.Layout

/-! Expressions: literals, references, signs and the four operations. Parentheses leave nothing
behind, since the tree says what they said. -/

namespace LedgerFields.Formula

/-- The operations on two numbers. -/
inductive BinaryOp where
  | add
  | subtract
  | multiply
  | divide
  deriving DecidableEq, Repr

/-- The signs that may precede an operand. -/
inductive Sign where
  | plus
  | minus
  deriving DecidableEq, Repr

/-- The character of an operation. -/
def BinaryOp.symbol : BinaryOp → Char
  | .add => '+'
  | .subtract => '-'
  | .multiply => '*'
  | .divide => '/'

/-- The operation that a character stands for. -/
def BinaryOp.ofSymbol? : Char → Option BinaryOp
  | '+' => some .add
  | '-' => some .subtract
  | '*' => some .multiply
  | '/' => some .divide
  | _ => none

/-- The character of a sign. -/
def Sign.symbol : Sign → Char
  | .plus => '+'
  | .minus => '-'

/-- The sign that a character stands for. -/
def Sign.ofSymbol? : Char → Option Sign
  | '+' => some .plus
  | '-' => some .minus
  | _ => none

/-- The sign that is written like an operation. -/
def BinaryOp.sign? : BinaryOp → Option Sign
  | .add => some .plus
  | .subtract => some .minus
  | _ => none

/-- An expression. A reference is a term that the cells of a table give a value. -/
inductive Expr where
  | literal (value : Float)
  | reference (term : String)
  | signed (sign : Sign) (operand : Expr)
  | binary (op : BinaryOp) (left right : Expr)
  deriving DecidableEq

namespace Expr

/-- The terms that refer to cells, from left to right. -/
def references : Expr → List String
  | literal _ => []
  | reference term => [term]
  | signed _ operand => operand.references
  | binary _ left right => left.references ++ right.references

/-- The height: the left operand of an operation stays at its level, so that a long flat chain is
no higher than its highest operand needs. -/
def height : Expr → Nat
  | literal _ => 1
  | reference _ => 1
  | signed _ operand => operand.height + 1
  | binary _ left right => max left.height (right.height + 1)

/-- Whether the expression is a sign before an operand. -/
def isSigned : Expr → Bool
  | signed _ _ => true
  | _ => false

/-- The canonical text: every operation is in parentheses, and so is an operand that starts with a
sign of its own after a sign, since two signs may not follow each other. -/
def render : Expr → String
  | literal x => Number.plainText x
  | reference term => term
  | signed sign operand =>
    if operand.isSigned then
      sign.symbol.toString ++ "(" ++ operand.render ++ ")"
    else
      sign.symbol.toString ++ operand.render
  | binary op left right => "(" ++ left.render ++ op.symbol.toString ++ right.render ++ ")"

end Expr

end LedgerFields.Formula
