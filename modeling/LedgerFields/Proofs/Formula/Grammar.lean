import LedgerFields.Formula.Token
import LedgerFields.Number.Numeral
import LedgerFields.Proofs.Formula.Nesting

/-! The grammar of formulas, as derivations of a tree from a list of tokens: a sum is a chain of
products, a product a chain of factors, a factor a primary that one sign may precede, and a primary
a term or a sum in parentheses. -/

namespace LedgerFields.Formula

/-- The rules of the grammar, the loosest first. -/
inductive Rule where
  | sum
  | product
  | factor
  | primary
  deriving DecidableEq, Repr

/-- The rule whose chains an operation forms. -/
def BinaryOp.rule : BinaryOp → Rule
  | .add => .sum
  | .subtract => .sum
  | .multiply => .product
  | .divide => .product

/-- A chain groups to the left: what stands before its last operation is a chain of the same rule.
Parentheses leave no trace in the tree. -/
inductive Derives : Rule → List Token → Expr → Prop where
  | literal {text : String} {x : Float} :
      Number.readNumeral? text = some x → Derives .primary [.term text] (.literal x)
  | reference {text : String} :
      Number.readNumeral? text = none → Derives .primary [.term text] (.reference text)
  | group {ts : List Token} {e : Expr} :
      Derives .sum ts e → Derives .primary (.leftParen :: ts ++ [.rightParen]) e
  | unsigned {ts : List Token} {e : Expr} : Derives .primary ts e → Derives .factor ts e
  | signed {op : BinaryOp} {sign : Sign} {ts : List Token} {e : Expr} :
      op.sign? = some sign → Derives .primary ts e →
      Derives .factor (.op op :: ts) (.signed sign e)
  | factor {ts : List Token} {e : Expr} : Derives .factor ts e → Derives .product ts e
  | multiplied {op : BinaryOp} {ts us : List Token} {l r : Expr} :
      op.rule = .product → Derives .product ts l → Derives .factor us r →
      Derives .product (ts ++ .op op :: us) (.binary op l r)
  | product {ts : List Token} {e : Expr} : Derives .product ts e → Derives .sum ts e
  | added {op : BinaryOp} {ts us : List Token} {l r : Expr} :
      op.rule = .sum → Derives .sum ts l → Derives .product us r →
      Derives .sum (ts ++ .op op :: us) (.binary op l r)

/-- A leaf of an expression tree. -/
def Expr.isLeaf : Expr → Bool
  | .literal _ => true
  | .reference _ => true
  | _ => false

/-- The height that a limit allows: a leaf is never too high. -/
def Expr.Fits (limit : Nat) (e : Expr) : Prop :=
  e.isLeaf = true ∨ e.height ≤ limit

namespace Expr.Fits

variable {limit : Nat} {sign : Sign} {op : BinaryOp} {e l r : Expr}

theorem operand (h : (Expr.signed sign e).Fits limit) : e.Fits limit := by
  rcases h with h | h
  · cases h
  · exact .inr (Nat.le_of_succ_le h)

theorem left (h : (Expr.binary op l r).Fits limit) : l.Fits limit := by
  rcases h with h | h
  · cases h
  · exact .inr (Nat.le_trans (Nat.le_max_left _ _) h)

theorem right (h : (Expr.binary op l r).Fits limit) : r.Fits limit := by
  rcases h with h | h
  · cases h
  · exact .inr (Nat.le_of_succ_le (Nat.le_trans (Nat.le_max_right _ _) h))

end Expr.Fits

/-- A derivation leaves no parenthesis open and closes none that it has not opened. -/
theorem Derives.balanced {rule : Rule} {ts : List Token} {e : Expr} (h : Derives rule ts e) :
    ts.count .leftParen = ts.count .rightParen := by
  induction h with
  | literal | reference => simp
  | group _ ih => simp [ih]
  | unsigned _ ih | factor _ ih | product _ ih => exact ih
  | signed _ _ ih => simpa using ih
  | multiplied _ _ _ iht ihu | added _ _ _ iht ihu => simp [iht, ihu]

theorem Derives.ne_nil {rule : Rule} {ts : List Token} {e : Expr} (h : Derives rule ts e) :
    ts ≠ [] := by
  induction h with
  | unsigned _ ih | factor _ ih | product _ ih => exact ih
  | _ => simp

end LedgerFields.Formula
