import LedgerFields.Formula.Token
import LedgerFields.Table

/-! What goes wrong with a formula. A formula fault leaves no value at all; a term fault concerns
one term, and the others are still evaluated. -/

namespace LedgerFields.Formula

/-- Why a text is no formula, operators without operands apart. -/
inductive ParseFault where
  | emptyFormula
  | strayCharacter (stray : Stray)
  | unexpectedToken (placed : Placed)
  | unexpectedEnd (position : Nat)
  | emptyParentheses (position : Nat)
  | unmatchedRightParen (position : Nat)
  /-- The position is that of the parenthesis that is not closed. -/
  | missingRightParen (position : Nat)
  | unknownOperator (symbol : Char)
  deriving DecidableEq, Repr

/-- The text of a parse fault. -/
def ParseFault.message : ParseFault → String
  | .emptyFormula => "The formula is empty"
  | .strayCharacter stray => s!"Unexpected character '{stray.char}' at position {stray.position}"
  | .unexpectedToken placed =>
    s!"Unexpected {placed.token.description} at position {placed.position}"
  | .unexpectedEnd position => s!"Unexpected end of formula at position {position}"
  | .emptyParentheses position => s!"Empty parentheses at position {position}"
  | .unmatchedRightParen position => s!"Unmatched ')' at position {position}"
  | .missingRightParen position => s!"Missing ')' for the '(' at position {position}"
  | .unknownOperator symbol => s!"Unknown operator '{symbol}'"

/-- Why a formula has no value. -/
inductive FormulaFault where
  | parse (cause : ParseFault)
  | missingOperand (op : BinaryOp) (position : Nat)
  /-- The position is that of the second operator. -/
  | adjacentOperators (first second : BinaryOp) (position : Nat)
  | invalidSign (symbol : Char)
  | tooDeep (limit : Nat)
  | divisionByZero
  deriving DecidableEq, Repr

/-- The text of a formula fault. -/
def FormulaFault.message : FormulaFault → String
  | .parse cause => "Parse error: " ++ cause.message
  | .missingOperand op position =>
    s!"The operator '{op.symbol}' at position {position} is misplaced. An operator must have " ++
      "a cell reference or a numeric value both on its left and on its right"
  | .adjacentOperators first second position =>
    "The formula contains two arithmetic operators next to each other " ++
      s!"('{first.symbol}{second.symbol}' at position {position}). An operator must have " ++
      "a cell reference or a numeric value both on its left and on its right"
  | .invalidSign symbol =>
    s!"'{symbol}' cannot be used as a sign. Only '+' and '-' may precede a term"
  | .tooDeep limit =>
    s!"The formula is nested too deeply (more than {limit} levels). It must contain " ++
      "a reasonable number of parentheses, operators and terms"
  | .divisionByZero =>
    "The formula divides by zero, either explicitly or because the denominator refers to " ++
      "a cell whose value is zero"

/-- Why a term has no value. -/
inductive TermFault where
  /-- The term is no numeral and has no separator. -/
  | malformed (term : String) (separator : Char)
  | unresolved (term : String) (missing : Missing)
  /-- The cell of the term holds no number; what is not a number counts as an empty cell. -/
  | nonNumeric (term : String) (content : Cell)
  deriving DecidableEq

/-- The text of a term fault. -/
def TermFault.message : TermFault → String
  | .malformed term separator =>
    s!"The term `{term}` is neither a number nor a cell reference of the form " ++
      s!"`column{separator}row`"
  | .unresolved term missing =>
    s!"The cell reference `{term}` cannot be resolved: {missing.message}"
  | .nonNumeric term .empty => s!"The cell referenced by `{term}` is empty"
  | .nonNumeric term content =>
    s!"The cell referenced by `{term}` is not numeric (`{content.display}`)"

/-- The operation that a character stands for, or the fault that it stands for none. -/
def BinaryOp.ofSymbol (c : Char) : Except FormulaFault BinaryOp :=
  match BinaryOp.ofSymbol? c with
  | some op => .ok op
  | none => .error (.parse (.unknownOperator c))

/-- The sign that a character stands for, or the fault that it stands for none. -/
def Sign.ofSymbol (c : Char) : Except FormulaFault Sign :=
  match Sign.ofSymbol? c with
  | some sign => .ok sign
  | none => .error (.invalidSign c)

end LedgerFields.Formula
