import LedgerFields.Formula.Fault
import LedgerFields.Number.Hundredths
import LedgerFields.Number.Numeral
import LedgerFields.Text

/-! Evaluating an expression against cells. A term without a value does not end the evaluation: its
fault is kept, what depends on it has no value, and the other terms are still looked up, so that
all faults are found at once. A division by zero and too great a depth end it. -/

namespace LedgerFields.Formula

/-- Answers look-ups by column, key column and key. -/
abbrev CellSource (m : Type → Type) := (column keyColumn key : String) → m Lookup

/-- What the terms of a formula are looked up in and how. -/
structure Scope (m : Type → Type) where
  source : CellSource m
  keyColumn : String
  settings : Settings

/-- The value of a term that refers to this cell. A number that is not a number counts as empty, and
what is empty counts as zero unless the settings are strict. -/
def Settings.cellValue (settings : Settings) (term : String) :
    Cell → Except TermFault Float
  | .number x =>
    if x.isNaN then
      if settings.strict then .error (.nonNumeric term .empty) else .ok 0.0
    else
      .ok x
  | .empty => if settings.strict then .error (.nonNumeric term .empty) else .ok 0.0
  | .text s => .error (.nonNumeric term (.text s))

/-- The value of a term: that of a numeral, or that of the cell whose column and key stand before
and after the first separator. -/
def Scope.resolve {m : Type → Type} [Monad m] (scope : Scope m) (term : String) :
    m (Except TermFault Float) :=
  match Number.readNumeral? term with
  | some x => pure (.ok x)
  | none =>
    match Text.splitOnce? scope.settings.separator term with
    | none => pure (.error (.malformed term scope.settings.separator))
    | some (column, key) => do
      match ← scope.source column scope.keyColumn key with
      | .missing what => pure (.error (.unresolved term what))
      | .found cell => pure (scope.settings.cellValue term cell)

/-- The value of an expression, absent when a term has none, and the faults of its terms from left
to right. -/
structure Evaluation where
  value : Option Float
  faults : List TermFault

/-- The number with a sign. There is no negative zero. -/
def Sign.apply : Sign → Float → Float
  | .plus, x => x
  | .minus, x => if x == 0.0 then 0.0 else -x

/-- The result of an operation, rounded to hundredths. -/
def BinaryOp.apply : BinaryOp → Float → Float → Except FormulaFault Float
  | .add, x, y => .ok (Number.roundHundredths (x + y))
  | .subtract, x, y => .ok (Number.roundHundredths (x - y))
  | .multiply, x, y => .ok (Number.roundHundredths (x * y))
  | .divide, x, y =>
    if y == 0.0 then .error .divisionByZero else .ok (Number.roundHundredths (x / y))

/-- The result of an operation, when both operands have a value. -/
def BinaryOp.applyBoth (op : BinaryOp) :
    (left right : Option Float) → Except FormulaFault (Option Float)
  | some x, some y => (op.apply x y).map some
  | _, _ => .ok none

/-- A computation that puts the faults of terms at the end of a list. A formula fault ends it, and
leaves the list as it is. -/
abbrev Collecting (m : Type → Type) := ExceptT FormulaFault (StateT (List TermFault) m)

/-- A step of a chain of operations: the operation and the evaluation of its right operand. -/
abbrev Step (m : Type → Type) := BinaryOp × Collecting m (Option Float)

section

variable {m : Type → Type} [Monad m]

/-- Refuses a depth beyond the limit. -/
def checkDepth (limit depth : Nat) : ExceptT FormulaFault m PUnit :=
  if limit < depth then throw (.tooDeep limit) else pure ⟨⟩

/-- Keeps the fault of a term without a value. -/
def collectResult : Except TermFault Float → Collecting m (Option Float)
  | .ok x => pure (some x)
  | .error fault => do
    modify (· ++ [fault])
    return none

/-- The value of a term, if it has one. -/
def Scope.collect (scope : Scope m) (term : String) : Collecting m (Option Float) := do
  collectResult (← ExceptT.lift (StateT.lift (scope.resolve term)))

/-- Carries the steps of a chain out, one after the other. -/
def runSteps (first : Option Float) (steps : List (Step m)) : Collecting m (Option Float) :=
  steps.foldlM (fun left step => do liftExcept (step.1.applyBoth left (← step.2))) first
where
  /-- An outcome that does not depend on the source of cells. -/
  liftExcept {m : Type → Type} [Monad m] {α : Type} (x : Except FormulaFault α) :
      ExceptT FormulaFault m α :=
    ExceptT.mk (pure x)

/-- Goes down the left operands of a chain, which all stay at one depth, and keeps each operation
with its right operand for when the leftmost operand has been evaluated. -/
def Expr.collectChain (scope : Scope m) : Expr → (depth : Nat) → List (Step m) →
    Collecting m (Option Float)
  | .literal x, _, steps => runSteps (some x) steps
  | .reference term, _, steps => do runSteps (← scope.collect term) steps
  | .signed sign operand, depth, steps => do
    checkDepth scope.settings.maxDepth (depth + 1)
    let value ← operand.collectChain scope (depth + 1) []
    runSteps (value.map sign.apply) steps
  | .binary op left right, depth, steps =>
    left.collectChain scope depth ((op, do
      checkDepth scope.settings.maxDepth (depth + 1)
      right.collectChain scope (depth + 1) []) :: steps)

/-- The value of an expression that stands at a depth, if it has one. -/
def Expr.collectAt (scope : Scope m) (e : Expr) (depth : Nat) : Collecting m (Option Float) := do
  checkDepth scope.settings.maxDepth depth
  e.collectChain scope depth []

/-- Carries a computation out on a list of faults, which is lost when a formula fault ends it. -/
def Collecting.settle {α : Type} (x : Collecting m α) (earlier : List TermFault) :
    ExceptT FormulaFault m (α × List TermFault) :=
  ExceptT.mk ((fun answer => answer.1.map (·, answer.2)) <$> x.run.run earlier)

/-- Evaluates an expression that stands at a depth. -/
def Expr.evaluateAt (scope : Scope m) (e : Expr) (depth : Nat) :
    ExceptT FormulaFault m Evaluation := do
  let (value, faults) ← (e.collectAt scope depth).settle []
  return ⟨value, faults⟩

/-- Evaluates an expression. -/
def Expr.evaluate (scope : Scope m) (e : Expr) : m (Except FormulaFault Evaluation) :=
  (e.evaluateAt scope 1).run

end

end LedgerFields.Formula
