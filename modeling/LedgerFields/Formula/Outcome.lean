import LedgerFields.Formula.Evaluate
import LedgerFields.Formula.Parse

/-! The outcome of a formula: its value, or a text that says why it has none. -/

namespace LedgerFields

/-- The outcome of a computation: one of a value and the text of a failure. -/
inductive Outcome where
  | value (x : Float)
  | failure (message : String)
  deriving DecidableEq

namespace Outcome

/-- The value of an outcome that has one. -/
def value? : Outcome → Option Float
  | value x => some x
  | failure _ => none

/-- The text of a failure. -/
def message? : Outcome → Option String
  | value _ => none
  | failure message => some message

end Outcome

namespace Formula

/-- The outcome of an evaluation: its value, or the faults of its terms, one on a line. -/
def Evaluation.outcome (evaluation : Evaluation) : Outcome :=
  match evaluation.value, evaluation.faults with
  | some x, [] => .value x
  | _, faults => .failure ("\n".intercalate (faults.map TermFault.message))

/-- The text that reports a formula fault. -/
def FormulaFault.report : FormulaFault → String
  | .parse cause => "The formula could not be parsed: " ++ cause.message
  | fault => fault.message

/-- Reads a formula and evaluates it. -/
def compute {m : Type → Type} [Monad m] (scope : Scope m) (formula : String) : m Outcome :=
  match parse scope.settings formula with
  | .error fault => pure (.failure fault.report)
  | .ok e => do
    match ← e.evaluate scope with
    | .error fault => pure (.failure fault.report)
    | .ok evaluation => pure evaluation.outcome

end Formula

end LedgerFields
