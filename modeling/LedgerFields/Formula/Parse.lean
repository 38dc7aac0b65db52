import LedgerFields.Formula.Fault
import LedgerFields.Number.Numeral
import LedgerFields.Text

/-! Reading a formula, one token after the other. Each open parenthesis has a level of its own, on
which a sum, a product and a sign may wait for the operand that is read next; an operand that is
complete is joined to them as far as the operator after it allows. -/

namespace LedgerFields.Formula

/-- An expression with its height, which grows as the expression is put together. -/
structure Operand where
  expr : Expr
  height : Nat
  height_eq : height = expr.height := by rfl

namespace Operand

/-- The operand that a term is: a literal when it is a numeral, else a reference. -/
def ofTerm (text : String) : Operand :=
  match Number.readNumeral? text with
  | some x => { expr := .literal x, height := 1 }
  | none => { expr := .reference text, height := 1 }

/-- Refuses an operand that is higher than the limit. -/
def check (limit : Nat) (operand : Operand) : Except FormulaFault Operand :=
  if limit < operand.height then .error (.tooDeep limit) else .ok operand

/-- The operand with a sign that may be absent. -/
def withSign (limit : Nat) (sign : Option Sign) (operand : Operand) :
    Except FormulaFault Operand :=
  match sign with
  | none => .ok operand
  | some s => check limit {
      expr := .signed s operand.expr
      height := operand.height + 1
      height_eq := by rw [operand.height_eq]; rfl }

/-- The operand as the right one of an operation whose left operand waits, if there is one. -/
def join (limit : Nat) (waiting : Option (Operand × BinaryOp)) (operand : Operand) :
    Except FormulaFault Operand :=
  match waiting with
  | none => .ok operand
  | some (left, op) => check limit {
      expr := .binary op left.expr operand.expr
      height := max left.height (operand.height + 1)
      height_eq := by rw [left.height_eq, operand.height_eq]; rfl }

end Operand

/-- What waits on one level: the left operands of a sum and of a product with their operations, and
a sign. -/
structure Pending where
  sum : Option (Operand × BinaryOp) := none
  product : Option (Operand × BinaryOp) := none
  sign : Option Sign := none

/-- A parenthesis that is open, and what waited outside it. -/
structure Opened where
  position : Nat
  outside : Pending

/-- Where the reading of a formula stands. -/
structure Reading where
  /-- The open parentheses, the innermost first. -/
  opened : List Opened := []
  /-- What waits inside the innermost of them. -/
  pending : Pending := {}
  /-- The operand that has just been completed; absent where an operand must come next. -/
  operand : Option Operand := none
  /-- The token before, if there is one. -/
  previous : Option Placed := none

namespace Reading

/-- Takes an operand in: its sign is applied, and a product that waits is formed at once. -/
def complete (r : Reading) (limit : Nat) (operand : Operand) : Except FormulaFault Reading := do
  let signed ← operand.withSign limit r.pending.sign
  let factor ← signed.join limit r.pending.product
  return { r with pending := { sum := r.pending.sum }, operand := some factor }

/-- The fault of an operator where an operand must come. -/
def misplaced (r : Reading) (op : BinaryOp) (position : Nat) : FormulaFault :=
  match r.previous.bind (·.token.op?) with
  | some first => .adjacentOperators first op position
  | none => .missingOperand op position

/-- The fault of a formula or a group that ends where an operand must come. An operator before is
to blame, and else `other`. -/
def unfinished (r : Reading) (other : ParseFault) : FormulaFault :=
  match r.previous with
  | some ⟨.op op, position⟩ => .missingOperand op position
  | _ => .parse other

/-- Reads a token where an operand must come. -/
def beforeOperand (r : Reading) (limit : Nat) (placed : Placed) : Except FormulaFault Reading :=
  match placed.token with
  | .term text => r.complete limit (Operand.ofTerm text)
  | .leftParen =>
    if limit < r.opened.length + 1 then
      .error (.tooDeep limit)
    else
      .ok { r with opened := ⟨placed.position, r.pending⟩ :: r.opened, pending := {} }
  | .op op =>
    match r.pending.sign, op.sign? with
    | none, some sign => .ok { r with pending := { r.pending with sign := some sign } }
    | _, _ => .error (r.misplaced op placed.position)
  | .rightParen =>
    match r.previous with
    | some ⟨.leftParen, position⟩ => .error (.parse (.emptyParentheses position))
    | _ => .error (r.unfinished (.unexpectedToken placed))

/-- Reads a token after a complete operand. A product goes on without touching the sum; anything
else joins the operand to the sum first. -/
def afterOperand (r : Reading) (limit : Nat) (operand : Operand) (placed : Placed) :
    Except FormulaFault Reading :=
  match placed.token with
  | .op .multiply => .ok { r with
      pending := { r.pending with product := some (operand, .multiply) }, operand := none }
  | .op .divide => .ok { r with
      pending := { r.pending with product := some (operand, .divide) }, operand := none }
  | .op op => do
    let sum ← operand.join limit r.pending.sum
    return { r with pending := { sum := some (sum, op) }, operand := none }
  | .rightParen => do
    let sum ← operand.join limit r.pending.sum
    match r.opened with
    | [] => throw (.parse (.unmatchedRightParen placed.position))
    | group :: opened => complete { r with opened, pending := group.outside } limit sum
  | .term _ | .leftParen => do
    let _ ← operand.join limit r.pending.sum
    throw (.parse (.unexpectedToken placed))

/-- Reads one token. -/
def next (limit : Nat) (r : Reading) (placed : Placed) : Except FormulaFault Reading := do
  let after ←
    match r.operand with
    | none => r.beforeOperand limit placed
    | some operand => r.afterOperand limit operand placed
  return { after with previous := some placed }

/-- Ends the reading at a position: a complete operand is joined to the sum, and no parenthesis may
be open. -/
def finish (r : Reading) (limit : Nat) (position : Nat) : Except FormulaFault Expr :=
  match r.operand with
  | none => .error (r.unfinished (.unexpectedEnd position))
  | some operand => do
    let sum ← operand.join limit r.pending.sum
    match r.opened with
    | [] => return sum.expr
    | group :: _ => throw (.parse (.missingRightParen group.position))

end Reading

/-- Reads a formula without blanks from its tokens; `position` is the one after its last character.
-/
def parseTokens (limit : Nat) (tokens : List Placed) (position : Nat) :
    Except FormulaFault Expr := do
  let reading ← tokens.foldlM (Reading.next limit) {}
  reading.finish limit position

/-- Reads a formula. Its blanks are dropped, and positions count the characters that are left. -/
def parse (settings : Settings) (formula : String) : Except FormulaFault Expr := do
  let cs := (Text.dropBlanks formula).toList
  if cs = [] then
    throw (.parse .emptyFormula)
  match tokenize settings cs with
  | .error stray => throw (.parse (.strayCharacter stray))
  | .ok tokens => parseTokens settings.maxDepth tokens (cs.length + 1)

end LedgerFields.Formula
