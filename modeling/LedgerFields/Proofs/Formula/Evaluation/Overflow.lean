import LedgerFields.Proofs.Fallible
import LedgerFields.Proofs.Formula.Evaluation.Equations
import LedgerFields.Proofs.Formula.Evaluation.Flexible
import LedgerFields.Proofs.Number.Finite

/-! Values beyond the doubles. An evaluation reports no overflow, so that its value may be infinite
or no number at all. It is so when a numeral is too great for a double, or an operation on finite
numbers has too great an exact result, unless a division by what is infinite then gives zero. -/

namespace LedgerFields.Formula

open Number

/-- The exact result of an operation. -/
def BinaryOp.exact : BinaryOp → ℚ → ℚ → ℚ
  | .add, a, b => a + b
  | .subtract, a, b => a - b
  | .multiply, a, b => a * b
  | .divide, a, b => a / b

theorem Sign.isFinite_apply_iff (sign : Sign) {x : Float} :
    (sign.apply x).isFinite = true ↔ x.isFinite = true := by
  cases sign with
  | plus => rfl
  | minus =>
    simp only [apply]
    split
    · next hzero => exact iff_of_true isFinite_zero (isFinite_of_beq_zero hzero)
    · refine ⟨isFinite_of_neg, fun h => ?_⟩
      obtain ⟨negative, mantissa, exponent, hx⟩ := isFinite_iff.mp h
      exact isFinite_iff.mpr ⟨_, _, _, ofFloat_neg hx⟩

/-- An operation on finite numbers has a finite result unless the exact one is too great. -/
theorem BinaryOp.isFinite_apply_iff {op : BinaryOp} {x y z : Float} (hx : x.isFinite = true)
    (hy : y.isFinite = true) (h : op.apply x y = .ok z) :
    z.isFinite = true ↔ ¬Exceeds op.exact x y := by
  cases op with
  | add =>
    cases h
    exact isFinite_roundHundredths_iff.trans (isFinite_add_iff hx hy)
  | subtract =>
    cases h
    exact isFinite_roundHundredths_iff.trans (isFinite_sub_iff hx hy)
  | multiply =>
    cases h
    exact isFinite_roundHundredths_iff.trans (isFinite_mul_iff hx hy)
  | divide =>
    simp only [apply] at h
    split at h
    · cases h
    · next hzero =>
      cases h
      exact isFinite_roundHundredths_iff.trans (isFinite_div_iff hx hy hzero)

/-- An operation other than a division has a finite result on finite operands only. -/
theorem BinaryOp.isFinite_of_apply {op : BinaryOp} {x y z : Float} (h : op.apply x y = .ok z)
    (hz : z.isFinite = true) : x.isFinite = true ∧ (op ≠ .divide → y.isFinite = true) := by
  cases op with
  | add =>
    cases h
    obtain ⟨hx, hy⟩ := isFinite_of_add (isFinite_roundHundredths_iff.mp hz)
    exact ⟨hx, fun _ => hy⟩
  | subtract =>
    cases h
    obtain ⟨hx, hy⟩ := isFinite_of_sub (isFinite_roundHundredths_iff.mp hz)
    exact ⟨hx, fun _ => hy⟩
  | multiply =>
    cases h
    obtain ⟨hx, hy⟩ := isFinite_of_mul (isFinite_roundHundredths_iff.mp hz)
    exact ⟨hx, fun _ => hy⟩
  | divide =>
    simp only [apply] at h
    split at h
    · cases h
    · cases h
      have hx := (isFinite_of_div (isFinite_roundHundredths_iff.mp hz)).1
      exact ⟨hx, fun hop => absurd rfl hop⟩

/-- A quotient by what is not finite is finite when the dividend is and the divisor is infinite. -/
theorem BinaryOp.isFinite_divide_iff {x y z : Float} (hx : x.isFinite = true)
    (hy : ¬y.isFinite = true) (h : BinaryOp.divide.apply x y = .ok z) :
    z.isFinite = true ↔ y.isNaN = false := by
  simp only [apply] at h
  split at h
  · cases h
  · cases h
    refine isFinite_roundHundredths_iff.trans ⟨fun h => (isFinite_of_div h).2, fun hnumber => ?_⟩
    exact isFinite_div_infinite hx hy hnumber

/-- The value of an expression by itself, at no depth and without the faults of its terms. -/
def Expr.result? (scope : Scope Id) : Expr → Option Float
  | .literal x => some x
  | .reference term => (Id.run (scope.resolve term)).toOption
  | .signed sign operand => (operand.result? scope).map sign.apply
  | .binary op left right =>
    (left.result? scope).bind fun x => (right.result? scope).bind fun y => (op.apply x y).toOption

/-- A numeral of the expression is too great for a double, or the exact result of an operation is,
whose operands are finite, and no division by an infinite number hides it. -/
inductive Expr.Overflows (scope : Scope Id) : Expr → Prop where
  | literal {x : Float} : ¬x.isFinite = true → Overflows scope (.literal x)
  | numeral {term : String} {x : Float} : readNumeral? term = some x → ¬x.isFinite = true →
      Overflows scope (.reference term)
  | signed {sign : Sign} {operand : Expr} : Overflows scope operand →
      Overflows scope (.signed sign operand)
  | left {op : BinaryOp} {left right : Expr} : Overflows scope left →
      Overflows scope (.binary op left right)
  | right {op : BinaryOp} {left right : Expr} : op ≠ .divide → Overflows scope right →
      Overflows scope (.binary op left right)
  | divisor {left right : Expr} {y : Float} : Overflows scope right →
      right.result? scope = some y → y.isNaN = true →
      Overflows scope (.binary .divide left right)
  | result {op : BinaryOp} {left right : Expr} {x y : Float} : left.result? scope = some x →
      right.result? scope = some y → Exceeds op.exact x y → Overflows scope (.binary op left right)

section

variable {scope : Scope Id}

theorem runId_bind_eq_ok {ε α β : Type} {x : ExceptT ε Id α} {f : α → ExceptT ε Id β} {b : β} :
    (x >>= f).run = .ok b ↔ ∃ a, x.run = .ok a ∧ (f a).run = .ok b := by
  show Id.run (x >>= f).run = .ok b ↔ _
  rw [run_bind_id]
  exact bind_eq_ok

theorem Evaluation.value_of_binary {op : BinaryOp} {left right evaluation : Evaluation}
    (h : binary op left right = .ok evaluation) :
    evaluation.value = left.value.bind fun x => right.value.bind fun y =>
      (op.apply x y).toOption := by
  unfold binary at h
  cases hleft : left.value with
  | none =>
    simp only [hleft] at h
    cases h
    rfl
  | some x =>
    cases hright : right.value with
    | none =>
      simp only [hleft, hright] at h
      cases h
      rfl
    | some y =>
      simp only [hleft, hright] at h
      obtain ⟨z, hz, hevaluation⟩ := bind_eq_ok.mp h
      cases hevaluation
      show some z = (op.apply x y).toOption
      rw [hz]
      rfl

/-- An evaluation that comes to its end has the value that the expression has by itself. -/
theorem Expr.value_of_evaluateAt {e : Expr} {depth : Nat} {evaluation : Evaluation}
    (h : (e.evaluateAt scope depth).run = .ok evaluation) :
    evaluation.value = e.result? scope := by
  induction e generalizing depth evaluation with
  | literal x =>
    rw [evaluateAt_literal] at h
    obtain ⟨-, -, h⟩ := runId_bind_eq_ok.mp h
    cases h
    rfl
  | reference term =>
    rw [evaluateAt_reference] at h
    obtain ⟨-, -, h⟩ := runId_bind_eq_ok.mp h
    obtain ⟨result, hresult, h⟩ := runId_bind_eq_ok.mp h
    cases hresult
    cases h
    show (Evaluation.ofTerm (Id.run (scope.resolve term))).value =
      (Id.run (scope.resolve term)).toOption
    cases Id.run (scope.resolve term) <;> rfl
  | signed sign operand ih =>
    rw [evaluateAt_signed] at h
    obtain ⟨-, -, h⟩ := runId_bind_eq_ok.mp h
    obtain ⟨inner, hinner, h⟩ := runId_bind_eq_ok.mp h
    cases h
    show inner.value.map sign.apply = (operand.result? scope).map sign.apply
    rw [ih hinner]
  | binary op left right ihl ihr =>
    rw [evaluateAt_binary] at h
    obtain ⟨l, hl, h⟩ := runId_bind_eq_ok.mp h
    obtain ⟨r, hr, h⟩ := runId_bind_eq_ok.mp h
    rw [Evaluation.value_of_binary h, ihl hl, ihr hr]
    rfl

theorem Settings.isFinite_of_cellValue {settings : Settings} {term : String} {cell : Cell}
    {x : Float} (hcell : ∀ y, cell = .number y → y.isFinite = true)
    (h : settings.cellValue term cell = .ok x) : x.isFinite = true := by
  cases cell with
  | text content => cases h
  | empty =>
    simp only [cellValue] at h
    split at h
    · cases h
    · cases h
      exact isFinite_zero
  | number y =>
    simp only [cellValue] at h
    split at h
    · split at h
      · cases h
      · cases h
        exact isFinite_zero
    · cases h
      exact hcell x rfl

/-- The terms of a scope are finite when its cells are, but for numerals that are too great. -/
theorem Scope.isFinite_of_resolve {term : String} {x : Float}
    (hcells : ∀ column key y, scope.source column scope.keyColumn key = .found (.number y) →
      y.isFinite = true)
    (hnumeral : ∀ y, readNumeral? term = some y → y.isFinite = true)
    (h : Id.run (scope.resolve term) = .ok x) : x.isFinite = true := by
  cases hread : readNumeral? term with
  | some y =>
    rw [resolve_numeral hread] at h
    cases h
    exact hnumeral x hread
  | none =>
    cases hparts : Text.splitOnce? scope.settings.separator term with
    | none =>
      rw [resolve_malformed hread hparts] at h
      cases h
    | some parts =>
      obtain ⟨column, key⟩ := parts
      rw [resolve_reference hread hparts] at h
      replace h : scope.settings.lookupValue term (scope.source column scope.keyColumn key) =
        .ok x := h
      cases hsource : scope.source column scope.keyColumn key with
      | missing what =>
        rw [hsource] at h
        cases h
      | found cell =>
        rw [hsource] at h
        refine Settings.isFinite_of_cellValue (fun y hy => ?_) h
        exact hcells column key y (hy ▸ hsource)

theorem Expr.result?_binary {op : BinaryOp} {left right : Expr} {z : Float}
    (h : (binary op left right).result? scope = some z) : ∃ x y, left.result? scope = some x ∧
      right.result? scope = some y ∧ op.apply x y = .ok z := by
  obtain ⟨x, hx, h⟩ := Option.bind_eq_some_iff.mp h
  obtain ⟨y, hy, h⟩ := Option.bind_eq_some_iff.mp h
  exact ⟨x, y, hx, hy, toOption_eq_some.mp h⟩

/-- An overflow is seen in the value. -/
theorem Expr.Overflows.not_isFinite {e : Expr} {x : Float} (hrange : e.Overflows scope)
    (h : e.result? scope = some x) : ¬x.isFinite = true := by
  induction hrange generalizing x with
  | literal hy =>
    cases h
    exact hy
  | numeral hread hy =>
    rw [result?, Scope.resolve_numeral hread] at h
    cases h
    exact hy
  | signed _ ih =>
    obtain ⟨y, hy, rfl⟩ := Option.map_eq_some_iff.mp h
    exact mt (Sign.isFinite_apply_iff _).mp (ih hy)
  | left _ ih =>
    obtain ⟨y, z, hy, hz, happly⟩ := result?_binary h
    exact fun hx => ih hy (BinaryOp.isFinite_of_apply happly hx).1
  | right hop _ ih =>
    obtain ⟨y, z, hy, hz, happly⟩ := result?_binary h
    exact fun hx => ih hz ((BinaryOp.isFinite_of_apply happly hx).2 hop)
  | divisor _ hright hnan ih =>
    obtain ⟨y, z, hy, hz, happly⟩ := result?_binary h
    obtain rfl := Option.some.inj (hright.symm.trans hz)
    intro hx
    have hyFinite := (BinaryOp.isFinite_of_apply happly hx).1
    rw [(BinaryOp.isFinite_divide_iff hyFinite (ih hz) happly).mp hx] at hnan
    cases hnan
  | result hleft hright hexceeds =>
    obtain ⟨y, z, hy, hz, happly⟩ := result?_binary h
    obtain rfl := Option.some.inj (hleft.symm.trans hy)
    obtain rfl := Option.some.inj (hright.symm.trans hz)
    have ⟨a, b, ha, hb, _⟩ := hexceeds
    have hyFinite := isFinite_of_value? ha
    have hzFinite := isFinite_of_value? hb
    exact fun hx => (BinaryOp.isFinite_apply_iff hyFinite hzFinite happly).mp hx hexceeds

/-- The value of an expression over finite cells is finite exactly when nothing overflows. -/
theorem Expr.isFinite_iff_of_result {e : Expr} {x : Float}
    (hcells : ∀ column key y, scope.source column scope.keyColumn key = .found (.number y) →
      y.isFinite = true)
    (h : e.result? scope = some x) : x.isFinite = true ↔ ¬e.Overflows scope := by
  refine ⟨fun hx hrange => hrange.not_isFinite h hx, fun hrange => ?_⟩
  induction e generalizing x with
  | literal y =>
    cases h
    by_contra hx
    exact hrange (.literal hx)
  | reference term =>
    refine Scope.isFinite_of_resolve hcells (fun y hy => ?_) (toOption_eq_some.mp h)
    by_contra hfinite
    exact hrange (.numeral hy hfinite)
  | signed sign operand ih =>
    obtain ⟨y, hy, rfl⟩ := Option.map_eq_some_iff.mp h
    exact sign.isFinite_apply_iff.mpr (ih hy fun hoperand => hrange (.signed hoperand))
  | binary op left right ihl ihr =>
    obtain ⟨y, z, hy, hz, happly⟩ := result?_binary h
    have hyFinite := ihl hy fun hleft => hrange (.left hleft)
    by_cases hzFinite : z.isFinite = true
    · refine (BinaryOp.isFinite_apply_iff hyFinite hzFinite happly).mpr ?_
      exact fun hexceeds => hrange (.result hy hz hexceeds)
    · -- Only a division gets over this, and only when its divisor is infinite.
      have hright : right.Overflows scope := not_imp_comm.mp (ihr hz) hzFinite
      obtain rfl : op = .divide := by
        by_contra hop
        exact hrange (.right hop hright)
      refine (BinaryOp.isFinite_divide_iff hyFinite hzFinite happly).mpr ?_
      exact Bool.eq_false_iff.mpr fun hnan => hrange (.divisor hright hz hnan)

/-- The expression that a text spells overflows. -/
def TextOverflows (scope : Scope Id) (text : String) : Prop :=
  ∃ e, parse scope.settings text = .ok e ∧ e.Overflows scope

/-- The value of a formula over finite cells is finite exactly when nothing overflows. -/
theorem isFinite_iff_of_compute {text : String} {x : Float}
    (hcells : ∀ column key y, scope.source column scope.keyColumn key = .found (.number y) →
      y.isFinite = true)
    (h : compute scope text = (.value x : Outcome)) :
    x.isFinite = true ↔ ¬TextOverflows scope text := by
  rw [compute_eq] at h
  replace h : outcomeOf (Id.run (attempt scope text)) = .value x := h
  cases hparse : parse scope.settings text with
  | error fault =>
    rw [attempt_of_parse_error hparse] at h
    cases h
  | ok e =>
    have hrange : TextOverflows scope text ↔ e.Overflows scope := by
      refine ⟨fun ⟨e', hparse', he'⟩ => ?_, fun he => ⟨e, hparse, he⟩⟩
      obtain rfl := Except.ok.inj (hparse.symm.trans hparse')
      exact he'
    rw [attempt_of_parse hparse] at h
    cases hrun : Id.run (e.evaluate scope) with
    | error fault =>
      rw [hrun] at h
      cases h
    | ok evaluation =>
      rw [hrun] at h
      rw [hrange]
      refine e.isFinite_iff_of_result hcells ?_
      rw [← Expr.value_of_evaluateAt hrun]
      exact Evaluation.value_of_outcome h

end

end LedgerFields.Formula
