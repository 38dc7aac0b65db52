import LedgerFields.Proofs.Fallible
import LedgerFields.Proofs.Formula.Evaluation.Depth

/-! Divisions by zero. The evaluation of an expression that keeps the limit is that of its operands,
each by itself, followed by the operation. So it ends in a fault just when some division in it has a
dividend with a value and a divisor that is zero. -/

namespace LedgerFields.Formula

/-- The first expression is the second one or an operand in it. -/
inductive Expr.IsPart : Expr → Expr → Prop where
  | self {e : Expr} : IsPart e e
  | signed {part operand : Expr} {sign : Sign} : IsPart part operand →
      IsPart part (.signed sign operand)
  | left {part left right : Expr} {op : BinaryOp} : IsPart part left →
      IsPart part (.binary op left right)
  | right {part left right : Expr} {op : BinaryOp} : IsPart part right →
      IsPart part (.binary op left right)

theorem Expr.IsPart.height_le {part e : Expr} (h : IsPart part e) : part.height ≤ e.height := by
  induction h with
  | self => exact le_rfl
  | signed _ ih => exact Nat.le_succ_of_le ih
  | left _ ih => exact ih.trans (Nat.le_max_left _ _)
  | right _ ih => exact (Nat.le_succ_of_le ih).trans (Nat.le_max_right _ _)

/-- The expression holds a division of which the dividend has a value and the divisor is zero, each
of them evaluated by itself. -/
def Expr.DividesByZero (answer : Expr → Except FormulaFault Evaluation) (e : Expr) : Prop :=
  ∃ dividend divisor x y faults faults', IsPart (.binary .divide dividend divisor) e ∧
    answer dividend = .ok ⟨some x, faults⟩ ∧ answer divisor = .ok ⟨some y, faults'⟩ ∧
    (y == 0.0) = true

/-- The expression ends in a division by zero just when it holds one, and else it is evaluated. -/
structure Expr.FailsWhenDivided (answer : Expr → Except FormulaFault Evaluation) (e : Expr) :
    Prop where
  divisionByZero_iff : answer e = .error .divisionByZero ↔ e.DividesByZero answer
  exists_ok : ¬e.DividesByZero answer → ∃ evaluation, answer e = .ok evaluation

/-! ### Operands by themselves -/

section

variable {m : Type → Type} [Monad m] {scope : Scope m}

theorem checkDepth_of_le {limit depth : Nat} (h : depth ≤ limit) :
    (checkDepth limit depth : ExceptT FormulaFault m PUnit) = pure ⟨⟩ :=
  if_neg (Nat.not_lt.mpr h)

variable [LawfulMonad m]

/-- The depth at which an expression stands does not matter, as long as it keeps the limit. -/
theorem Expr.evaluateAt_of_fits {e : Expr} {depth : Nat} (hdepth : 1 ≤ depth)
    (h : depth + e.height ≤ scope.settings.maxDepth + 1) :
    e.evaluateAt scope depth = e.evaluateAt scope 1 := by
  have hfits : depth ≤ scope.settings.maxDepth := by
    have := e.height_pos
    omega
  have hfits' := hdepth.trans hfits
  induction e generalizing depth with
  | literal x =>
    rw [evaluateAt_literal, evaluateAt_literal, checkDepth_of_le hfits, checkDepth_of_le hfits']
  | reference term =>
    rw [evaluateAt_reference, evaluateAt_reference, checkDepth_of_le hfits,
      checkDepth_of_le hfits']
  | signed sign operand ih =>
    have := operand.height_pos
    rw [height] at h
    have hoperand (below : Nat) (hle : below ≤ depth + 1) (hpos : 1 ≤ below) :
        operand.evaluateAt scope below = operand.evaluateAt scope 1 :=
      ih hpos (by omega) (by omega)
    rw [evaluateAt_signed, evaluateAt_signed, checkDepth_of_le hfits, checkDepth_of_le hfits',
      hoperand _ le_rfl (by omega), hoperand (1 + 1) (by omega) (by omega)]
  | binary op left right ihl ihr =>
    have := right.height_pos
    rw [height] at h
    have hright (below : Nat) (hle : below ≤ depth + 1) (hpos : 1 ≤ below) :
        right.evaluateAt scope below = right.evaluateAt scope 1 :=
      ihr hpos (by omega) (by omega)
    rw [evaluateAt_binary, evaluateAt_binary, ihl hdepth (by omega) hfits,
      hright _ le_rfl (by omega), hright (1 + 1) (by omega) (by omega)]

end

section

variable {scope : Scope Id} {e part : Expr}

/-- What the evaluation of an expression by itself comes to. -/
def Expr.answer (scope : Scope Id) (e : Expr) : Except FormulaFault Evaluation :=
  Id.run (e.evaluate scope)

theorem Expr.answer_literal (x : Float) (h : 1 ≤ scope.settings.maxDepth) :
    (literal x).answer scope = .ok ⟨some x, []⟩ := by
  unfold answer evaluate
  rw [evaluateAt_literal, checkDepth_of_le h]
  rfl

theorem Expr.answer_reference (term : String) (h : 1 ≤ scope.settings.maxDepth) :
    (reference term).answer scope = .ok (.ofTerm (scope.resolve term)) := by
  unfold answer evaluate
  rw [evaluateAt_reference, checkDepth_of_le h]
  rfl

theorem Expr.answer_signed {sign : Sign} {operand : Expr}
    (h : (signed sign operand).height ≤ scope.settings.maxDepth) :
    (signed sign operand).answer scope =
      operand.answer scope >>= fun value => .ok (value.signed sign) := by
  rw [height] at h
  unfold answer evaluate
  rw [evaluateAt_signed, checkDepth_of_le (by omega), pure_bind,
    evaluateAt_of_fits (by omega) (by omega), run_bind_id]
  rfl

theorem Expr.answer_binary {op : BinaryOp} {left right : Expr}
    (h : (binary op left right).height ≤ scope.settings.maxDepth) :
    (binary op left right).answer scope =
      left.answer scope >>= fun l => right.answer scope >>= fun r => Evaluation.binary op l r := by
  rw [height] at h
  unfold answer evaluate
  rw [evaluateAt_binary, evaluateAt_of_fits (e := right) (by omega) (by omega), run_bind_id]
  refine bind_congr fun l => ?_
  rw [run_bind_id]
  rfl

/-! ### Faults -/

theorem Evaluation.binary_eq_error_iff {op : BinaryOp} {left right : Evaluation}
    {fault : FormulaFault} : binary op left right = .error fault ↔
      fault = .divisionByZero ∧ op = .divide ∧
        ∃ x y, left.value = some x ∧ right.value = some y ∧ (y == 0.0) = true := by
  constructor
  · intro h
    refine ⟨fault_of_binary h, ?_⟩
    unfold binary at h
    split at h
    · next x y hx hy =>
      cases op with
      | add | subtract | multiply => cases h
      | divide =>
        rcases bind_eq_error.mp h with happly | ⟨_, _, h⟩
        · simp only [BinaryOp.apply] at happly
          split at happly
          · next hzero => exact ⟨rfl, x, y, hx, hy, hzero⟩
          · cases happly
        · cases h
    · cases h
  · rintro ⟨rfl, rfl, x, y, hx, hy, hzero⟩
    simp only [binary, hx, hy, BinaryOp.apply, if_pos hzero]
    rfl

theorem Expr.DividesByZero.mono {f : Expr → Except FormulaFault Evaluation}
    (h : part.DividesByZero f) (hpart : ∀ e', IsPart e' part → IsPart e' e) :
    e.DividesByZero f := by
  obtain ⟨dividend, divisor, x, y, faults, faults', hdivision, hrest⟩ := h
  exact ⟨dividend, divisor, x, y, faults, faults', hpart _ hdivision, hrest⟩

/-- A fault of an expression that keeps the limit is a division by zero in it. -/
theorem Expr.divides_of_answer {fault : FormulaFault} (hheight : e.height ≤ scope.settings.maxDepth)
    (h : e.answer scope = .error fault) :
    fault = .divisionByZero ∧ e.DividesByZero (answer scope) := by
  induction e with
  | literal x =>
    rw [answer_literal x hheight] at h
    cases h
  | reference term =>
    rw [answer_reference term hheight] at h
    cases h
  | signed sign operand ih =>
    rw [answer_signed hheight] at h
    rw [height] at hheight
    rcases bind_eq_error.mp h with h | ⟨_, _, h⟩
    · obtain ⟨hfault, hdivides⟩ := ih (by omega) h
      exact ⟨hfault, hdivides.mono fun _ => .signed⟩
    · cases h
  | binary op left right ihl ihr =>
    rw [answer_binary hheight] at h
    rw [height] at hheight
    rcases bind_eq_error.mp h with h | ⟨l, hl, h⟩
    · obtain ⟨hfault, hdivides⟩ := ihl (by omega) h
      exact ⟨hfault, hdivides.mono fun _ => .left⟩
    rcases bind_eq_error.mp h with h | ⟨r, hr, h⟩
    · obtain ⟨hfault, hdivides⟩ := ihr (by omega) h
      exact ⟨hfault, hdivides.mono fun _ => .right⟩
    obtain ⟨hfault, rfl, x, y, hx, hy, hzero⟩ := Evaluation.binary_eq_error_iff.mp h
    refine ⟨hfault, left, right, x, y, l.faults, r.faults, .self, ?_, ?_, hzero⟩
    · rw [← hx]
      exact hl
    · rw [← hy]
      exact hr

/-- The fault of an operand is a fault of the expression. -/
theorem Expr.IsPart.answer_eq_error (hpart : IsPart part e)
    (hheight : e.height ≤ scope.settings.maxDepth)
    (h : part.answer scope = .error .divisionByZero) :
    e.answer scope = .error .divisionByZero := by
  induction hpart with
  | self => exact h
  | signed _ ih =>
    rw [answer_signed hheight]
    rw [height] at hheight
    exact bind_eq_error.mpr (.inl (ih (by omega)))
  | left _ ih =>
    rw [answer_binary hheight]
    rw [height] at hheight
    exact bind_eq_error.mpr (.inl (ih (by omega)))
  | @right left _ _ _ ih =>
    rw [answer_binary hheight]
    rw [height] at hheight
    -- The left operand is evaluated first, and may itself divide by zero.
    cases hl : left.answer scope with
    | error fault =>
      rw [(divides_of_answer (by omega) hl).1]
      rfl
    | ok l => exact bind_eq_error.mpr (.inr ⟨l, rfl, bind_eq_error.mpr (.inl (ih (by omega)))⟩)

theorem Expr.failsWhenDivided (hheight : e.height ≤ scope.settings.maxDepth) :
    e.FailsWhenDivided (answer scope) := by
  refine ⟨⟨fun h => (divides_of_answer hheight h).2, ?_⟩, fun hdivides => ?_⟩
  · rintro ⟨dividend, divisor, x, y, faults, faults', hpart, hx, hy, hzero⟩
    refine hpart.answer_eq_error hheight ?_
    rw [answer_binary (hpart.height_le.trans hheight), hx, hy]
    change Evaluation.binary .divide ⟨some x, faults⟩ ⟨some y, faults'⟩ = _
    exact Evaluation.binary_eq_error_iff.mpr ⟨rfl, rfl, x, y, rfl, rfl, hzero⟩
  · cases h : e.answer scope with
    | error fault => exact absurd (divides_of_answer hheight h).2 hdivides
    | ok evaluation => exact ⟨evaluation, rfl⟩

end

end LedgerFields.Formula
