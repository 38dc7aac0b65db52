import LedgerFields.Proofs.Formula.Evaluation.Flexible

/-! Formulas on sources that give their terms the same values. What a source shows of a term without
a value is seen in the message only: whether there is a value, and which, depends on the values of
the terms alone. -/

namespace LedgerFields.Formula

/-- Evaluations end in the same fault or with the same value, if they have one. -/
inductive SameValue : Except FormulaFault Evaluation → Except FormulaFault Evaluation → Prop
  | fault {fault : FormulaFault} : SameValue (.error fault) (.error fault)
  | ok {a b : Evaluation} : a.value = b.value → a.Settled → b.Settled → SameValue (.ok a) (.ok b)

namespace SameValue

variable {x y : Except FormulaFault Evaluation}
  {f g : Evaluation → Except FormulaFault Evaluation}

theorem bind (h : SameValue x y)
    (hfg : ∀ a b, a.value = b.value → a.Settled → b.Settled → SameValue (f a) (g b)) :
    SameValue (x >>= f) (y >>= g) := by
  cases h with
  | fault => exact .fault
  | ok hvalue ha hb => exact hfg _ _ hvalue ha hb

theorem ofTerm {first second : Except TermFault Float} (h : first.toOption = second.toOption) :
    SameValue (.ok (.ofTerm first)) (.ok (.ofTerm second)) := by
  refine .ok ?_ (Evaluation.settled_ofTerm _) (Evaluation.settled_ofTerm _)
  cases first <;> cases second <;> exact h

/-- An operation does with the same operands the same. -/
theorem binary (op : BinaryOp) {a a' b b' : Evaluation} (ha : a.value = a'.value)
    (hb : b.value = b'.value) (hsettled : a.Settled ∧ a'.Settled)
    (hsettled' : b.Settled ∧ b'.Settled) :
    SameValue (Evaluation.binary op a b) (Evaluation.binary op a' b') := by
  have hsame {c c' : Evaluation} (hvalue : c.value = c'.value)
      (h : Evaluation.binary op a b = .ok c) (h' : Evaluation.binary op a' b' = .ok c') :
      SameValue (Evaluation.binary op a b) (Evaluation.binary op a' b') := by
    rw [h, h']
    exact .ok hvalue (Evaluation.settled_of_binary hsettled.1 hsettled'.1 h)
      (Evaluation.settled_of_binary hsettled.2 hsettled'.2 h')
  by_cases hnone : a.value = none ∨ b.value = none
  · have hnone' : a'.value = none ∨ b'.value = none := by rwa [← ha, ← hb]
    refine hsame ?_ (Evaluation.value_of_binary_eq_none hnone)
      (Evaluation.value_of_binary_eq_none hnone')
    rfl
  · obtain ⟨hx, hy⟩ := not_or.mp hnone
    obtain ⟨x, hx⟩ := Option.ne_none_iff_exists'.mp hx
    obtain ⟨y, hy⟩ := Option.ne_none_iff_exists'.mp hy
    have h : Evaluation.binary op a b = _ := Evaluation.binary_of_values hx hy
    have h' : Evaluation.binary op a' b' = _ :=
      Evaluation.binary_of_values (ha.symm.trans hx) (hb.symm.trans hy)
    cases hz : op.apply x y with
    | error fault =>
      rw [h, h', hz]
      exact .fault
    | ok z =>
      rw [hz] at h h'
      refine hsame ?_ h h'
      rfl

/-- Outcomes of such evaluations have the same value. -/
theorem value?_outcomeOf (h : SameValue x y) : (outcomeOf x).value? = (outcomeOf y).value? := by
  cases h with
  | fault => rfl
  | ok hvalue ha hb =>
    have ha' := Evaluation.Settled.value?_outcome ha
    have hb' := Evaluation.Settled.value?_outcome hb
    exact ha'.trans (hvalue.trans hb'.symm)

end SameValue

/-- An expression has the same value where its terms have the same values. -/
theorem sameValue_evaluateAt {scope scope' : Scope Id}
    (hsettings : scope'.settings = scope.settings)
    (hresolve : ∀ term, (scope'.resolve term : Except TermFault Float).toOption =
      (scope.resolve term : Except TermFault Float).toOption) (e : Expr) (depth : Nat) :
    SameValue (Id.run (e.evaluateAt scope' depth).run) (Id.run (e.evaluateAt scope depth).run) := by
  have hcheck {x y : ExceptT FormulaFault Id Evaluation} (depth : Nat)
      (h : SameValue (Id.run x.run) (Id.run y.run)) :
      SameValue (Id.run (checkDepth scope'.settings.maxDepth depth >>= fun _ => x).run)
        (Id.run (checkDepth scope.settings.maxDepth depth >>= fun _ => y).run) := by
    rw [hsettings]
    unfold checkDepth
    split
    · exact .fault
    · exact h
  induction e generalizing depth with
  | literal x =>
    rw [Expr.evaluateAt_literal, Expr.evaluateAt_literal]
    refine hcheck depth (.ok rfl ?_ ?_) <;> simp [Evaluation.Settled]
  | reference term =>
    rw [Expr.evaluateAt_reference, Expr.evaluateAt_reference]
    exact hcheck depth (.ofTerm (hresolve term))
  | signed sign operand ih =>
    rw [Expr.evaluateAt_signed, Expr.evaluateAt_signed]
    refine hcheck depth ?_
    rw [run_bind_id, run_bind_id]
    refine (ih (depth + 1)).bind fun a b hvalue ha hb => ?_
    exact .ok (congrArg (Option.map sign.apply) hvalue) (ha.signed sign) (hb.signed sign)
  | binary op left right ihl ihr =>
    rw [Expr.evaluateAt_binary, Expr.evaluateAt_binary, run_bind_id, run_bind_id]
    refine (ihl depth).bind fun l l' hl hsettled hsettled' => ?_
    rw [run_bind_id, run_bind_id]
    refine (ihr (depth + 1)).bind fun r r' hr hright hright' => ?_
    exact .binary op hl hr ⟨hsettled, hsettled'⟩ ⟨hright, hright'⟩

/-- A formula has the same value where its terms have the same values. -/
theorem value?_compute_congr {scope scope' : Scope Id}
    (hsettings : scope'.settings = scope.settings)
    (hresolve : ∀ term, (scope'.resolve term : Except TermFault Float).toOption =
      (scope.resolve term : Except TermFault Float).toOption) (formula : String) :
    (compute scope' formula : Outcome).value? = (compute scope formula : Outcome).value? := by
  have hattempt : SameValue (Id.run (attempt scope' formula)) (Id.run (attempt scope formula)) := by
    unfold attempt
    rw [hsettings]
    cases parse scope.settings formula with
    | error fault => exact .fault
    | ok e => exact sameValue_evaluateAt hsettings hresolve e 1
  rw [compute_eq, compute_eq]
  exact hattempt.value?_outcomeOf

end LedgerFields.Formula
