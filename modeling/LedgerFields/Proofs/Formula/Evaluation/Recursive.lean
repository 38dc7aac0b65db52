import LedgerFields.Proofs.Formula.Evaluation.Equations

/-! Evaluation by plain recursion. The faults of terms are put into a list on the way, and are still
there when a formula fault ends the evaluation. A chain that is carried out step by step, with its
right operands kept until the leftmost one has been evaluated, comes to the same as the recursion
over the tree: the same value or formula fault, with the same faults in the list. -/

namespace LedgerFields.Formula

section

variable {m : Type → Type} [Monad m]

/-- Evaluates an expression that stands at a depth, operand by operand. -/
def Expr.collectPlainly (scope : Scope m) (e : Expr) (depth : Nat) :
    Collecting m (Option Float) := do
  checkDepth scope.settings.maxDepth depth
  match e with
  | .literal x => return some x
  | .reference term => scope.collect term
  | .signed sign operand => return (← operand.collectPlainly scope (depth + 1)).map sign.apply
  | .binary op left right =>
    let l ← left.collectPlainly scope depth
    let r ← right.collectPlainly scope (depth + 1)
    runSteps.liftExcept (op.applyBoth l r)

variable [LawfulMonad m] (scope : Scope m)

theorem checkDepth_twice {α : Type} (limit depth : Nat) (x : Collecting m α) :
    (checkDepth limit depth >>= fun _ => checkDepth limit depth >>= fun _ => x) =
      checkDepth limit depth >>= fun _ => x := by
  unfold checkDepth
  split
  · apply ExceptT.ext
    simp
  · simp

theorem Expr.checkDepth_collectPlainly (e : Expr) (depth : Nat) :
    (checkDepth scope.settings.maxDepth depth >>= fun _ => e.collectPlainly scope depth) =
      e.collectPlainly scope depth := by
  cases e <;> exact checkDepth_twice _ _ _

/-- The recursion checks the depth of a left operand again, which is that of its operation. -/
theorem Expr.collectAt_eq_collectPlainly (e : Expr) (depth : Nat) :
    e.collectAt scope depth = e.collectPlainly scope depth := by
  induction e generalizing depth with
  | literal x => rw [collectAt_literal, collectPlainly]
  | reference term => rw [collectAt_reference, collectPlainly]
  | signed sign operand ih => rw [collectAt_signed, collectPlainly, ih]
  | binary op left right ihl ihr =>
    calc (binary op left right).collectAt scope depth
      _ = left.collectPlainly scope depth >>= fun l =>
          right.collectPlainly scope (depth + 1) >>= fun r =>
            runSteps.liftExcept (op.applyBoth l r) := by
        simp only [collectAt_binary, ihl, ihr]
      _ = (checkDepth scope.settings.maxDepth depth >>= fun _ =>
          left.collectPlainly scope depth) >>= fun l =>
            right.collectPlainly scope (depth + 1) >>= fun r =>
              runSteps.liftExcept (op.applyBoth l r) := by
        rw [checkDepth_collectPlainly]
      _ = (binary op left right).collectPlainly scope depth := bind_assoc _ _ _

end

/-- The evaluation of chains is plain recursive evaluation: the same value or formula fault, and the
same faults of terms put into the list, also when a formula fault ends it. From the list that is
there an evaluation that comes to an end adds its own faults in their order. -/
theorem evaluateAt_eq_recursive {σ : Type} (scope : Scope (StateT σ Logged)) (e : Expr)
    (depth : Nat) :
    e.collectAt scope depth = e.collectPlainly scope depth ∧
      ∀ earlier, (e.collectPlainly scope depth).settle earlier =
        e.evaluateAt scope depth >>= fun evaluation =>
          pure (evaluation.value, earlier ++ evaluation.faults) := by
  refine ⟨e.collectAt_eq_collectPlainly scope depth, fun earlier => ?_⟩
  rw [← e.collectAt_eq_collectPlainly]
  exact e.settle_collectAt depth earlier

/-- The fault of the term that stands before the division is in the list. -/
example :
    let source : CellSource (StateT Unit Logged) := fun _ _ _ => pure (.found .empty)
    let scope : Scope (StateT Unit Logged) := { source, keyColumn := "id", settings := {} }
    let e : Expr := .binary .add (.reference "rate") (.binary .divide (.literal 1) (.literal 0))
    ((e.collectPlainly scope 1).run.run []).run () =
      ⟨((.error .divisionByZero, [.malformed "rate" '@']), ()), []⟩ := by
  rfl

end LedgerFields.Formula
