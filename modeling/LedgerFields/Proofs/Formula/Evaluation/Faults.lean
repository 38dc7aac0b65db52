import LedgerFields.Proofs.Formula.Evaluation.Equations
import LedgerFields.Proofs.Formula.Leaves
import LedgerFields.Proofs.Stateful

/-! The faults of an evaluation. They are those that its terms have when they are resolved one after
the other, and there is a value when there are none. -/

namespace LedgerFields.Formula

/-- The fault of a term that could not be resolved. -/
def fault? : Except TermFault Float → Option TermFault
  | .ok _ => none
  | .error fault => some fault

/-- Resolves terms one after the other and keeps the fault of each that has one. -/
def Scope.faults {m : Type → Type} [Monad m] (scope : Scope m) (terms : List String) :
    m (List TermFault) := do
  let results ← terms.mapM scope.resolve
  return results.filterMap fault?

namespace Evaluation

/-- A value is there exactly when no term has a fault. -/
def Settled (evaluation : Evaluation) : Prop :=
  evaluation.value.isSome = true ↔ evaluation.faults = []

theorem settled_ofTerm (result : Except TermFault Float) : (ofTerm result).Settled := by
  cases result <;> simp [ofTerm, Settled]

theorem Settled.signed {operand : Evaluation} (h : operand.Settled) (sign : Sign) :
    (operand.signed sign).Settled := by
  simpa [Settled, Evaluation.signed] using h

theorem value_ofTerm (result : Except TermFault Float) :
    (ofTerm result).value = result.toOption := by
  cases result <;> rfl

theorem faults_ofTerm (result : Except TermFault Float) :
    (ofTerm result).faults = (fault? result).toList := by
  cases result <;> rfl

/-- An operation keeps the faults of its operands, those of the left one first. -/
theorem faults_of_binary {op : BinaryOp} {left right evaluation : Evaluation}
    (h : binary op left right = .ok evaluation) :
    evaluation.faults = left.faults ++ right.faults := by
  unfold binary at h
  split at h
  · obtain ⟨value, _, hvalue⟩ := bind_eq_ok.mp h
    cases hvalue
    rfl
  · cases h
    rfl

/-- An operation that is carried out has a value when both operands have one. -/
theorem settled_of_binary {op : BinaryOp} {left right evaluation : Evaluation}
    (hleft : left.Settled) (hright : right.Settled)
    (h : binary op left right = .ok evaluation) : evaluation.Settled := by
  have hvalue : evaluation.value.isSome = (left.value.isSome && right.value.isSome) := by
    unfold binary at h
    cases hl : left.value <;> cases hr : right.value <;> simp only [hl, hr] at h
    · cases h; rfl
    · cases h; rfl
    · cases h; rfl
    · obtain ⟨value, _, hvalue⟩ := bind_eq_ok.mp h
      cases hvalue
      rfl
  rw [Settled, hvalue, faults_of_binary h, Bool.and_eq_true, List.append_eq_nil_iff]
  exact and_congr hleft hright

end Evaluation

section

variable {σ : Type} {scope : Scope (StateT σ Logged)} {s s' : σ} {notices : List Notice}

theorem Scope.run_faults_singleton {term : String} {result : Except TermFault Float}
    (h : (scope.resolve term).run s = ⟨(result, s'), notices⟩) :
    (scope.faults [term]).run s = ⟨((fault? result).toList, s'), notices⟩ := by
  have hfaults : scope.faults [term] = scope.resolve term >>= fun result =>
      pure (fault? result).toList := by
    simp only [faults, List.mapM_cons, List.mapM_nil, bind_assoc, pure_bind]
    refine bind_congr fun result => ?_
    cases result <;> rfl
  rw [hfaults]
  exact run_bind_eq.mpr ⟨_, _, _, _, h, run_pure_eq.mpr ⟨rfl, rfl, rfl⟩, by simp⟩

/-- Terms are resolved in two parts by resolving the second part where the first one ends. -/
theorem Scope.run_faults_append {xs ys : List String} {t : σ} {as bs : List TermFault}
    {earlier later : List Notice} (hxs : (scope.faults xs).run s = ⟨(as, t), earlier⟩)
    (hys : (scope.faults ys).run t = ⟨(bs, s'), later⟩) :
    (scope.faults (xs ++ ys)).run s = ⟨(as ++ bs, s'), earlier ++ later⟩ := by
  have hfaults : scope.faults (xs ++ ys) = scope.faults xs >>= fun as =>
      scope.faults ys >>= fun bs => pure (as ++ bs) := by
    simp [faults, List.mapM_append]
  rw [hfaults]
  refine run_bind_eq.mpr ⟨_, _, _, _, hxs, ?_, rfl⟩
  exact run_bind_eq.mpr ⟨_, _, _, _, hys, run_pure_eq.mpr ⟨rfl, rfl, rfl⟩, by simp⟩

theorem run_checkDepth_eq_ok {limit depth : Nat} {u : PUnit}
    (h : (checkDepth limit depth : ExceptT FormulaFault (StateT σ Logged) PUnit).run.run s =
      ⟨(.ok u, s'), notices⟩) : s = s' ∧ notices = [] := by
  unfold checkDepth at h
  split at h
  · cases (run_pure_eq.mp h).1
  · exact (run_pure_eq.mp h).2

/-- An evaluation that is not ended by a fault looks the terms of the expression up from left to
right, once each, and keeps the fault of each that has one. -/
theorem Expr.faults_of_evaluateAt {e : Expr} {depth : Nat} {evaluation : Evaluation}
    (h : (e.evaluateAt scope depth).run.run s = ⟨(.ok evaluation, s'), notices⟩) :
    (scope.faults e.references).run s = ⟨(evaluation.faults, s'), notices⟩ ∧
      evaluation.Settled := by
  induction e generalizing depth evaluation s s' notices with
  | literal x =>
    rw [evaluateAt_literal] at h
    obtain ⟨_, _, _, _, hcheck, hvalue, rfl⟩ := run_bind_eq_ok.mp h
    obtain ⟨rfl, rfl⟩ := run_checkDepth_eq_ok hcheck
    cases hvalue
    exact ⟨rfl, by simp [Evaluation.Settled]⟩
  | reference term =>
    rw [evaluateAt_reference] at h
    obtain ⟨_, _, _, _, hcheck, hvalue, rfl⟩ := run_bind_eq_ok.mp h
    obtain ⟨rfl, rfl⟩ := run_checkDepth_eq_ok hcheck
    obtain ⟨result, _, _, _, hresolve, hpure, rfl⟩ := run_bind_eq_ok.mp hvalue
    obtain ⟨hterm, rfl, rfl⟩ := run_pure_eq.mp hpure
    cases hterm
    refine ⟨?_, Evaluation.settled_ofTerm result⟩
    rw [List.nil_append, List.append_nil, Evaluation.faults_ofTerm]
    exact Scope.run_faults_singleton (run_lift_eq_ok.mp hresolve)
  | signed sign operand ih =>
    rw [evaluateAt_signed] at h
    obtain ⟨_, _, _, _, hcheck, hvalue, rfl⟩ := run_bind_eq_ok.mp h
    obtain ⟨rfl, rfl⟩ := run_checkDepth_eq_ok hcheck
    obtain ⟨value, _, _, _, hoperand, hsigned, rfl⟩ := run_bind_eq_ok.mp hvalue
    cases hsigned
    obtain ⟨hfaults, hsettled⟩ := ih hoperand
    refine ⟨?_, hsettled.signed sign⟩
    rw [List.nil_append, List.append_nil]
    exact hfaults
  | binary op left right ihl ihr =>
    rw [evaluateAt_binary] at h
    obtain ⟨l, _, _, _, hl, hvalue, rfl⟩ := run_bind_eq_ok.mp h
    obtain ⟨r, _, _, _, hr, hbinary, rfl⟩ := run_bind_eq_ok.mp hvalue
    obtain ⟨hop, rfl, rfl⟩ := run_pure_eq.mp hbinary
    obtain ⟨hlFaults, hlSettled⟩ := ihl hl
    obtain ⟨hrFaults, hrSettled⟩ := ihr hr
    refine ⟨?_, Evaluation.settled_of_binary hlSettled hrSettled hop⟩
    rw [Evaluation.faults_of_binary hop, List.append_nil]
    exact Scope.run_faults_append hlFaults hrFaults

end

/-- An evaluation that is not ended by a fault has exactly the faults that the references of the
expression have when they are resolved one after the other, and it has a value exactly when there
are none. The references of an expression that has been read are the terms of the formula that are
no numerals, from left to right. -/
theorem evaluate_keeps_faults {σ : Type} (scope : Scope (StateT σ Logged)) (e : Expr) (s : σ) :
    (∀ evaluation s' notices, (e.evaluate scope).run s = ⟨(.ok evaluation, s'), notices⟩ →
      (scope.faults e.references).run s = ⟨(evaluation.faults, s'), notices⟩ ∧
        (evaluation.value.isSome = true ↔ evaluation.faults = [])) ∧
    (∀ formula, parse scope.settings formula = .ok e →
      ∃ tokens, Munches scope.settings 1 (Text.dropBlanks formula).toList tokens ∧
        e.references = (tokens.map Placed.token).filterMap Token.reference?) :=
  ⟨fun _ _ _ h => e.faults_of_evaluateAt h, fun _ h => references_of_parse h⟩

theorem evaluate_keeps_faults_sample :
    let source : CellSource (StateT Unit Logged) := fun column _ _ =>
      pure (.found (if column = "fee" then .number 2.5 else .empty))
    let scope : Scope (StateT Unit Logged) := { source, keyColumn := "id", settings := {} }
    let e : Expr := .binary .add (.reference "fee@1")
      (.binary .multiply (.reference "tax@1") (.reference "rate"))
    (scope.faults e.references).run () =
        ⟨([.nonNumeric "tax@1" .empty, .malformed "rate" '@'], ()), []⟩ ∧
      ∃ tokens, Munches {} 1 "fee@1+tax@1*rate".toList tokens ∧
        e.references = (tokens.map Placed.token).filterMap Token.reference? := by
  intro source scope e
  obtain ⟨hevaluate, hparse⟩ := evaluate_keeps_faults scope e ()
  have hrun : (e.evaluate scope).run () =
      ⟨(.ok ⟨none, [.nonNumeric "tax@1" .empty, .malformed "rate" '@']⟩, ()), []⟩ := rfl
  exact ⟨(hevaluate _ _ _ hrun).1, hparse "fee@1 + tax@1*rate" (by decide +kernel)⟩

end LedgerFields.Formula
