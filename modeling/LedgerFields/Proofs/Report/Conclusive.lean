import LedgerFields.Proofs.Formula.Messages
import LedgerFields.Proofs.Report.View

/-! Every computed field has a value or says why it has none. A formula says so by the faults of its
terms, of which there is one at least when the value is absent, or by the one fault that has ended
it; a field that is computed from cells says so by the condition that it fails. -/

namespace LedgerFields

/-- An outcome shows one of its value and its message, and no message is empty. -/
structure Outcome.Conclusive (outcome : Outcome) : Prop where
  one : Xor (outcome.value?.isSome = true) (outcome.message?.isSome = true)
  message_ne_empty : ∀ message, outcome.message? = some message → message ≠ ""

theorem Outcome.Conclusive.value (x : Float) : (Outcome.value x).Conclusive := by
  refine ⟨.inl ⟨rfl, ?_⟩, ?_⟩
  · exact Bool.false_ne_true
  · intro message h
    cases h

theorem Outcome.Conclusive.failure {message : String} (h : message ≠ "") :
    (Outcome.failure message).Conclusive := by
  refine ⟨.inr ⟨rfl, ?_⟩, ?_⟩
  · exact Bool.false_ne_true
  · intro shown hshown
    cases hshown
    exact h

namespace Formula

/-- The value of an evaluation whose terms have no fault, or all their faults. -/
inductive Evaluation.ShownBy (evaluation : Evaluation) : Outcome → Prop
  | value {x : Float} : evaluation.faults = [] → evaluation.value = some x →
      ShownBy evaluation (.value x)
  | faults : evaluation.faults ≠ [] → evaluation.value = none →
      ShownBy evaluation (.failure (faultLines evaluation.faults))

theorem Evaluation.shownBy_outcome {evaluation : Evaluation} (h : evaluation.Settled) :
    evaluation.ShownBy evaluation.outcome := by
  cases hvalue : evaluation.value with
  | none =>
    rw [outcome_of_none hvalue]
    exact .faults (h.faults_ne_nil hvalue) hvalue
  | some x =>
    rw [outcome_of_value h hvalue]
    exact .value (h.mp (by rw [hvalue]; rfl)) hvalue

theorem Evaluation.ShownBy.conclusive {evaluation : Evaluation} {outcome : Outcome}
    (h : evaluation.ShownBy outcome) : outcome.Conclusive := by
  cases h with
  | value _ _ => exact .value _
  | faults hfaults _ => exact .failure (faultLines_ne_empty hfaults)

variable {σ : Type}

theorem conclusive_compute (scope : Scope (StateT σ Logged)) (formula : String) (s : σ) :
    ((compute scope formula).run s).value.1.Conclusive := by
  rw [run_compute]
  cases hresult : ((attempt scope formula).run s).value.1 with
  | error fault => exact .failure fault.report_ne_empty
  | ok evaluation =>
    exact (Evaluation.shownBy_outcome (settled_of_attempt hresult)).conclusive

end Formula

namespace Report

/-! ### Fields that are computed from cells directly -/

/-- From whatever table the computation starts, its outcome is conclusive. -/
def Concludes (x : TableM Outcome) : Prop := ∀ t, (x.run t).value.1.Conclusive

namespace Concludes

theorem pure {outcome : Outcome} (h : outcome.Conclusive) : Concludes (pure outcome) := fun _ => h

theorem bind {α : Type} {x : TableM α} {f : α → TableM Outcome} (h : ∀ a, Concludes (f a)) :
    Concludes (x >>= f) := by
  intro t
  rw [StateT.run_bind, Logged.value_bind]
  exact h _ _

/-- A computation that gives an outcome at once under a condition. -/
theorem guard {x : TableM Outcome} {c : Prop} [Decidable c] {outcome : Outcome}
    (houtcome : outcome.Conclusive) (hx : Concludes x) :
    Concludes (if c then Pure.pure outcome else x) := by
  split
  · exact .pure houtcome
  · exact hx

end Concludes

theorem conclusive_blankSettings (settings : List String) :
    (blankSettings settings).Conclusive :=
  .failure (by simp +decide)

theorem conclusive_columnsMissing (keyColumn valueColumn : String) :
    (columnsMissing keyColumn valueColumn).Conclusive :=
  .failure (by simp +decide)

theorem conclusive_termColumnsMissing (keyColumn : String) (first second : Term) :
    (termColumnsMissing keyColumn first second).Conclusive :=
  .failure (by simp +decide)

theorem conclusive_mismatch (content : FieldContent) (procedure : Procedure) :
    (mismatch content procedure).Conclusive :=
  .failure (by simp +decide)

theorem conclusive_cellOutcome (keyColumn code column : String) (answer : Lookup) :
    (cellOutcome keyColumn code column answer).Conclusive := by
  unfold cellOutcome
  split
  case h_2 => exact .value _
  all_goals exact .failure (by simp +decide)

theorem conclusive_sumOfFound (codes : List String) (keyColumn valueColumn : String)
    (answers : List Lookup) : (sumOfFound codes keyColumn valueColumn answers).Conclusive := by
  unfold sumOfFound
  dsimp only
  split_ifs
  case neg => exact .value _
  all_goals exact .failure (by simp +decide)

theorem conclusive_differenceOfFound (keyColumn : String) (first second : Term) (x y : Lookup) :
    (differenceOfFound keyColumn first second x y).Conclusive := by
  unfold differenceOfFound
  split
  case h_1 => exact .value _
  case h_2 =>
    dsimp only
    split <;> exact .failure (by simp +decide)
  case h_3 => exact .failure (by simp +decide)

theorem concludes_singleCell (keyColumn accountCode valueColumn : String) :
    Concludes (singleCell keyColumn accountCode valueColumn) := by
  refine .guard (conclusive_blankSettings _) ?_
  refine .bind fun t => .guard (conclusive_columnsMissing _ _) ?_
  exact .bind fun answer => .pure (conclusive_cellOutcome _ _ _ _)

theorem concludes_sumOfRows (keyColumn accountCodes valueColumn : String) (separator : Char) :
    Concludes (sumOfRows keyColumn accountCodes valueColumn separator) := by
  refine .guard (conclusive_blankSettings _) (.guard (.failure (by decide)) ?_)
  refine .bind fun t => .guard (conclusive_columnsMissing _ _) ?_
  exact .bind fun answers => .pure (conclusive_sumOfFound _ _ _ _)

theorem concludes_difference (keyColumn accountCodes valueColumns : String) (separator : Char) :
    Concludes (difference keyColumn accountCodes valueColumns separator) := by
  refine .guard (conclusive_blankSettings _) (.guard (.failure (by decide))
    (.guard (.failure (by decide)) ?_))
  refine .bind fun t => .guard (conclusive_termColumnsMissing _ _ _) ?_
  exact .bind fun x => .bind fun y => .pure (conclusive_differenceOfFound _ _ _ _ _)

open Formula

theorem concludes_computeField (options : Options) (procedure : Procedure) (field : Field) :
    Concludes (computeField options procedure field) := by
  obtain ⟨id, keyColumn, content⟩ := field
  cases content with
  | formula text =>
    cases procedure with
    | formula | flexibleFormula => exact conclusive_compute _ text
    | singleCell | sumOfRows | difference => exact .pure (conclusive_mismatch _ _)
  | cells codes columns =>
    cases procedure with
    | singleCell => exact concludes_singleCell _ _ _
    | sumOfRows => exact concludes_sumOfRows _ _ _ _
    | difference => exact concludes_difference _ _ _ _
    | formula | flexibleFormula => exact .pure (conclusive_mismatch _ _)

/-- A field that is computed, by its own procedure or another one, on any table, has exactly one of
a value and a message, which is not empty. So has a formula with every source of cells: what ends
its evaluation is its message; and an evaluation that comes to its end has a value and no faults, or
at least one fault, and then all of them are its message. -/
theorem computed_has_value_or_message :
    (∀ options procedure field t,
      ((computeField options procedure field).run t).value.1.Conclusive) ∧
    ∀ (σ : Type) (scope : Scope (StateT σ Logged)) (formula : String) (s : σ),
      let outcome := ((compute scope formula).run s).value.1
      let result := ((attempt scope formula).run s).value.1
      outcome.Conclusive ∧
        (∀ fault, result = .error fault → outcome = .failure fault.report) ∧
        ∀ evaluation, result = .ok evaluation → evaluation.ShownBy outcome := by
  refine ⟨concludes_computeField, fun σ scope formula s => ?_⟩
  intro outcome result
  have houtcome : outcome = outcomeOf result := run_compute scope formula s
  refine ⟨conclusive_compute scope formula s, fun fault h => ?_, fun evaluation h => ?_⟩
  · rw [houtcome, h]
    rfl
  · rw [houtcome, h]
    exact Evaluation.shownBy_outcome (settled_of_attempt h)

/-- Both faults of a formula without a value, the fault that ends a division, and a field with the
settings of another procedure. -/
theorem value_or_message_sample :
    let source : CellSource (StateT Unit Logged) := fun column _ _ =>
      pure (.found (if column = "fee" then .number 2.5 else .empty))
    let scope : Scope (StateT Unit Logged) := { source, keyColumn := "id", settings := {} }
    let faults : List TermFault := [.nonNumeric "tax@1" .empty, .malformed "rate" '@']
    ((compute scope "fee@1+tax@1*rate").run ()).value.1 = .failure (faultLines faults) ∧
      ((compute scope "fee@1/0").run ()).value.1 =
        .failure FormulaFault.divisionByZero.report ∧
      ∀ t, ((computeField {} .sumOfRows ⟨.null, "id", .formula "fee@1"⟩).run
        t).value.1.Conclusive := by
  intro source scope faults
  obtain ⟨hfield, hformula⟩ := computed_has_value_or_message
  refine ⟨?_, ?_, fun t => hfield _ _ _ t⟩
  · have hparse : parse scope.settings "fee@1+tax@1*rate" = .ok (.binary .add (.reference "fee@1")
        (.binary .multiply (.reference "tax@1") (.reference "rate"))) := by decide +kernel
    have hresult : ((attempt scope "fee@1+tax@1*rate").run ()).value.1 = .ok ⟨none, faults⟩ := by
      rw [attempt_of_parse hparse]
      rfl
    have hshown := (hformula Unit scope "fee@1+tax@1*rate" ()).2.2 _ hresult
    generalize ((compute scope "fee@1+tax@1*rate").run ()).value.1 = outcome at hshown
    cases hshown with
    | value hnone _ => cases hnone
    | faults _ _ => rfl
  · have hparse : parse scope.settings "fee@1/0" =
        .ok (.binary .divide (.reference "fee@1") (.literal 0)) := by decide +kernel
    have hresult : ((attempt scope "fee@1/0").run ()).value.1 = .error .divisionByZero := by
      rw [attempt_of_parse hparse]
      exact errorOf?_eq_some.mp (by decide +kernel)
    exact (hformula Unit scope "fee@1/0" ()).2.1 _ hresult

end Report

end LedgerFields
