import LedgerFields.Proofs.Formula.Evaluation.Division
import LedgerFields.Proofs.Report.View
import LedgerFields.Proofs.Table.Reachable

/-! Divisions by zero against a table. The look-ups of one operand make key indexes that the next
one finds, yet each operand has the value that it has by itself. -/

namespace LedgerFields.Report

open Formula

variable {keyColumn : String} {settings : Settings} {t : Table} {e : Expr}

/-- What the evaluation of an expression against a table comes to. -/
def answerOn (keyColumn : String) (settings : Settings) (t : Table) (e : Expr) :
    Except FormulaFault Evaluation :=
  ((e.evaluate (tableScope keyColumn settings)).run t).value.1

theorem answerOn_eq (ht : t.Sound) :
    answerOn keyColumn settings t = Expr.answer (t.view.scope keyColumn settings) :=
  funext fun e => (views_evaluateAt e 1).value_run ht

/-- An expression that keeps the limit ends in a division by zero just when it holds a division of
which both operands, each evaluated by itself, have a value and the divisor is zero; else it is
evaluated, however many of its terms have no value. So it is with every source of cells, and with
every table. -/
theorem evaluation_fails_when_divided (keyColumn : String)
    (hheight : e.height ≤ settings.maxDepth) :
    (∀ source : CellSource Id, e.FailsWhenDivided (Expr.answer ⟨source, keyColumn, settings⟩)) ∧
      ∀ t : Table, t.Reachable → e.FailsWhenDivided (answerOn keyColumn settings t) := by
  refine ⟨fun source => e.failsWhenDivided hheight, fun t ht => ?_⟩
  rw [answerOn_eq ht.sound]
  exact e.failsWhenDivided hheight

/-- A dividend without a value keeps its division from failing; the other division fails. -/
theorem evaluation_fails_when_divided_sample :
    let made : Table := ⟨["k", "v"].map Text.trim, #[], ["k", "v"].map fun _ => none⟩
    let t : Table := made.after [.push [.text "a", .number 2.5]]
    let absent : Expr := .binary .divide (.reference "v@b") (.literal 0)
    let present : Expr := .binary .divide (.reference "v@a") (.binary .subtract (.literal 2)
      (.literal 2))
    (∃ evaluation, answerOn "k" {} t absent = .ok evaluation) ∧
      answerOn "k" {} t (.binary .add absent present) = .error .divisionByZero ∧
      Expr.answer ⟨fun _ _ _ => .found (.number 2.5), "k", {}⟩ present =
        .error .divisionByZero := by
  intro made t absent present
  have ht : t.Reachable := Table.reachable_after (by simp) (by decide +kernel) _
  have hunknown : answerOn "k" {} t (.reference "v@b") =
      .ok ⟨none, [.unresolved "v@b" (.key "b" "k")]⟩ := rfl
  have hzero : (Number.roundHundredths (2 - 2) == 0.0) = true := by decide +kernel
  have hpresent {answer : Expr → Except FormulaFault Evaluation}
      (hdividend : answer (.reference "v@a") = .ok ⟨some 2.5, []⟩)
      (hdivisor : answer (.binary .subtract (.literal 2) (.literal 2)) =
        .ok ⟨some (Number.roundHundredths (2 - 2)), []⟩) :
      Expr.DividesByZero answer present :=
    ⟨_, _, _, _, _, _, .self, hdividend, hdivisor, hzero⟩
  refine ⟨?_, ?_, ?_⟩
  · refine ((evaluation_fails_when_divided "k" (by decide)).2 t ht).exists_ok ?_
    rintro ⟨_, _, x, _, _, _, hpart, hx, -⟩
    change Expr.IsPart _ (.binary .divide (.reference "v@b") (.literal 0)) at hpart
    cases hpart with
    | self =>
      rw [hunknown] at hx
      cases hx
    | left h => cases h
    | right h => cases h
  · refine ((evaluation_fails_when_divided "k" (by decide)).2 t ht).divisionByZero_iff.mpr ?_
    exact (hpresent rfl rfl).mono fun _ => .right
  · exact ((evaluation_fails_when_divided "k" (by decide)).1 _).divisionByZero_iff.mpr
      (hpresent rfl rfl)

end LedgerFields.Report
