import LedgerFields.Proofs.Formula.Evaluation.Flexible
import LedgerFields.Proofs.Formula.Reading.Limit

/-! Evaluating under a greater limit. It is the same run, a depth fault apart: the same look-ups in
the same order, with the same answer. With what is known of reading, a formula that does not exceed
one limit has the same outcome under every greater one. -/

namespace LedgerFields.Formula

/-- The scope with the given limit. -/
def Scope.withLimit {m : Type → Type} (scope : Scope m) (limit : Nat) : Scope m :=
  { scope with settings := { scope.settings with maxDepth := limit } }

theorem agrees_parse {limit limit' : Nat} (hlimit : limit ≤ limit') (settings : Settings)
    (formula : String) :
    AgreesBelow limit (parse { settings with maxDepth := limit } formula)
      (parse { settings with maxDepth := limit' } formula) := by
  have hchars (c : Char) : Settings.isTermChar { settings with maxDepth := limit' } c =
      Settings.isTermChar { settings with maxDepth := limit } c := rfl
  have htokens (cs : List Char) : tokenize { settings with maxDepth := limit' } cs =
      tokenize { settings with maxDepth := limit } cs := tokensFrom_congr hchars 1 [] cs
  unfold parse
  generalize (Text.dropBlanks formula).toList = cs
  simp only [htokens]
  by_cases hcs : cs = []
  · rw [if_pos hcs, if_pos hcs]
    exact .refl _
  · rw [if_neg hcs, if_neg hcs]
    cases tokenize { settings with maxDepth := limit } cs with
    | error stray => exact .refl _
    | ok tokens => exact agrees_parseTokens hlimit tokens (cs.length + 1)

section

variable {σ α β : Type} {limit limit' : Nat}

/-- From any state, the run of `x` is that of `y`, unless it ends in the fault of a limit. -/
def RunsBelow (limit : Nat) (x y : ExceptT FormulaFault (StateT σ Logged) α) : Prop :=
  ∀ s, (x.run.run s).value.1 = .error (.tooDeep limit) ∨ x.run.run s = y.run.run s

namespace RunsBelow

theorem refl (x : ExceptT FormulaFault (StateT σ Logged) α) : RunsBelow limit x x :=
  fun _ => .inr rfl

theorem bind {x y : ExceptT FormulaFault (StateT σ Logged) α}
    {f g : α → ExceptT FormulaFault (StateT σ Logged) β} (h : RunsBelow limit x y)
    (hf : ∀ a, RunsBelow limit (f a) (g a)) : RunsBelow limit (x >>= f) (y >>= g) := by
  intro s
  rw [ExceptT.run_bind, StateT.run_bind, Logged.value_bind, ExceptT.run_bind, StateT.run_bind]
  rcases h s with htooDeep | heq
  · left
    rcases hx : (x.run.run s).value with ⟨result, t⟩
    rw [hx] at htooDeep
    obtain rfl : result = .error (.tooDeep limit) := htooDeep
    rfl
  · rw [← heq]
    rcases hx : x.run.run s with ⟨⟨result, t⟩, notices⟩
    cases result with
    | error fault => exact .inr rfl
    | ok a =>
      refine (hf a t).imp id fun hrun => ?_
      exact congrArg (⟨(a, t), notices⟩ >>= fun answer : α × σ => ·) hrun

theorem check (hlimit : limit ≤ limit') (depth : Nat) :
    RunsBelow (σ := σ) limit (checkDepth limit depth) (checkDepth limit' depth) := by
  intro s
  unfold checkDepth
  by_cases h : limit < depth
  · rw [if_pos h]
    exact .inl rfl
  · rw [if_neg h, if_neg (by omega)]
    exact .inr rfl

end RunsBelow

variable {scope : Scope (StateT σ Logged)}

theorem Expr.runsBelow (hlimit : limit ≤ limit') (e : Expr) (depth : Nat) :
    RunsBelow limit (e.evaluateAt (scope.withLimit limit) depth)
      (e.evaluateAt (scope.withLimit limit') depth) := by
  induction e generalizing depth with
  | literal x =>
    rw [evaluateAt_literal, evaluateAt_literal]
    exact (RunsBelow.check hlimit depth).bind fun _ => .refl _
  | reference term =>
    rw [evaluateAt_reference, evaluateAt_reference]
    exact (RunsBelow.check hlimit depth).bind fun _ => .refl _
  | signed sign operand ih =>
    rw [evaluateAt_signed, evaluateAt_signed]
    exact (RunsBelow.check hlimit depth).bind fun _ => (ih _).bind fun _ => .refl _
  | binary op left right ihl ihr =>
    rw [evaluateAt_binary, evaluateAt_binary]
    exact (ihl depth).bind fun l => (ihr (depth + 1)).bind fun r => .refl _

end

/-- Raising the limit only removes depth faults. A formula that is read without one is read to the
same tree or the same fault under every greater limit; and when its evaluation has no depth fault
either, the whole computation is the same, with the same look-ups and notices and the same outcome.
-/
theorem same_outcome_of_limit_le {σ : Type} (scope : Scope (StateT σ Logged)) (formula : String)
    {limit limit' : Nat} (hlimit : limit ≤ limit')
    (hread : ∀ l, parse (scope.withLimit limit).settings formula ≠ .error (.tooDeep l)) :
    parse (scope.withLimit limit').settings formula =
      parse (scope.withLimit limit).settings formula ∧
    ∀ s, (∀ e, parse (scope.withLimit limit).settings formula = .ok e →
        ∀ l, ((e.evaluate (scope.withLimit limit)).run s).value.1 ≠ .error (.tooDeep l)) →
      (compute (scope.withLimit limit') formula).run s =
        (compute (scope.withLimit limit) formula).run s := by
  have hparse : parse (scope.withLimit limit).settings formula =
      parse (scope.withLimit limit').settings formula :=
    (agrees_parse hlimit scope.settings formula).resolve_left (hread limit)
  refine ⟨hparse.symm, fun s hevaluate => ?_⟩
  rw [compute_eq, compute_eq]
  cases hresult : parse (scope.withLimit limit).settings formula with
  | error fault =>
    rw [attempt_of_parse_error hresult, attempt_of_parse_error (hparse.symm.trans hresult)]
  | ok e =>
    have hrun : (e.evaluate (scope.withLimit limit)).run s =
        (e.evaluate (scope.withLimit limit')).run s :=
      (e.runsBelow hlimit 1 s).resolve_left (hevaluate e hresult limit)
    rw [attempt_of_parse hresult, attempt_of_parse (hparse.symm.trans hresult), StateT.run_map,
      StateT.run_map, hrun]

/-- The formula has the height and the nesting that the lesser limit allows. -/
theorem same_outcome_of_limit_le_sample :
    let source : CellSource (StateT Unit Logged) := fun column _ _ =>
      pure (.found (if column = "fee" then .number 2.5 else .empty))
    let scope : Scope (StateT Unit Logged) := { source, keyColumn := "id", settings := {} }
    parse { maxDepth := 9 } "1-(-fee@1/tax@2)" = parse { maxDepth := 3 } "1-(-fee@1/tax@2)" ∧
      (compute (scope.withLimit 9) "1-(-fee@1/tax@2)").run () =
        (compute (scope.withLimit 3) "1-(-fee@1/tax@2)").run () := by
  intro source scope
  let e : Expr := .binary .subtract (.literal 1)
    (.binary .divide (.signed .minus (.reference "fee@1")) (.reference "tax@2"))
  have hparse : parse (scope.withLimit 3).settings "1-(-fee@1/tax@2)" = .ok e := by decide +kernel
  have hrun : ((e.evaluate (scope.withLimit 3)).run ()).value.1 =
      .ok ⟨none, [.nonNumeric "tax@2" .empty]⟩ := rfl
  obtain ⟨hsame, hcompute⟩ := same_outcome_of_limit_le scope "1-(-fee@1/tax@2)"
    (show 3 ≤ 9 by decide) (fun l h => by rw [hparse] at h; cases h)
  refine ⟨hsame, hcompute () fun e' he' l h => ?_⟩
  obtain rfl := Except.ok.inj (hparse.symm.trans he')
  rw [hrun] at h
  cases h

end LedgerFields.Formula
