import LedgerFields.Proofs.Formula.Acceptance
import LedgerFields.Proofs.Formula.Evaluation.Equations
import LedgerFields.Proofs.Stateful

/-! The depth of an evaluation. The height that is tracked while a formula is read is the depth that
its evaluation goes down to, so that an evaluation is too deep when the expression is too high. -/

namespace LedgerFields.Formula

/-- How an evaluation ends. It comes to an evaluation when `fits` and to a depth fault when not, but
a division by zero may end it before. -/
inductive Ends (limit : Nat) (fits : Prop) : Except FormulaFault Evaluation → Prop where
  | ok {evaluation : Evaluation} : fits → Ends limit fits (.ok evaluation)
  | tooDeep : ¬fits → Ends limit fits (.error (.tooDeep limit))
  | divisionByZero : Ends limit fits (.error .divisionByZero)

theorem Ends.error {limit : Nat} {fits fits' : Prop} {fault : FormulaFault}
    (h : Ends limit fits (.error fault)) (himp : fits' → fits) :
    Ends limit fits' (.error fault) := by
  cases h with
  | tooDeep hfits => exact .tooDeep (mt himp hfits)
  | divisionByZero => exact .divisionByZero

theorem BinaryOp.fault_of_apply {op : BinaryOp} {x y : Float} {fault : FormulaFault}
    (h : op.apply x y = .error fault) : fault = .divisionByZero := by
  cases op with
  | add | subtract | multiply => cases h
  | divide =>
    simp only [apply] at h
    split at h
    · cases h
      rfl
    · cases h

theorem Evaluation.fault_of_binary {op : BinaryOp} {left right : Evaluation} {fault : FormulaFault}
    (h : binary op left right = .error fault) : fault = .divisionByZero := by
  unfold binary at h
  split at h
  · next x y _ _ =>
    cases happly : op.apply x y with
    | error fault' =>
      rw [happly] at h
      cases h
      exact BinaryOp.fault_of_apply happly
    | ok value =>
      rw [happly] at h
      cases h
  · cases h

theorem Expr.height_pos (e : Expr) : 1 ≤ e.height := by
  induction e with
  | literal | reference => exact Nat.le_refl 1
  | signed _ operand ih => exact Nat.le_succ_of_le ih
  | binary _ left right ihl _ => exact Nat.le_trans ihl (Nat.le_max_left _ _)

section

variable {σ : Type}

/-- A computation that checks its depth first ends as it does without the check, if it never fits
beyond the limit. -/
theorem Ends.check {limit depth : Nat} {fits : Prop}
    {x : ExceptT FormulaFault (StateT σ Logged) Evaluation} (hfits : fits → depth ≤ limit)
    (hx : depth ≤ limit → Answers x (Ends limit fits)) :
    Answers (checkDepth limit depth >>= fun _ => x) (Ends limit fits) := by
  intro s
  unfold checkDepth
  by_cases h : limit < depth
  · rw [if_pos h]
    exact .tooDeep (mt hfits (Nat.not_le.mpr h))
  · rw [if_neg h]
    exact hx (Nat.not_lt.mp h) s

/-- An evaluation that starts at a depth goes down as many levels as the expression is high. -/
theorem Expr.ends_evaluateAt (scope : Scope (StateT σ Logged)) (e : Expr) (depth : Nat) :
    Answers (e.evaluateAt scope depth)
      (Ends scope.settings.maxDepth (depth + e.height ≤ scope.settings.maxDepth + 1)) := by
  induction e generalizing depth with
  | literal x =>
    rw [evaluateAt_literal, height]
    apply Ends.check Nat.le_of_succ_le_succ
    intro hdepth s
    exact .ok (Nat.succ_le_succ hdepth)
  | reference term =>
    rw [evaluateAt_reference, height]
    apply Ends.check Nat.le_of_succ_le_succ
    intro hdepth
    have hresolve : Answers (ExceptT.lift (scope.resolve term) :
        ExceptT FormulaFault (StateT σ Logged) _) fun result => result.isOk = true :=
      fun s => rfl
    refine hresolve.bind (fun fault h => (by cases h)) fun result _ s => ?_
    exact .ok (Nat.succ_le_succ hdepth)
  | signed sign operand ih =>
    rw [evaluateAt_signed, height]
    apply Ends.check
    · intro h
      have := operand.height_pos
      omega
    intro _
    refine (ih (depth + 1)).bind (fun fault h => h.error (by omega)) fun value h s => ?_
    cases h with
    | ok hfits => exact .ok (by omega)
  | binary op left right ihl ihr =>
    rw [evaluateAt_binary, height]
    refine (ihl depth).bind (fun fault h => h.error (by omega)) fun l hl => ?_
    refine (ihr (depth + 1)).bind (fun fault h => h.error (by omega)) fun r hr s => ?_
    cases hbinary : Evaluation.binary op l r with
    | error fault =>
      rw [Evaluation.fault_of_binary hbinary]
      exact .divisionByZero
    | ok evaluation =>
      cases hl with
      | ok hleft =>
        cases hr with
        | ok hright => exact .ok (by omega)

theorem Expr.ends_evaluate (scope : Scope (StateT σ Logged)) (e : Expr) (s : σ) :
    Ends scope.settings.maxDepth (e.height ≤ scope.settings.maxDepth)
      ((e.evaluate scope).run s).value.1 := by
  have h := e.ends_evaluateAt scope 1 s
  rwa [Nat.add_comm, Nat.add_le_add_iff_right] at h

/-- Under the limit zero every evaluation is too deep at once. -/
theorem Expr.evaluate_of_limit_zero {scope : Scope (StateT σ Logged)} {s : σ} (e : Expr)
    (h : scope.settings.maxDepth = 0) :
    ((e.evaluate scope).run s).value.1 = .error (.tooDeep 0) := by
  have hdepth : scope.settings.maxDepth < 1 := by omega
  unfold Expr.evaluate
  rw [e.evaluateAt_of_lt hdepth, h]
  rfl

end

/-- Tokens without an open parenthesis derive a leaf only when they are one term. -/
theorem Derives.eq_term_of_isLeaf {rule : Rule} {ts : List Token} {e : Expr}
    (h : Derives rule ts e) (hleaf : e.isLeaf = true)
    (hnests : OpenAtMost .leftParen .rightParen 0 ts) :
    ∃ text, ts = [.term text] ∧ e = (Operand.ofTerm text).expr := by
  induction h with
  | @literal text x hread => exact ⟨text, rfl, by simp [Operand.ofTerm, hread]⟩
  | @reference text hread => exact ⟨text, rfl, by simp [Operand.ofTerm, hread]⟩
  | group _ _ =>
    obtain ⟨hlimit, -⟩ := (openAtMost_opening_cons (by decide)).mp hnests
    cases hlimit
  | unsigned _ ih | factor _ ih | product _ ih => exact ih hleaf hnests
  | signed | multiplied | added => cases hleaf

/-- With the limit zero only a single term is read. -/
theorem eq_term_of_parse {settings : Settings} {formula : String} {e : Expr}
    (hlimit : settings.maxDepth = 0) (h : parse settings formula = .ok e) :
    ∃ text, Munches settings 1 (Text.dropBlanks formula).toList [⟨.term text, 1⟩] ∧
      e = (Operand.ofTerm text).expr := by
  obtain ⟨-, tokens, htokens, hread⟩ := parse_eq_ok.mp h
  obtain ⟨hderives, hnests, hfits⟩ := parseTokens_eq_ok.mp hread
  rw [hlimit] at hnests hfits
  have hleaf : e.isLeaf = true := by
    rcases hfits with hleaf | hheight
    · exact hleaf
    · have := e.height_pos
      omega
  obtain ⟨text, hts, he⟩ := hderives.eq_term_of_isLeaf hleaf hnests
  obtain ⟨placed, rfl, htext⟩ := List.map_eq_singleton_iff.mp hts
  have hmunches := tokenize_eq_ok.mp htokens
  obtain ⟨token, position⟩ := placed
  obtain rfl : token = .term text := htext
  obtain rfl : position = 1 := hmunches.position_eq
  exact ⟨text, hmunches, he⟩

/-- The height of an expression decides whether its evaluation is too deep: it is not when the
height keeps the limit, and when not the evaluation has no result and ends in this fault, unless it
divides by zero before. So a formula that has been read is never too deep under its own settings,
but for the limit zero, where only single terms are read and each of them is. -/
theorem evaluate_tooDeep_of_height {σ : Type} (scope : Scope (StateT σ Logged)) (s : σ) :
    (∀ e : Expr,
      (e.height ≤ scope.settings.maxDepth →
        ∀ limit, ((e.evaluate scope).run s).value.1 ≠ .error (.tooDeep limit)) ∧
      (scope.settings.maxDepth < e.height →
        ((e.evaluate scope).run s).value.1 = .error (.tooDeep scope.settings.maxDepth) ∨
        ((e.evaluate scope).run s).value.1 = .error .divisionByZero)) ∧
    ∀ formula e, parse scope.settings formula = .ok e →
      (1 ≤ scope.settings.maxDepth →
        ∀ limit, ((e.evaluate scope).run s).value.1 ≠ .error (.tooDeep limit)) ∧
      (scope.settings.maxDepth = 0 →
        (∃ text, Munches scope.settings 1 (Text.dropBlanks formula).toList [⟨.term text, 1⟩] ∧
          e = (Operand.ofTerm text).expr) ∧
        ((e.evaluate scope).run s).value.1 = .error (.tooDeep 0)) := by
  have hwithin (e : Expr) (hheight : e.height ≤ scope.settings.maxDepth) (limit : Nat) :
      ((e.evaluate scope).run s).value.1 ≠ .error (.tooDeep limit) := by
    intro h
    have hends := e.ends_evaluate scope s
    rw [h] at hends
    cases hends with
    | tooDeep hheight' => exact hheight' hheight
  refine ⟨fun e => ⟨hwithin e, fun hheight => ?_⟩, fun formula e hparse => ⟨?_, ?_⟩⟩
  · have hends := e.ends_evaluate scope s
    generalize ((e.evaluate scope).run s).value.1 = answer at hends
    cases hends with
    | ok hheight' => exact absurd hheight' (Nat.not_le.mpr hheight)
    | tooDeep _ => exact .inl rfl
    | divisionByZero => exact .inr rfl
  · intro hlimit
    obtain ⟨-, tokens, -, hread⟩ := parse_eq_ok.mp hparse
    refine hwithin e ?_
    rcases (parseTokens_eq_ok.mp hread).2.2 with hleaf | hheight
    · cases e with
      | literal | reference => exact hlimit
      | signed | binary => cases hleaf
    · exact hheight
  · intro hlimit
    obtain ⟨text, hmunches, he⟩ := eq_term_of_parse hlimit hparse
    refine ⟨⟨text, hmunches, he⟩, ?_⟩
    exact e.evaluate_of_limit_zero hlimit

theorem evaluate_tooDeep_of_height_sample :
    let source : CellSource (StateT Unit Logged) := fun _ _ _ => pure (.found (.number 4))
    let scope (limit : Nat) : Scope (StateT Unit Logged) :=
      { source, keyColumn := "id", settings := { maxDepth := limit } }
    let quotient : Expr := .binary .divide (.literal 5) (.literal 0)
    let high : Expr := .binary .subtract quotient (.signed .minus (.reference "fee@1"))
    high.height = 3 ∧
      (∀ limit, ((high.evaluate (scope 3)).run ()).value.1 ≠ .error (.tooDeep limit)) ∧
      (((high.evaluate (scope 2)).run ()).value.1 = .error (.tooDeep 2) ∨
        ((high.evaluate (scope 2)).run ()).value.1 = .error .divisionByZero) ∧
      (∀ limit, ((quotient.evaluate (scope 2)).run ()).value.1 ≠ .error (.tooDeep limit)) ∧
      (∃ text, Munches { maxDepth := 0 } 1 "fee@1".toList [⟨.term text, 1⟩] ∧
        .reference "fee@1" = (Operand.ofTerm text).expr) ∧
      (((Expr.reference "fee@1").evaluate (scope 0)).run ()).value.1 = .error (.tooDeep 0) := by
  intro source scope quotient high
  have hquotient : parse { maxDepth := 2 } "5/0" = .ok quotient := by decide +kernel
  have hfee : parse { maxDepth := 0 } "fee @ 1" = .ok (.reference "fee@1") := by decide +kernel
  obtain ⟨hfits, -⟩ := evaluate_tooDeep_of_height (scope 3) ()
  obtain ⟨hhigh, hread⟩ := evaluate_tooDeep_of_height (scope 2) ()
  obtain ⟨-, hterm⟩ := evaluate_tooDeep_of_height (scope 0) ()
  exact ⟨rfl, (hfits high).1 (Nat.le_refl 3), (hhigh high).2 (Nat.lt_succ_self 2),
    (hread _ _ hquotient).1 (by decide), (hterm _ _ hfee).2 rfl⟩

end LedgerFields.Formula
