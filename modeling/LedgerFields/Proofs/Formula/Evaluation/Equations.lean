import LedgerFields.Formula.Evaluate

/-! Evaluation by its parts. The steps of a chain are kept in a list while its left operands are
gone down; to evaluate the left operand and then carry the steps out is the same. What is collected
comes after the faults that are in the list before. So the evaluation of an expression has one
equation for each form of expression, and the resolution of a term one for each form of term. -/

namespace LedgerFields.Formula

namespace Evaluation

/-- The evaluation of a term with this value or fault. -/
def ofTerm : Except TermFault Float → Evaluation
  | .ok x => ⟨some x, []⟩
  | .error fault => ⟨none, [fault]⟩

/-- The evaluation of a signed operand. -/
def signed (sign : Sign) (operand : Evaluation) : Evaluation :=
  { operand with value := operand.value.map sign.apply }

/-- The evaluation of an operation on two operands. It is carried out when both have a value. -/
def binary (op : BinaryOp) (left right : Evaluation) : Except FormulaFault Evaluation :=
  match left.value, right.value with
  | some x, some y => do
    let value ← op.apply x y
    return ⟨some value, left.faults ++ right.faults⟩
  | _, _ => .ok ⟨none, left.faults ++ right.faults⟩

/-- An operation on two evaluations is carried out on their values. -/
theorem binary_eq (op : BinaryOp) (left right : Evaluation) :
    binary op left right =
      (op.applyBoth left.value right.value).map (⟨·, left.faults ++ right.faults⟩) := by
  rcases left with ⟨_ | x, faults⟩
  · rfl
  rcases right with ⟨_ | y, faults'⟩
  · rfl
  · simp only [binary, BinaryOp.applyBoth]
    cases op.apply x y <;> rfl

end Evaluation

section

variable {m : Type → Type} [Monad m] [LawfulMonad m] {scope : Scope m}

/-! ### Chains -/

theorem runSteps_cons (first : Option Float) (step : Step m) (steps : List (Step m)) :
    runSteps first (step :: steps) =
      runSteps first [step] >>= fun left => runSteps left steps := by
  simp [runSteps, List.foldlM_cons]

/-- The steps that a chain is given are carried out on what it comes to without them. -/
theorem Expr.collectChain_eq (e : Expr) (depth : Nat) (steps : List (Step m)) :
    e.collectChain scope depth steps =
      e.collectChain scope depth [] >>= fun first => runSteps first steps := by
  induction e generalizing depth steps with
  | literal | reference | signed => simp [collectChain, runSteps]
  | binary op left right ihl _ =>
    simp only [collectChain]
    rw [ihl, ihl depth [_], bind_assoc]
    exact bind_congr fun first => runSteps_cons first _ steps

theorem Expr.collectAt_literal (x : Float) (depth : Nat) :
    (literal x).collectAt scope depth =
      checkDepth scope.settings.maxDepth depth >>= fun _ => pure (some x) := by
  simp [collectAt, collectChain, runSteps]

theorem Expr.collectAt_reference (term : String) (depth : Nat) :
    (reference term).collectAt scope depth =
      checkDepth scope.settings.maxDepth depth >>= fun _ => scope.collect term := by
  simp [collectAt, collectChain, runSteps]

theorem Expr.collectAt_signed (sign : Sign) (operand : Expr) (depth : Nat) :
    (signed sign operand).collectAt scope depth =
      checkDepth scope.settings.maxDepth depth >>= fun _ =>
        operand.collectAt scope (depth + 1) >>= fun value => pure (value.map sign.apply) := by
  simp [collectAt, collectChain, runSteps]

/-- The left operand of an operation is evaluated at the depth of the operation itself. -/
theorem Expr.collectAt_binary (op : BinaryOp) (left right : Expr) (depth : Nat) :
    (binary op left right).collectAt scope depth =
      left.collectAt scope depth >>= fun l =>
        right.collectAt scope (depth + 1) >>= fun r => runSteps.liftExcept (op.applyBoth l r) := by
  simp only [collectAt, collectChain]
  rw [left.collectChain_eq depth [_]]
  simp [runSteps]

/-! ### The list of faults -/

theorem liftExcept_bind_pure {α β : Type} (x : Except FormulaFault α) (f : α → β) :
    (runSteps.liftExcept x >>= fun a => pure (f a) : ExceptT FormulaFault m β) =
      runSteps.liftExcept (x.map f) := by
  apply ExceptT.ext
  cases x <;> simp [runSteps.liftExcept, Except.map]

namespace Collecting

variable {α β : Type}

theorem settle_pure (a : α) (earlier : List TermFault) :
    settle (pure a : Collecting m α) earlier = pure (a, earlier) := by
  apply ExceptT.ext
  simp [settle, Except.map]

theorem settle_bind (x : Collecting m α) (f : α → Collecting m β) (earlier : List TermFault) :
    settle (x >>= f) earlier = settle x earlier >>= fun answer => settle (f answer.1) answer.2 := by
  apply ExceptT.ext
  simp only [settle, ExceptT.run_bind, ExceptT.run_mk, StateT.run_bind, map_bind, bind_map_left]
  refine bind_congr fun answer => ?_
  rcases answer with ⟨result, faults⟩
  cases result <;> simp [Except.map]

theorem settle_checkDepth (limit depth : Nat) (earlier : List TermFault) :
    settle (checkDepth limit depth : Collecting m PUnit) earlier =
      checkDepth limit depth >>= fun _ => pure (⟨⟩, earlier) := by
  unfold checkDepth
  split
  · apply ExceptT.ext
    simp [settle, Except.map]
  · simp [settle_pure]

theorem settle_lift (x : m α) (earlier : List TermFault) :
    settle (ExceptT.lift (StateT.lift x)) earlier =
      ExceptT.lift x >>= fun a => pure (a, earlier) := by
  apply ExceptT.ext
  simp [settle, Except.map]

theorem settle_modify (f : List TermFault → List TermFault) (earlier : List TermFault) :
    settle (modify f : Collecting m PUnit) earlier = pure (⟨⟩, f earlier) := by
  have hlift : (modify f : Collecting m PUnit) = ExceptT.lift (modify f) := rfl
  rw [hlift]
  apply ExceptT.ext
  simp [settle, Except.map]

theorem settle_liftExcept (x : Except FormulaFault α) (earlier : List TermFault) :
    settle (runSteps.liftExcept x : Collecting m α) earlier =
      runSteps.liftExcept (x.map (·, earlier)) := by
  apply ExceptT.ext
  simp [settle, runSteps.liftExcept]

theorem settle_collectResult (result : Except TermFault Float) (earlier : List TermFault) :
    settle (collectResult result : Collecting m (Option Float)) earlier =
      pure ((Evaluation.ofTerm result).value, earlier ++ (Evaluation.ofTerm result).faults) := by
  cases result with
  | ok x => simp [collectResult, settle_pure, Evaluation.ofTerm]
  | error fault =>
    rw [collectResult, settle_bind, settle_modify, pure_bind, settle_pure]
    rfl

end Collecting

/-- What a computation collects comes after the faults that are in the list before. -/
def Collecting.Appends {α : Type} (x : Collecting m α) : Prop :=
  ∀ earlier, x.settle earlier =
    x.settle [] >>= fun answer => pure (answer.1, earlier ++ answer.2)

namespace Collecting.Appends

variable {α β : Type}

theorem bind {x : Collecting m α} {f : α → Collecting m β} (hx : x.Appends)
    (hf : ∀ a, (f a).Appends) : (x >>= f).Appends := by
  intro earlier
  simp only [settle_bind, bind_assoc]
  rw [hx earlier]
  simp only [bind_assoc, pure_bind]
  refine bind_congr fun answer => ?_
  rw [hf answer.1 (earlier ++ answer.2), hf answer.1 answer.2]
  simp only [bind_assoc, pure_bind, List.append_assoc]

theorem pure (a : α) : Appends (Pure.pure a : Collecting m α) := by
  intro earlier
  simp [settle_pure]

theorem checkDepth (limit depth : Nat) :
    Appends (Formula.checkDepth limit depth : Collecting m PUnit) := by
  intro earlier
  simp [settle_checkDepth]

theorem liftExcept (x : Except FormulaFault α) :
    Appends (runSteps.liftExcept x : Collecting m α) := by
  intro earlier
  simp only [settle_liftExcept, liftExcept_bind_pure]
  cases x <;> simp [Except.map]

theorem collect (term : String) : (scope.collect term).Appends := by
  intro earlier
  simp [Scope.collect, settle_bind, settle_lift, settle_collectResult]

end Collecting.Appends

theorem Expr.appends_collectAt (e : Expr) (depth : Nat) : (e.collectAt scope depth).Appends := by
  induction e generalizing depth with
  | literal x =>
    rw [collectAt_literal]
    exact .bind (.checkDepth _ _) fun _ => .pure _
  | reference term =>
    rw [collectAt_reference]
    exact .bind (.checkDepth _ _) fun _ => .collect term
  | signed sign operand ih =>
    rw [collectAt_signed]
    exact .bind (.checkDepth _ _) fun _ => .bind (ih _) fun _ => .pure _
  | binary op left right ihl ihr =>
    rw [collectAt_binary]
    exact .bind (ihl _) fun _ => .bind (ihr _) fun _ => .liftExcept _

/-- The faults of an evaluation that comes to an end are those that are added to the list. -/
theorem Expr.settle_collectAt (e : Expr) (depth : Nat) (earlier : List TermFault) :
    (e.collectAt scope depth).settle earlier = e.evaluateAt scope depth >>= fun evaluation =>
      pure (evaluation.value, earlier ++ evaluation.faults) := by
  rw [e.appends_collectAt depth earlier, evaluateAt, bind_assoc]
  simp only [pure_bind]

/-! ### Expressions -/

theorem Expr.evaluateAt_literal (x : Float) (depth : Nat) :
    (literal x).evaluateAt scope depth =
      checkDepth scope.settings.maxDepth depth >>= fun _ => pure ⟨some x, []⟩ := by
  simp only [evaluateAt, collectAt_literal, Collecting.settle_bind, Collecting.settle_checkDepth,
    Collecting.settle_pure, bind_assoc, pure_bind]

theorem Expr.evaluateAt_reference (term : String) (depth : Nat) :
    (reference term).evaluateAt scope depth =
      checkDepth scope.settings.maxDepth depth >>= fun _ =>
        ExceptT.lift (scope.resolve term) >>= fun result => pure (Evaluation.ofTerm result) := by
  simp only [evaluateAt, collectAt_reference, Scope.collect, Collecting.settle_bind,
    Collecting.settle_checkDepth, Collecting.settle_lift, Collecting.settle_collectResult,
    bind_assoc, pure_bind, List.nil_append]

theorem Expr.evaluateAt_signed (sign : Sign) (operand : Expr) (depth : Nat) :
    (signed sign operand).evaluateAt scope depth =
      checkDepth scope.settings.maxDepth depth >>= fun _ =>
        operand.evaluateAt scope (depth + 1) >>= fun value => pure (value.signed sign) := by
  simp only [evaluateAt, collectAt_signed, Collecting.settle_bind, Collecting.settle_checkDepth,
    Collecting.settle_pure, Evaluation.signed, bind_assoc, pure_bind]

/-- The left operand of an operation is evaluated at the depth of the operation itself. -/
theorem Expr.evaluateAt_binary (op : BinaryOp) (left right : Expr) (depth : Nat) :
    (binary op left right).evaluateAt scope depth =
      left.evaluateAt scope depth >>= fun l =>
        right.evaluateAt scope (depth + 1) >>= fun r =>
          runSteps.liftExcept (Evaluation.binary op l r) := by
  rw [evaluateAt, collectAt_binary]
  simp only [Collecting.settle_bind, settle_collectAt, Collecting.settle_liftExcept, bind_assoc,
    pure_bind, List.nil_append, liftExcept_bind_pure, Evaluation.binary_eq]
  refine bind_congr fun l => bind_congr fun r => ?_
  cases op.applyBoth l.value r.value <;> rfl

/-- An expression that stands too deep has no evaluation, whatever it is. -/
theorem Expr.evaluateAt_of_lt (e : Expr) {depth : Nat} (h : scope.settings.maxDepth < depth) :
    e.evaluateAt scope depth = throw (.tooDeep scope.settings.maxDepth) := by
  have hcheck : (checkDepth scope.settings.maxDepth depth : ExceptT FormulaFault m PUnit) =
      throw (.tooDeep scope.settings.maxDepth) := if_pos h
  simp only [evaluateAt, collectAt, Collecting.settle_bind, Collecting.settle_checkDepth, hcheck,
    bind_assoc]
  apply ExceptT.ext
  simp only [ExceptT.run_bind, ExceptT.run_throw, pure_bind]

/-- An expression has the same evaluation where its terms have the same values. -/
theorem Expr.evaluateAt_congr {scope' : Scope m} (hsettings : scope'.settings = scope.settings)
    (hresolve : ∀ term, scope'.resolve term = scope.resolve term) (e : Expr) (depth : Nat) :
    e.evaluateAt scope' depth = e.evaluateAt scope depth := by
  induction e generalizing depth with
  | literal x => simp only [evaluateAt_literal, hsettings]
  | reference term => simp only [evaluateAt_reference, hsettings, hresolve]
  | signed sign operand ih => simp only [evaluateAt_signed, hsettings, ih]
  | binary op left right ihl ihr => simp only [evaluateAt_binary, ihl, ihr]

end

/-! ### Terms -/

/-- The value of a term from what its look-up answers. -/
def Settings.lookupValue (settings : Settings) (term : String) : Lookup → Except TermFault Float
  | .missing what => .error (.unresolved term what)
  | .found cell => settings.cellValue term cell

/-- A number is the value of the terms that refer to it. -/
theorem Settings.cellValue_number (settings : Settings) (term : String) {x : Float}
    (h : x.isNaN = false) : settings.cellValue term (.number x) = .ok x :=
  if_neg (ne_true_of_eq_false h)

section

variable {m : Type → Type} [Monad m] {scope : Scope m} {term : String}

theorem Scope.resolve_numeral {x : Float} (h : Number.readNumeral? term = some x) :
    scope.resolve term = pure (.ok x) := by
  unfold resolve
  rw [h]

theorem Scope.resolve_malformed (h : Number.readNumeral? term = none)
    (hparts : Text.splitOnce? scope.settings.separator term = none) :
    scope.resolve term = pure (.error (.malformed term scope.settings.separator)) := by
  unfold resolve
  rw [h, hparts]

theorem Scope.resolve_reference [LawfulMonad m] {column key : String}
    (h : Number.readNumeral? term = none)
    (hparts : Text.splitOnce? scope.settings.separator term = some (column, key)) :
    scope.resolve term =
      scope.settings.lookupValue term <$> scope.source column scope.keyColumn key := by
  unfold resolve
  rw [h, hparts, map_eq_pure_bind]
  refine bind_congr fun answer => ?_
  cases answer <;> rfl

end

end LedgerFields.Formula
