import LedgerFields.Formula.Outcome
import LedgerFields.Proofs.Formula.Evaluation.Depth
import LedgerFields.Proofs.Formula.Evaluation.Faults
import LedgerFields.Proofs.Formula.Evaluation.Equations

/-! Strict and flexible formulas side by side. Both evaluations look the same terms up in the same
order. The flexible one has a number for an empty cell where the strict one has a fault, so that it
goes on with values that the strict one lacks: a division by zero is all that can come of this
before its end, and at the end just the faults of empty cells are gone. -/

namespace LedgerFields.Formula

/-- The scope with the given answer to whether an empty cell is a fault. -/
def Scope.withStrict {m : Type → Type} (scope : Scope m) (strict : Bool) : Scope m :=
  { scope with settings := { scope.settings with strict } }

/-- Whether a fault is that of an empty cell. -/
def TermFault.isEmptyCell : TermFault → Bool
  | .nonNumeric _ .empty => true
  | _ => false

/-- The texts of faults, one on a line. -/
def faultLines (faults : List TermFault) : String :=
  "\n".intercalate (faults.map TermFault.message)

namespace Evaluation

variable {a a' b b' evaluation : Evaluation} {op : BinaryOp}

/-- The evaluation `flexible` has the faults of `strict` without those of empty cells, and its value
if it has one. -/
structure Relaxes (strict flexible : Evaluation) : Prop where
  faults : flexible.faults = strict.faults.filter (!·.isEmptyCell)
  value : ∀ x, strict.value = some x → flexible.value = some x

theorem relaxes_cellValue (settings : Settings) (term : String) (cell : Cell) :
    (ofTerm (Settings.cellValue { settings with strict := true } term cell)).Relaxes
      (ofTerm (Settings.cellValue { settings with strict := false } term cell)) := by
  cases cell with
  | empty => exact ⟨rfl, fun x h => (by cases h)⟩
  | text s => exact ⟨rfl, fun x h => h⟩
  | number x =>
    unfold Settings.cellValue
    by_cases hnan : x.isNaN = true
    · simp only [hnan, if_true]
      exact ⟨rfl, fun x h => (by cases h)⟩
    · simp only [hnan]
      exact ⟨rfl, fun x h => h⟩

theorem relaxes_lookupValue (settings : Settings) (term : String) (answer : Lookup) :
    (ofTerm (Settings.lookupValue { settings with strict := true } term answer)).Relaxes
      (ofTerm (Settings.lookupValue { settings with strict := false } term answer)) := by
  cases answer with
  | missing what => exact ⟨rfl, fun _ h => h⟩
  | found cell => exact relaxes_cellValue settings term cell

theorem Relaxes.signed (h : a.Relaxes b) (sign : Sign) :
    (a.signed sign).Relaxes (b.signed sign) := by
  refine ⟨h.faults, fun x hx => ?_⟩
  obtain ⟨y, hy, rfl⟩ := Option.map_eq_some_iff.mp hx
  exact Option.map_eq_some_iff.mpr ⟨y, h.value y hy, rfl⟩

/-- An operation lacks a value when one of its operands does. -/
theorem value_of_binary_eq_none (h : a.value = none ∨ b.value = none) :
    binary op a b = .ok ⟨none, a.faults ++ b.faults⟩ := by
  unfold binary
  rcases h with h | h
  · simp [h]
  · cases ha : a.value <;> simp [h]

theorem binary_of_values {x y : Float} (ha : a.value = some x) (hb : b.value = some y) :
    binary op a b = (op.apply x y).map fun z => ⟨some z, a.faults ++ b.faults⟩ := by
  simp only [binary, ha, hb]
  cases op.apply x y <;> rfl

theorem Settled.faults_ne_nil (h : evaluation.Settled) (hnone : evaluation.value = none) :
    evaluation.faults ≠ [] := by
  intro hfaults
  have hvalue := h.mpr hfaults
  rw [hnone] at hvalue
  cases hvalue

theorem outcome_of_value {x : Float} (h : evaluation.Settled) (hvalue : evaluation.value = some x) :
    evaluation.outcome = .value x := by
  have hfaults : evaluation.faults = [] := h.mp (by rw [hvalue]; rfl)
  unfold outcome
  rw [hvalue, hfaults]

theorem outcome_of_none (hvalue : evaluation.value = none) :
    evaluation.outcome = .failure (faultLines evaluation.faults) := by
  unfold outcome
  rw [hvalue]
  rfl

theorem Settled.value?_outcome (h : evaluation.Settled) :
    evaluation.outcome.value? = evaluation.value := by
  cases hvalue : evaluation.value with
  | none => rw [outcome_of_none hvalue]; rfl
  | some x => rw [outcome_of_value h hvalue]; rfl

theorem value_of_outcome {x : Float} (h : evaluation.outcome = .value x) :
    evaluation.value = some x := by
  unfold outcome at h
  split at h
  · next hvalue _ =>
    cases h
    exact hvalue
  · cases h

theorem Relaxes.outcome_eq_value {x : Float} (h : a.Relaxes b) (hb : b.Settled)
    (houtcome : a.outcome = .value x) : b.outcome = .value x :=
  outcome_of_value hb (h.value x (value_of_outcome houtcome))

/-- The flexible evaluation lists the faults that are not of empty cells, or has a value. -/
theorem Relaxes.outcome_cases (h : a.Relaxes b) (hb : b.Settled) :
    let left := a.faults.filter (!·.isEmptyCell)
    (left ≠ [] ∧ b.outcome = .failure (faultLines left)) ∨
      (left = [] ∧ ∃ x, b.outcome = .value x) := by
  dsimp only
  rw [← h.faults]
  cases hvalue : b.value with
  | none => exact .inl ⟨hb.faults_ne_nil hvalue, outcome_of_none hvalue⟩
  | some x => exact .inr ⟨hb.mp (by rw [hvalue]; rfl), x, outcome_of_value hb hvalue⟩

end Evaluation

section

variable {σ : Type} {s : σ}

/-- An evaluation has no value, if it comes to its end. -/
def Valueless (result : Except FormulaFault Evaluation) : Prop :=
  ∀ evaluation, result = .ok evaluation → evaluation.value = none

/-- What the flexible evaluation comes to when the strict one comes to `strict`: the same fault, an
evaluation with fewer faults, or a division by zero where the strict one lacks the operands. -/
inductive Relaxed : Except FormulaFault Evaluation × σ → Except FormulaFault Evaluation × σ → Prop
  where
  | fault {fault : FormulaFault} {s : σ} : Relaxed (.error fault, s) (.error fault, s)
  | ok {strict flexible : Evaluation} {s : σ} :
      strict.Relaxes flexible → Relaxed (.ok strict, s) (.ok flexible, s)
  | divided {strict : Except FormulaFault Evaluation} {s s' : σ} :
      Valueless strict → Relaxed (strict, s) (.error .divisionByZero, s')

/-- From any state, `y` comes to a relaxed form of what `x` comes to. -/
def RunsRelaxed (x y : ExceptT FormulaFault (StateT σ Logged) Evaluation) : Prop :=
  ∀ s, Relaxed (x.run.run s).value (y.run.run s).value

theorem RunsRelaxed.pure {a b : Evaluation} (h : a.Relaxes b) :
    RunsRelaxed (σ := σ) (pure a) (pure b) := fun _ => .ok h

theorem RunsRelaxed.check {x y : ExceptT FormulaFault (StateT σ Logged) Evaluation}
    (h : RunsRelaxed x y) (limit depth : Nat) :
    RunsRelaxed (checkDepth limit depth >>= fun _ => x)
      (checkDepth limit depth >>= fun _ => y) := by
  intro s
  unfold checkDepth
  by_cases hdepth : limit < depth
  · rw [if_pos hdepth]
    exact .fault
  · rw [if_neg hdepth]
    exact h s

/-- Two evaluations go on side by side as long as both have evaluated their first part; when only
the strict one has, it goes on without a value. -/
theorem RunsRelaxed.bind {x y : ExceptT FormulaFault (StateT σ Logged) Evaluation}
    {f g : Evaluation → ExceptT FormulaFault (StateT σ Logged) Evaluation}
    (h : RunsRelaxed x y) (hfg : ∀ a b, a.Relaxes b → RunsRelaxed (f a) (g b))
    (hnone : ∀ a, a.value = none → Answers (f a) Valueless) :
    RunsRelaxed (x >>= f) (y >>= g) := by
  intro s
  have hs := h s
  rw [ExceptT.run_bind, StateT.run_bind, Logged.value_bind, ExceptT.run_bind, StateT.run_bind,
    Logged.value_bind]
  generalize (x.run.run s).value = strict at hs
  generalize (y.run.run s).value = flexible at hs
  cases hs with
  | fault => exact .fault
  | ok hrelaxes => exact hfg _ _ hrelaxes _
  | @divided strict t t' hstrict =>
    refine .divided ?_
    cases strict with
    | error fault => exact fun evaluation h => (by cases h)
    | ok a => exact hnone a (hstrict a rfl) t

theorem relaxed_binary {a a' b b' : Evaluation} {op : BinaryOp} (ha : a.Relaxes a')
    (hb : b.Relaxes b') :
    Relaxed (Evaluation.binary op a b, s) (Evaluation.binary op a' b', s) := by
  have hfaults : a'.faults ++ b'.faults = (a.faults ++ b.faults).filter (!·.isEmptyCell) := by
    rw [ha.faults, hb.faults, List.filter_append]
  by_cases hvalues : a.value = none ∨ b.value = none
  · -- The strict operation is not carried out; the flexible one may be, and may divide by zero.
    rw [Evaluation.value_of_binary_eq_none hvalues]
    cases hbinary : Evaluation.binary op a' b' with
    | error fault =>
      rw [Evaluation.fault_of_binary hbinary]
      refine .divided fun evaluation h => ?_
      cases h
      rfl
    | ok evaluation =>
      refine .ok ⟨?_, fun x h => (by cases h)⟩
      rw [Evaluation.faults_of_binary hbinary, hfaults]
  · obtain ⟨hx, hy⟩ := not_or.mp hvalues
    obtain ⟨x, hx⟩ := Option.ne_none_iff_exists'.mp hx
    obtain ⟨y, hy⟩ := Option.ne_none_iff_exists'.mp hy
    rw [Evaluation.binary_of_values hx hy,
      Evaluation.binary_of_values (ha.value x hx) (hb.value y hy)]
    cases op.apply x y with
    | error fault => exact .fault
    | ok z => exact .ok ⟨hfaults, fun _ h => h⟩

variable {scope : Scope (StateT σ Logged)}

/-- A term is looked up in the same way, and has a fault less when its cell is empty. -/
theorem runsRelaxed_resolve (term : String) :
    RunsRelaxed
      (ExceptT.lift ((scope.withStrict true).resolve term) >>= fun result =>
        pure (Evaluation.ofTerm result))
      (ExceptT.lift ((scope.withStrict false).resolve term) >>= fun result =>
        pure (Evaluation.ofTerm result)) := by
  intro s
  -- The equations of both resolutions differ in nothing but the flag.
  cases hnumeral : Number.readNumeral? term with
  | some x =>
    rw [Scope.resolve_numeral hnumeral, Scope.resolve_numeral hnumeral]
    exact .ok ⟨rfl, fun _ h => h⟩
  | none =>
    cases hparts : Text.splitOnce? scope.settings.separator term with
    | none =>
      have hresolve (strict : Bool) : (scope.withStrict strict).resolve term =
          pure (.error (.malformed term scope.settings.separator)) :=
        Scope.resolve_malformed hnumeral hparts
      rw [hresolve, hresolve]
      exact .ok ⟨rfl, fun _ h => h⟩
    | some parts =>
      obtain ⟨column, key⟩ := parts
      have hresolve (strict : Bool) : (scope.withStrict strict).resolve term =
          (Settings.lookupValue { scope.settings with strict } term) <$>
            scope.source column scope.keyColumn key :=
        Scope.resolve_reference hnumeral hparts
      rw [hresolve, hresolve]
      exact .ok (Evaluation.relaxes_lookupValue scope.settings term _)

theorem valueless_binary {l : Evaluation} (op : BinaryOp) (hl : l.value = none)
    {x : ExceptT FormulaFault (StateT σ Logged) Evaluation} :
    Answers (x >>= fun r => runSteps.liftExcept (Evaluation.binary op l r)) Valueless := by
  have hx : Answers x fun _ => True := fun _ => trivial
  refine hx.bind (fun fault _ evaluation h => (by cases h)) fun r _ s evaluation h => ?_
  rw [Evaluation.value_of_binary_eq_none (.inl hl)] at h
  cases h
  rfl

/-- Strict and flexible evaluation of one expression. -/
theorem Expr.runsRelaxed (e : Expr) (depth : Nat) :
    RunsRelaxed (e.evaluateAt (scope.withStrict true) depth)
      (e.evaluateAt (scope.withStrict false) depth) := by
  induction e generalizing depth with
  | literal x =>
    rw [evaluateAt_literal, evaluateAt_literal]
    exact (RunsRelaxed.pure ⟨rfl, fun _ h => h⟩).check _ _
  | reference term =>
    rw [evaluateAt_reference, evaluateAt_reference]
    exact (runsRelaxed_resolve term).check _ _
  | signed sign operand ih =>
    rw [evaluateAt_signed, evaluateAt_signed]
    refine RunsRelaxed.check ((ih (depth + 1)).bind ?_ ?_) _ _
    · exact fun a b h => .pure (h.signed sign)
    · intro a ha s evaluation h
      cases h
      simp [Evaluation.signed, ha]
  | binary op left right ihl ihr =>
    rw [evaluateAt_binary, evaluateAt_binary]
    refine (ihl depth).bind (fun l l' hl => (ihr (depth + 1)).bind (fun r r' hr s => ?_) ?_) ?_
    · exact relaxed_binary hl hr
    · intro r hr s evaluation h
      rw [Evaluation.value_of_binary_eq_none (.inr hr)] at h
      cases h
      rfl
    · exact fun l hl => valueless_binary op hl

theorem parse_withStrict (settings : Settings) (strict : Bool) (formula : String) :
    parse { settings with strict } formula = parse settings formula := by
  have hchars (c : Char) :
      Settings.isTermChar { settings with strict } c = settings.isTermChar c := rfl
  have htokens (cs : List Char) :
      tokenize { settings with strict } cs = tokenize settings cs :=
    tokensFrom_congr hchars 1 [] cs
  unfold parse
  simp only [htokens]

/-- Reads a formula and evaluates it. -/
def attempt {m : Type → Type} [Monad m] (scope : Scope m) (formula : String) :
    m (Except FormulaFault Evaluation) :=
  match parse scope.settings formula with
  | .error fault => pure (.error fault)
  | .ok e => e.evaluate scope

theorem attempt_of_parse_error {m : Type → Type} [Monad m] {scope : Scope m} {formula : String}
    {fault : FormulaFault} (h : parse scope.settings formula = .error fault) :
    attempt scope formula = pure (.error fault) := by
  unfold attempt
  rw [h]

theorem attempt_of_parse {m : Type → Type} [Monad m] {scope : Scope m} {formula : String}
    {e : Expr} (h : parse scope.settings formula = .ok e) :
    attempt scope formula = e.evaluate scope := by
  unfold attempt
  rw [h]

/-- The outcome of a fault or an evaluation. -/
def outcomeOf : Except FormulaFault Evaluation → Outcome
  | .error fault => .failure fault.report
  | .ok evaluation => evaluation.outcome

theorem compute_eq {m : Type → Type} [Monad m] [LawfulMonad m] (scope : Scope m)
    (formula : String) : compute scope formula = outcomeOf <$> attempt scope formula := by
  unfold compute attempt
  cases parse scope.settings formula with
  | error fault =>
    simp only [map_pure]
    rfl
  | ok e =>
    rw [map_eq_pure_bind]
    refine bind_congr fun result => ?_
    cases result <;> rfl

theorem run_compute (scope : Scope (StateT σ Logged)) (formula : String) (s : σ) :
    ((compute scope formula).run s).value.1 =
      outcomeOf ((attempt scope formula).run s).value.1 := by
  rw [compute_eq]
  rfl

/-- An evaluation that comes to its end has a value when its terms have no fault. -/
theorem settled_of_attempt {formula : String} {evaluation : Evaluation}
    (h : ((attempt scope formula).run s).value.1 = .ok evaluation) : evaluation.Settled := by
  cases hparse : parse scope.settings formula with
  | error fault =>
    rw [attempt_of_parse_error hparse] at h
    cases h
  | ok e =>
    rw [attempt_of_parse hparse] at h
    have hrun : (e.evaluate scope).run s = ⟨(.ok evaluation, ((e.evaluate scope).run s).value.2),
        ((e.evaluate scope).run s).notices⟩ := by
      rw [← h]
    exact (e.faults_of_evaluateAt hrun).2

/-- The strict attempt at a formula and the flexible one end in the same fault, or in evaluations of
which the flexible one has fewer faults, or the flexible one divides by zero where the strict one
has no value. -/
theorem attempt_relaxed (scope : Scope (StateT σ Logged)) (formula : String) (s : σ) :
    let result (strict : Bool) := ((attempt (scope.withStrict strict) formula).run s).value.1
    (∃ fault, result true = .error fault ∧ result false = .error fault) ∨
    (∃ strict flexible, result true = .ok strict ∧ result false = .ok flexible ∧
      strict.Relaxes flexible) ∨
    ∃ strict, result true = .ok strict ∧ strict.value = none ∧
      result false = .error .divisionByZero := by
  intro result
  cases hparse : parse scope.settings formula with
  | error fault =>
    have hresult (strict : Bool) : result strict = .error fault := by
      have hread : parse (scope.withStrict strict).settings formula = .error fault := by
        rw [← hparse]
        exact parse_withStrict _ _ _
      simp only [result, attempt_of_parse_error hread]
      rfl
    exact .inl ⟨fault, hresult true, hresult false⟩
  | ok e =>
    have hresult (strict : Bool) :
        result strict = ((e.evaluate (scope.withStrict strict)).run s).value.1 := by
      have hread : parse (scope.withStrict strict).settings formula = .ok e := by
        rw [← hparse]
        exact parse_withStrict _ _ _
      simp only [result, attempt_of_parse hread]
    rcases Nat.eq_zero_or_pos scope.settings.maxDepth with hlimit | hlimit
    · have htooDeep (strict : Bool) : result strict = .error (.tooDeep 0) :=
        (hresult strict).trans (e.evaluate_of_limit_zero hlimit)
      exact .inl ⟨_, htooDeep true, htooDeep false⟩
    · -- What has been read keeps the limit, so that only a division by zero can end it.
      have hfits : e.height ≤ scope.settings.maxDepth := by
        obtain ⟨-, tokens, -, hread⟩ := parse_eq_ok.mp hparse
        rcases (parseTokens_eq_ok.mp hread).2.2 with hleaf | hheight
        · cases e with
          | literal | reference => exact hlimit
          | signed | binary => cases hleaf
        · exact hheight
      have hends := e.ends_evaluate (scope.withStrict true) s
      have hrelaxed : Relaxed ((e.evaluate (scope.withStrict true)).run s).value
          ((e.evaluate (scope.withStrict false)).run s).value := e.runsRelaxed 1 s
      rw [hresult, hresult]
      generalize ((e.evaluate (scope.withStrict true)).run s).value = strict at *
      generalize ((e.evaluate (scope.withStrict false)).run s).value = flexible at *
      cases hrelaxed with
      | @fault fault t => exact .inl ⟨fault, rfl, rfl⟩
      | @ok strict flexible t h => exact .inr (.inl ⟨strict, flexible, rfl, rfl, h⟩)
      | @divided strict t t' hvalueless =>
        cases hends with
        | ok _ => exact .inr (.inr ⟨_, rfl, hvalueless _ rfl, rfl⟩)
        | tooDeep hheight => exact absurd hfits hheight
        | divisionByZero => exact .inl ⟨.divisionByZero, rfl, rfl⟩

end

/-- A flexible formula against the strict one. A value and a fault that ends the computation are the
same in both. Where the strict one lists the faults of terms, the flexible one divides by zero, or
lists those faults without the ones of empty cells, or has a value when none is left. -/
theorem flexible_extends_strict {σ : Type} (scope : Scope (StateT σ Logged)) (formula : String)
    (s : σ) :
    let result (strict : Bool) := ((attempt (scope.withStrict strict) formula).run s).value.1
    let outcome (strict : Bool) := ((compute (scope.withStrict strict) formula).run s).value.1
    (∀ x, outcome true = .value x → outcome false = .value x) ∧
    (∀ fault, result true = .error fault →
      outcome true = .failure fault.report ∧ outcome false = .failure fault.report) ∧
    ∀ evaluation, result true = .ok evaluation → evaluation.value = none →
      evaluation.faults ≠ [] ∧ outcome true = .failure (faultLines evaluation.faults) ∧
      let left := evaluation.faults.filter (!·.isEmptyCell)
      (outcome false = .failure FormulaFault.divisionByZero.report ∨
        (left ≠ [] ∧ outcome false = .failure (faultLines left)) ∨
        (left = [] ∧ ∃ x, outcome false = .value x)) := by
  intro result outcome
  have houtcome (strict : Bool) {ends : Except FormulaFault Evaluation}
      (h : result strict = ends) : outcome strict = outcomeOf ends := by
    rw [← h]
    simp only [outcome, compute_eq]
    rfl
  have hsettled (strict : Bool) {evaluation : Evaluation}
      (h : result strict = .ok evaluation) : evaluation.Settled := settled_of_attempt h
  rcases attempt_relaxed scope formula s with ⟨fault, hstrict, hflexible⟩ |
    ⟨strict, flexible, hstrict, hflexible, hrelaxes⟩ | ⟨strict, hstrict, hvalue, hflexible⟩
  · refine ⟨fun x h => ?_, fun fault' h => ?_, fun evaluation h => ?_⟩
    · rw [houtcome true hstrict] at h
      cases h
    · cases hstrict.symm.trans h
      exact ⟨houtcome true hstrict, houtcome false hflexible⟩
    · cases hstrict.symm.trans h
  · have hsettledFlexible := hsettled false hflexible
    refine ⟨fun x h => ?_, fun fault h => ?_, fun evaluation h hnone => ?_⟩
    · rw [houtcome true hstrict] at h
      rw [houtcome false hflexible]
      exact hrelaxes.outcome_eq_value hsettledFlexible h
    · cases hstrict.symm.trans h
    · cases hstrict.symm.trans h
      refine ⟨(hsettled true hstrict).faults_ne_nil hnone,
        (houtcome true hstrict).trans (Evaluation.outcome_of_none hnone), .inr ?_⟩
      rw [houtcome false hflexible]
      exact hrelaxes.outcome_cases hsettledFlexible
  · have hfaults : outcome true = .failure (faultLines strict.faults) :=
      (houtcome true hstrict).trans (Evaluation.outcome_of_none hvalue)
    refine ⟨fun x h => ?_, fun fault h => ?_, fun evaluation h hnone => ?_⟩
    · rw [hfaults] at h
      cases h
    · cases hstrict.symm.trans h
    · cases hstrict.symm.trans h
      exact ⟨(hsettled true hstrict).faults_ne_nil hnone, hfaults,
        .inl (houtcome false hflexible)⟩

theorem flexible_extends_strict_sample :
    let source : CellSource (StateT Unit Logged) := fun column _ _ =>
      pure (.found (if column = "fee" then .number 2.5 else .empty))
    let scope : Scope (StateT Unit Logged) := { source, keyColumn := "id", settings := {} }
    let outcome (strict : Bool) (formula : String) :=
      ((compute (scope.withStrict strict) formula).run ()).value.1
    outcome true "+fee@1" = .value 2.5 ∧ outcome false "+fee@1" = .value 2.5 ∧
    outcome false "fee@1/0" = .failure FormulaFault.divisionByZero.report ∧
    outcome true "tax@1 + rate" =
      .failure (faultLines [.nonNumeric "tax@1" .empty, .malformed "rate" '@']) ∧
    (outcome false "tax@1 + rate" = .failure FormulaFault.divisionByZero.report ∨
      ([TermFault.malformed "rate" '@'] ≠ [] ∧
        outcome false "tax@1 + rate" = .failure (faultLines [.malformed "rate" '@'])) ∨
      ([TermFault.malformed "rate" '@'] = [] ∧ ∃ x, outcome false "tax@1 + rate" = .value x)) := by
  intro source scope outcome
  have hvalue : outcome true "+fee@1" = .value 2.5 := by decide +kernel
  have hdivision : ((attempt (scope.withStrict true) "fee@1/0").run ()).value.1 =
      .error .divisionByZero := by
    rw [attempt_of_parse (e := .binary .divide (.reference "fee@1") (.literal 0))
      (by decide +kernel)]
    rfl
  have hfaults : ((attempt (scope.withStrict true) "tax@1 + rate").run ()).value.1 =
      .ok ⟨none, [.nonNumeric "tax@1" .empty, .malformed "rate" '@']⟩ := by
    rw [attempt_of_parse (e := .binary .add (.reference "tax@1") (.reference "rate"))
      (by decide +kernel)]
    rfl
  obtain ⟨hsame, -, -⟩ := flexible_extends_strict scope "+fee@1" ()
  obtain ⟨-, hfault, -⟩ := flexible_extends_strict scope "fee@1/0" ()
  obtain ⟨-, -, hlisted⟩ := flexible_extends_strict scope "tax@1 + rate" ()
  obtain ⟨-, hstrict, hflexible⟩ := hlisted _ hfaults rfl
  exact ⟨hvalue, hsame _ hvalue, (hfault _ hdivision).2, hstrict, hflexible⟩

end LedgerFields.Formula
