import LedgerFields.Proofs.Formula.Evaluation.Division
import LedgerFields.Proofs.Formula.Evaluation.Faults
import LedgerFields.Proofs.Formula.Evaluation.Equations
import LedgerFields.Proofs.Number.Quarters

/-! The negative zero. A minus sign makes a zero positive, rounding does, and numerals have no sign.
So a formula has the negative zero for its value only when it does nothing with a cell that holds
it: the formula refers to that cell, and no other signs than plus stand before the reference. -/

namespace LedgerFields

namespace Number

variable {x : Float}

theorem ofFloat_negativeZero : Binary64.ofFloat (-0.0) = .finite true 0 leastExponent := by
  decide +kernel

theorem zero_ne_negativeZero : (0.0 : Float) ≠ -0.0 := by
  decide +kernel

theorem beq_zero_negativeZero : ((-0.0 : Float) == 0.0) = true := by
  decide +kernel

/-- Only a zero becomes the negative zero when its sign is changed. -/
theorem beq_zero_of_neg (h : -x = -0.0) : (x == 0.0) = true := by
  have hfinite : (-x).isFinite = true := by
    rw [h]
    exact isFinite_of_beq_zero beq_zero_negativeZero
  obtain ⟨a, ha⟩ := exists_value? (isFinite_of_neg hfinite)
  have hneg := value?_neg ha
  have hzero := (beq_zero_iff hneg).mp (h ▸ beq_zero_negativeZero)
  exact (beq_zero_iff ha).mpr (neg_eq_zero.mp hzero)

/-- Rounding to hundredths never gives the negative zero, not even for that itself. -/
theorem roundHundredths_ne_negativeZero (x : Float) : roundHundredths x ≠ -0.0 := by
  by_cases hx : x = -0.0
  · rw [hx]
    decide +kernel
  unfold roundHundredths
  split
  · split
    · exact hx
    · next d _ =>
      dsimp only
      split
      · exact zero_ne_negativeZero
      · next hne =>
        split
        · exact mt beq_zero_of_neg hne
        · exact fun h => hne (h ▸ beq_zero_negativeZero)
  · exact hx

theorem ne_negativeZero_of_readNumeral? {text : String} (h : readNumeral? text = some x) :
    x ≠ -0.0 := by
  obtain ⟨whole, fraction, -, -, rfl⟩ := splitNumeral_of_readNumeral? h
  obtain ⟨mantissa, exponent, -, hfloat⟩ :=
    ofFloat_nearestFloat (digitsValue (whole ++ fraction)) (-fraction.length)
  intro hnegative
  rw [hnegative, ofFloat_negativeZero, Binary64.ofCanonical] at hfloat
  split at hfloat <;> cases hfloat

end Number

namespace Formula

open Number

theorem Sign.minus_apply_ne (x : Float) : minus.apply x ≠ -0.0 := by
  rw [apply]
  split
  · exact zero_ne_negativeZero
  · next hne => exact mt beq_zero_of_neg hne

theorem BinaryOp.apply_ne (op : BinaryOp) (x y : Float) : op.apply x y ≠ .ok (-0.0) := by
  have hround (z : Float) :
      (.ok (roundHundredths z) : Except FormulaFault Float) ≠ .ok (-0.0) := fun h =>
    roundHundredths_ne_negativeZero z (Except.ok.inj h)
  cases op with
  | add | subtract | multiply => exact hround _
  | divide =>
    rw [apply]
    split
    · intro h
      cases h
    · exact hround _

theorem Evaluation.value_of_binary_ne {op : BinaryOp} {left right evaluation : Evaluation}
    (h : binary op left right = .ok evaluation) : evaluation.value ≠ some (-0.0) := by
  unfold binary at h
  split at h
  · next x y _ _ =>
    obtain ⟨z, hz, h⟩ := bind_eq_ok.mp h
    cases h
    intro hnegative
    rw [Option.some.inj hnegative] at hz
    exact op.apply_ne x y hz
  · cases h
    exact nofun

/-- A cell counts as the negative zero only when it holds it: an empty one counts as a zero without
a sign. -/
theorem Settings.cellValue_eq_negativeZero_iff {settings : Settings} {term : String}
    {cell : Cell} : settings.cellValue term cell = .ok (-0.0) ↔ cell = .number (-0.0) := by
  have hempty : (if settings.strict then .error (.nonNumeric term .empty) else .ok 0.0 :
      Except TermFault Float) ≠ .ok (-0.0) := by
    split
    · exact nofun
    · exact fun h => zero_ne_negativeZero (Except.ok.inj h)
  cases cell with
  | empty => exact iff_of_false hempty nofun
  | text => exact iff_of_false nofun nofun
  | number x =>
    rw [Cell.number.injEq, cellValue]
    split
    · next hnan =>
      refine iff_of_false hempty ?_
      rintro rfl
      exact absurd hnan (by decide +kernel)
    · rw [Except.ok.injEq]

/-- The expression is the reference, and plus signs may stand before it. -/
inductive Expr.Repeats (term : String) : Expr → Prop where
  | reference : Repeats term (.reference term)
  | plus {operand : Expr} : Repeats term operand → Repeats term (.signed .plus operand)

theorem Expr.Repeats.mem_references {term : String} {e : Expr} (h : e.Repeats term) :
    term ∈ e.references := by
  induction h with
  | reference => exact List.mem_singleton_self term
  | plus _ ih => exact ih

theorem Evaluation.signed_plus (operand : Evaluation) : operand.signed .plus = operand := by
  obtain ⟨value, faults⟩ := operand
  cases value <;> rfl

/-- A reference after plus signs is evaluated as it is without them. -/
theorem Expr.Repeats.evaluateAt_eq {m : Type → Type} [Monad m] [LawfulMonad m] {scope : Scope m}
    {term : String} {e : Expr} {depth : Nat} (h : e.Repeats term)
    (hfits : depth + e.height ≤ scope.settings.maxDepth + 1) :
    e.evaluateAt scope depth =
      ExceptT.lift (scope.resolve term) >>= fun result => pure (Evaluation.ofTerm result) := by
  induction h generalizing depth with
  | reference =>
    rw [height] at hfits
    rw [evaluateAt_reference, checkDepth_of_le (by omega), pure_bind]
  | @plus operand _ ih =>
    rw [height] at hfits
    rw [evaluateAt_signed, checkDepth_of_le (by omega), pure_bind, ih (by omega)]
    simp only [Evaluation.signed_plus, bind_pure]

section

variable {σ : Type} {scope : Scope (StateT σ Logged)} {s s' : σ} {notices : List Notice}

/-- The only expressions with the negative zero for a value are references after plus signs, when
no literal is the negative zero. -/
theorem Expr.repeats_of_evaluateAt {e : Expr} {depth : Nat} {evaluation : Evaluation}
    (hliterals : ∀ x ∈ e.literals, x ≠ -0.0)
    (h : (e.evaluateAt scope depth).run.run s = ⟨(.ok evaluation, s'), notices⟩)
    (hvalue : evaluation.value = some (-0.0)) : ∃ term, e.Repeats term := by
  induction e generalizing depth evaluation s s' notices with
  | literal x =>
    rw [evaluateAt_literal] at h
    obtain ⟨_, _, _, _, _, hliteral, -⟩ := run_bind_eq_ok.mp h
    cases hliteral
    exact absurd (Option.some.inj hvalue) (hliterals x (List.mem_singleton_self x))
  | reference term => exact ⟨term, .reference⟩
  | signed sign operand ih =>
    rw [evaluateAt_signed] at h
    obtain ⟨_, _, _, _, _, hrest, -⟩ := run_bind_eq_ok.mp h
    obtain ⟨value, _, _, _, hoperand, hpure, -⟩ := run_bind_eq_ok.mp hrest
    cases hpure
    obtain ⟨x, hx, hsigned⟩ := Option.map_eq_some_iff.mp hvalue
    cases sign with
    | minus => exact absurd hsigned (Sign.minus_apply_ne x)
    | plus =>
      obtain rfl : x = -0.0 := hsigned
      obtain ⟨term, hterm⟩ := ih hliterals hoperand hx
      exact ⟨term, .plus hterm⟩
  | binary op left right =>
    rw [evaluateAt_binary] at h
    obtain ⟨_, _, _, _, _, hrest, -⟩ := run_bind_eq_ok.mp h
    obtain ⟨_, _, _, _, _, hbinary, -⟩ := run_bind_eq_ok.mp hrest
    exact absurd hvalue (Evaluation.value_of_binary_ne (run_pure_eq.mp hbinary).1)

/-- What a term that is no numeral resolves to is the negative zero when the cell that it refers to
holds it. -/
theorem Scope.resolve_eq_negativeZero_iff {term : String}
    (hread : readNumeral? term = none) :
    ((scope.resolve term).run s).value.1 = .ok (-0.0) ↔
      ∃ column key, Text.splitOnce? scope.settings.separator term = some (column, key) ∧
        ((scope.source column scope.keyColumn key).run s).value.1 = .found (.number (-0.0)) := by
  cases hparts : Text.splitOnce? scope.settings.separator term with
  | none =>
    rw [resolve_malformed hread hparts]
    exact iff_of_false nofun nofun
  | some parts =>
    obtain ⟨column, key⟩ := parts
    have hresolve : ((scope.resolve term).run s).value.1 = scope.settings.lookupValue term
        ((scope.source column scope.keyColumn key).run s).value.1 := by
      rw [resolve_reference hread hparts, StateT.run_map]
      rfl
    rw [hresolve]
    generalize hanswer : ((scope.source column scope.keyColumn key).run s).value.1 = answer
    constructor
    · intro h
      refine ⟨column, key, rfl, ?_⟩
      rw [hanswer]
      cases answer with
      | missing what => cases h
      | found cell => rw [Settings.cellValue_eq_negativeZero_iff.mp h]
    · rintro ⟨column', key', heq, hfound⟩
      cases heq
      obtain rfl := hanswer.symm.trans hfound
      show scope.settings.cellValue term (.number (-0.0)) = .ok (-0.0)
      exact Settings.cellValue_eq_negativeZero_iff.mpr rfl

end

/-- A formula that has been read under a limit of one or more has the negative zero for its value
just when it is a reference, after plus signs or none, to a cell that holds the negative zero. No
minus sign gives it, and no operation does. -/
theorem evaluate_eq_negativeZero_iff {σ : Type} (scope : Scope (StateT σ Logged))
    {formula : String} {e : Expr} (hlimit : 1 ≤ scope.settings.maxDepth)
    (hparse : parse scope.settings formula = .ok e) (s : σ) :
    ((∃ evaluation, ((e.evaluate scope).run s).value.1 = .ok evaluation ∧
        evaluation.value = some (-0.0)) ↔
      ∃ term column key, e.Repeats term ∧
        Text.splitOnce? scope.settings.separator term = some (column, key) ∧
        ((scope.source column scope.keyColumn key).run s).value.1 = .found (.number (-0.0))) ∧
    (∀ x, Sign.minus.apply x ≠ -0.0) ∧
    ∀ (op : BinaryOp) x y, op.apply x y ≠ .ok (-0.0) := by
  refine ⟨?_, Sign.minus_apply_ne, BinaryOp.apply_ne⟩
  obtain ⟨-, tokens, -, hread⟩ := parse_eq_ok.mp hparse
  obtain ⟨hderives, -, hfits⟩ := parseTokens_eq_ok.mp hread
  have hheight : 1 + e.height ≤ scope.settings.maxDepth + 1 := by
    rcases hfits with hleaf | hheight
    · cases e with
      | literal | reference => exact Nat.add_le_add_right hlimit 1
      | signed | binary => cases hleaf
    · omega
  have hresolve {term : String} (hterm : e.Repeats term) :
      ((e.evaluate scope).run s).value.1 =
        .ok (.ofTerm ((scope.resolve term).run s).value.1) := by
    unfold Expr.evaluate
    rw [hterm.evaluateAt_eq hheight]
    rfl
  constructor
  · rintro ⟨evaluation, hevaluation, hvalue⟩
    obtain ⟨term, hterm⟩ : ∃ term, e.Repeats term := by
      refine e.repeats_of_evaluateAt (fun x hx => ?_) (Logged.ext (Prod.ext hevaluation rfl) rfl)
        hvalue
      obtain ⟨text, -, htext⟩ := hderives.exists_of_mem_literals hx
      exact ne_negativeZero_of_readNumeral? htext
    have hread := (hderives.of_mem_references hterm.mem_references).2
    rw [hresolve hterm] at hevaluation
    cases hevaluation
    rw [Evaluation.value_ofTerm, toOption_eq_some] at hvalue
    obtain ⟨column, key, hparts, hcell⟩ := (Scope.resolve_eq_negativeZero_iff hread).mp hvalue
    exact ⟨term, column, key, hterm, hparts, hcell⟩
  · rintro ⟨term, column, key, hterm, hparts, hcell⟩
    have hread := (hderives.of_mem_references hterm.mem_references).2
    refine ⟨_, hresolve hterm, ?_⟩
    rw [Evaluation.value_ofTerm, toOption_eq_some]
    exact (Scope.resolve_eq_negativeZero_iff hread).mpr ⟨column, key, hparts, hcell⟩

/-- The negative zero in a cell is handed on by plus signs and taken away by a minus sign. -/
theorem evaluate_eq_negativeZero_sample :
    let source : CellSource (StateT Unit Logged) := fun _ _ _ => pure (.found (.number (-0.0)))
    let scope : Scope (StateT Unit Logged) := { source, keyColumn := "id", settings := {} }
    let repeated : Expr := .signed .plus (.signed .plus (.reference "fee@1"))
    let negated : Expr := .signed .minus (.reference "fee@1")
    (∃ evaluation, ((repeated.evaluate scope).run ()).value.1 = .ok evaluation ∧
        evaluation.value = some (-0.0)) ∧
      ¬∃ evaluation, ((negated.evaluate scope).run ()).value.1 = .ok evaluation ∧
        evaluation.value = some (-0.0) := by
  intro source scope repeated negated
  have hrepeated : parse {} "+(+fee@1)" = .ok repeated := by decide +kernel
  have hnegated : parse {} "-fee@1" = .ok negated := by decide +kernel
  constructor
  · refine (evaluate_eq_negativeZero_iff scope (by decide) hrepeated ()).1.mpr ?_
    exact ⟨"fee@1", "fee", "1", .plus (.plus .reference), by decide +kernel, rfl⟩
  · intro h
    obtain ⟨term, -, -, hterm, -⟩ :=
      (evaluate_eq_negativeZero_iff scope (by decide) hnegated ()).1.mp h
    have hsigned : Expr.Repeats term (.signed .minus (.reference "fee@1")) := hterm
    cases hsigned

end Formula

end LedgerFields
