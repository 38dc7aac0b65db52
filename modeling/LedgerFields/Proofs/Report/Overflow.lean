import LedgerFields.Proofs.Delimited.Load
import LedgerFields.Proofs.Formula.Evaluation.Overflow
import LedgerFields.Proofs.Report.View

/-! Fields whose value is beyond the doubles. The cells of a table that is loaded are finite, and a
field that is computed from finite cells has a finite value exactly when its procedure comes upon no
overflow, which it would not report. -/

namespace LedgerFields.Report

open Number Formula

/-- The numbers that a view finds are finite. -/
def View.HasFiniteCells (v : View) : Prop :=
  ∀ column keyColumn key x, v.find column keyColumn key = .found (.number x) → x.isFinite = true

theorem hasFiniteCells_of_load {options : Delimited.Options} {content : FileContent} {t : Table}
    (h : (Delimited.load options content).run.value = .ok t) : t.view.HasFiniteCells :=
  fun _ _ _ _ hfind => Delimited.isFinite_of_searched h hfind

/-- On the way of adding the amounts to a total, an exact sum is too great for a double. -/
inductive SumOverflows : Float → List Lookup → Prop where
  | here {total : Float} {answer : Lookup} {answers : List Lookup} :
      Exceeds (· + ·) total (amount answer) → SumOverflows total (answer :: answers)
  | later {total : Float} {answer : Lookup} {answers : List Lookup} :
      SumOverflows (total + amount answer) answers → SumOverflows total (answer :: answers)

theorem isFinite_of_sum {total : Float} {answers : List Lookup}
    (h : (answers.foldl (fun total answer => total + amount answer) total).isFinite = true) :
    total.isFinite = true := by
  induction answers generalizing total with
  | nil => exact h
  | cons answer answers ih => exact (isFinite_of_add (ih h)).1

/-- A sum of finite amounts is finite exactly when it does not overflow on the way. -/
theorem isFinite_sum_iff {total : Float} {answers : List Lookup} (htotal : total.isFinite = true)
    (hamounts : ∀ answer ∈ answers, (amount answer).isFinite = true) :
    (answers.foldl (fun total answer => total + amount answer) total).isFinite = true ↔
      ¬SumOverflows total answers := by
  induction answers generalizing total with
  | nil => exact iff_of_true htotal fun hrange => nomatch hrange
  | cons answer answers ih =>
    obtain ⟨hamount, hamounts⟩ := List.forall_mem_cons.mp hamounts
    have hsum := isFinite_add_iff htotal hamount
    show (answers.foldl _ (total + amount answer)).isFinite = true ↔ _
    by_cases hfinite : (total + amount answer).isFinite = true
    · refine (ih hfinite hamounts).trans (not_congr ⟨.later, fun hrange => ?_⟩)
      cases hrange with
      | later hlater => exact hlater
      | here hexceeds => exact absurd hexceeds (hsum.mp hfinite)
    · refine iff_of_false (mt isFinite_of_sum hfinite) (not_not.mpr ?_)
      exact .here (not_not.mp (mt hsum.mpr hfinite))

/-- The exact difference of two numbers that are found is too great for a double. -/
def DifferenceOverflows : Lookup → Lookup → Prop
  | .found (.number x), .found (.number y) => Exceeds (· - ·) x y
  | _, _ => False

theorem isFinite_difference_iff {keyColumn : String} {first second : Term} {found found' : Lookup}
    {x : Float} (hfound : ∀ y, found = .found (.number y) → y.isFinite = true)
    (hfound' : ∀ y, found' = .found (.number y) → y.isFinite = true)
    (h : differenceOfFound keyColumn first second found found' = .value x) :
    x.isFinite = true ↔ ¬DifferenceOverflows found found' := by
  unfold differenceOfFound at h
  split at h
  · next y z =>
    cases h
    exact isFinite_roundHundredths_iff.trans (isFinite_sub_iff (hfound y rfl) (hfound' z rfl))
  · split at h <;> cases h
  · cases h

/-- A value is not the failure of a guard before it. -/
theorem value_of_guard {c : Prop} [Decidable c] {message : String} {outcome : Outcome} {x : Float}
    (h : (if c then .failure message else outcome) = Outcome.value x) : outcome = .value x :=
  (guard_eq_value_iff.mp h).2

theorem isFinite_amount {answer : Lookup}
    (h : ∀ x, answer = .found (.number x) → x.isFinite = true) :
    (amount answer).isFinite = true := by
  unfold amount
  split
  · exact h _ rfl
  · exact isFinite_zero

namespace View

/-- The computation of a field comes upon a number that is too great for a double. -/
def Overflows (v : View) (options : Options) (procedure : Procedure) (field : Field) : Prop :=
  match field.content, procedure with
  | .formula text, .formula =>
    TextOverflows (v.scope field.keyColumn { options.formula with strict := true }) text
  | .formula text, .flexibleFormula =>
    TextOverflows (v.scope field.keyColumn { options.formula with strict := false }) text
  | .cells codes column, .sumOfRows =>
    SumOverflows 0.0 ((distinct (listed options.listSeparator codes)).map
      (v.find (Text.trim column) (Text.trim field.keyColumn)))
  | .cells codes columns, .difference =>
    let codes := listed options.listSeparator codes
    let places := listed options.listSeparator columns
    let first : Term := ⟨codes.headD "", places.headD ""⟩
    let second : Term := ⟨codes.getD 1 first.code, places.getD 1 first.column⟩
    DifferenceOverflows (v.find first.column (Text.trim field.keyColumn) first.code)
      (v.find second.column (Text.trim field.keyColumn) second.code)
  | _, _ => False

section

variable {v : View} {keyColumn codes columns : String} {separator : Char} {x : Float}

theorem isFinite_of_singleCell (hv : v.HasFiniteCells)
    (h : v.singleCell keyColumn codes columns = .value x) : x.isFinite = true := by
  have hcell := value_of_guard (value_of_guard h)
  unfold cellOutcome at hcell
  split at hcell
  · cases hcell
  · next y hfound =>
    cases hcell
    exact hv _ _ _ _ hfound
  · cases hcell
  · cases hcell

theorem isFinite_sumOfRows_iff (hv : v.HasFiniteCells)
    (h : v.sumOfRows keyColumn codes columns separator = .value x) :
    x.isFinite = true ↔ ¬SumOverflows 0.0 ((distinct (listed separator codes)).map
      (v.find (Text.trim columns) (Text.trim keyColumn))) := by
  have hfound := value_of_guard (value_of_guard (value_of_guard h))
  have hsum := value_of_guard (value_of_guard (value_of_guard hfound))
  cases hsum
  refine isFinite_sum_iff isFinite_zero fun answer hanswer => ?_
  obtain ⟨code, -, rfl⟩ := List.mem_map.mp hanswer
  exact isFinite_amount fun y => hv _ _ _ y

end

/-- The value of a field from finite cells is finite exactly when nothing overflows. -/
theorem isFinite_outcome_iff {v : View} {options : Options} {procedure : Procedure}
    {field : Field} {x : Float} (hv : v.HasFiniteCells)
    (h : v.outcome options procedure field = .value x) :
    x.isFinite = true ↔ ¬v.Overflows options procedure field := by
  obtain ⟨id, keyColumn, content⟩ := field
  cases content with
  | formula text =>
    cases procedure with
    | formula | flexibleFormula =>
      exact isFinite_iff_of_compute (fun column key y => hv column keyColumn key y) h
    | singleCell | sumOfRows | difference => cases h
  | cells codes columns =>
    cases procedure with
    | formula | flexibleFormula => cases h
    | singleCell => exact iff_of_true (isFinite_of_singleCell hv h) not_false
    | sumOfRows => exact isFinite_sumOfRows_iff hv h
    | difference =>
      have hfound := value_of_guard (value_of_guard
        (value_of_guard (value_of_guard h)))
      exact isFinite_difference_iff (fun y => hv _ _ _ y) (fun y => hv _ _ _ y) hfound

end View

end LedgerFields.Report
