import LedgerFields.Proofs.Formula.Evaluation.Equations
import LedgerFields.Proofs.Formula.Evaluation.Flexible
import LedgerFields.Proofs.Table.Sound
import LedgerFields.Report.Batch

/-! What the computation of a field sees of a table: which columns there are, and what a search
through the rows finds. A field is computed from this alone, whatever key indexes have been made. -/

namespace LedgerFields.Report

/-- What a table shows to the computation of a field. -/
structure View where
  hasColumn : String → Bool
  find : Formula.CellSource Id

end LedgerFields.Report

namespace LedgerFields.Table

open Report (View)

variable {t t' : Table}

/-- The table as a search through its rows sees it. -/
def view (t : Table) : View := ⟨t.hasColumn, t.searched⟩

theorem SameData.view_eq (h : SameData t t') : t'.view = t.view := by
  have hcolumn : t'.hasColumn = t.hasColumn := by
    funext name
    unfold hasColumn
    rw [h.columnIndex?_eq]
  have hsearched : t'.searched = t.searched := by
    funext column keyColumn key
    exact h.searched_eq column keyColumn key
  unfold view
  rw [hcolumn, hsearched]

end LedgerFields.Table

namespace LedgerFields.Report

open Formula

/-- On every sound table the computation answers what `f` says of its view, and the table stays
sound and keeps its data. -/
def Views {α : Type} (x : TableM α) (f : View → α) : Prop :=
  ∀ t : Table, t.Sound → t.Yields x (f t.view)

namespace Views

section

variable {α β ε : Type}

theorem congr {x : TableM α} {f g : View → α} (h : Views x f) (hfg : ∀ v, f v = g v) :
    Views x g := by
  obtain rfl : f = g := funext hfg
  exact h

/-- What a computation answers on a sound table. -/
theorem value_run {x : TableM α} {f : View → α} (h : Views x f) {t : Table} (ht : t.Sound) :
    (x.run t).value.1 = f t.view := by
  obtain ⟨t', notices, hrun, -⟩ := h t ht
  rw [hrun]

theorem pure (a : α) : Views (pure a) fun _ => a := fun _ ht => .pure ht a

theorem bind {x : TableM α} {f : View → α} {y : α → TableM β} {g : α → View → β}
    (hx : Views x f) (hy : ∀ a, Views (y a) (g a)) : Views (x >>= y) fun v => g (f v) v := by
  intro t ht
  refine (hx t ht).bind fun t' hsame hsound => ?_
  rw [← hsame.view_eq]
  exact hy _ t' hsound

theorem map {x : TableM α} {f : View → α} (hx : Views x f) (g : α → β) :
    Views (g <$> x) fun v => g (f v) := by
  rw [map_eq_pure_bind]
  exact hx.bind fun a => .pure (g a)

theorem mapM {f : α → TableM β} {g : α → View → β} (h : ∀ x, Views (f x) (g x)) (xs : List α) :
    Views (xs.mapM f) fun v => xs.map (g · v) := by
  induction xs with
  | nil => exact .pure []
  | cons x xs ih =>
    rw [List.mapM_cons]
    exact (h x).bind fun y => ih.bind fun ys => .pure (y :: ys)

/-- A computation that answers at once under a condition. -/
theorem guard {x : TableM α} {f : View → α} (c : Prop) [Decidable c] (a : α) (hx : Views x f) :
    Views (if c then Pure.pure a else x) fun v => if c then a else f v := by
  split
  · exact .pure a
  · exact hx

/-- A computation that answers at once under a condition on the columns of the table. -/
theorem guardView {x : TableM α} {f : View → α} (c : View → Bool) (a : α) (hx : Views x f) :
    Views (get >>= fun t => if c t.view then Pure.pure a else x) fun v =>
      if c v then a else f v := by
  intro t ht
  refine .get ?_
  show t.Yields (if c t.view then Pure.pure a else x) (if c t.view then a else f t.view)
  split
  · exact .pure ht a
  · exact hx t ht

/-- Of two steps that may fail, the second is taken when the first does not. -/
theorem bindExcept {x : ExceptT ε TableM α} {f : View → ExceptT ε Id α}
    {y : α → ExceptT ε TableM β} {g : α → View → ExceptT ε Id β}
    (hx : Views x.run fun v => (f v).run) (hy : ∀ a, Views (y a).run fun v => (g a v).run) :
    Views (x >>= y).run fun v => (f v >>= fun a => g a v).run := by
  have hbind : Views (x >>= y).run fun v => match (f v).run with
      | .ok a => (g a v).run
      | .error e => .error e := by
    refine Views.bind (g := fun result v => match result with
      | .ok a => (g a v).run
      | .error e => .error e) hx fun result => ?_
    cases result with
    | error e => exact .pure _
    | ok a => exact hy a
  refine hbind.congr fun v => ?_
  rw [ExceptT.run_bind]
  cases (f v).run <;> rfl

end

theorem lookup (column keyColumn key : String) :
    Views (Table.lookup column keyColumn key) fun v => v.find column keyColumn key :=
  fun _ ht => ht.lookup column keyColumn key

theorem lookupAll (column keyColumn : String) (keys : List String) :
    Views (Table.lookupAll column keyColumn keys) fun v => keys.map (v.find column keyColumn) :=
  fun _ ht => ht.lookupAll column keyColumn keys

end Views

/-- The view as a source of cells. -/
def View.scope (v : View) (keyColumn : String) (settings : Settings) : Scope Id :=
  ⟨v.find, keyColumn, settings⟩

section

variable {keyColumn : String} {settings : Settings}

theorem views_resolve (term : String) :
    Views ((tableScope keyColumn settings).resolve term) fun v =>
      (v.scope keyColumn settings).resolve term := by
  unfold Scope.resolve
  cases Number.readNumeral? term with
  | some x => exact .pure _
  | none =>
    dsimp only [tableScope, View.scope]
    cases Text.splitOnce? settings.separator term with
    | none => exact .pure _
    | some parts =>
      refine Views.bind (g := fun answer _ => settings.lookupValue term answer)
        (Views.lookup _ _ _) fun answer => ?_
      cases answer <;> exact .pure _

theorem views_checkDepth (limit depth : Nat) :
    Views (checkDepth limit depth : ExceptT FormulaFault TableM PUnit).run fun _ =>
      (checkDepth limit depth : ExceptT FormulaFault Id PUnit).run := by
  unfold checkDepth
  split <;> exact .pure _

theorem views_evaluateAt (e : Expr) (depth : Nat) :
    Views (e.evaluateAt (tableScope keyColumn settings) depth).run fun v =>
      (e.evaluateAt (v.scope keyColumn settings) depth).run := by
  induction e generalizing depth with
  | literal x =>
    simp only [Expr.evaluateAt_literal]
    exact (views_checkDepth _ _).bindExcept fun _ => .pure _
  | reference term =>
    simp only [Expr.evaluateAt_reference]
    refine (views_checkDepth _ _).bindExcept fun _ => .bindExcept ?_ fun _ => .pure _
    exact (views_resolve term).map Except.ok
  | signed sign operand ih =>
    simp only [Expr.evaluateAt_signed]
    exact (views_checkDepth _ _).bindExcept fun _ => (ih _).bindExcept fun _ => .pure _
  | binary op left right ihl ihr =>
    simp only [Expr.evaluateAt_binary]
    exact (ihl _).bindExcept fun l => (ihr _).bindExcept fun r => .pure _

theorem views_compute (formula : String) :
    Views (compute (tableScope keyColumn settings) formula) fun v =>
      compute (v.scope keyColumn settings) formula := by
  unfold compute
  dsimp only [tableScope, View.scope]
  cases parse settings formula with
  | error fault => exact .pure _
  | ok e =>
    refine Views.bind (g := fun result _ => outcomeOf result) (views_evaluateAt e 1)
      fun result => ?_
    cases result <;> exact .pure _

end

/-! ### Fields that are computed from cells directly -/

/-- A value is there when no guard has failed before it. -/
theorem guard_eq_value_iff {c : Prop} [Decidable c] {message : String} {outcome : Outcome}
    {x : Float} : (if c then .failure message else outcome) = Outcome.value x ↔
      ¬c ∧ outcome = .value x := by
  split
  · next h => exact ⟨fun h' => (by cases h'), fun h' => absurd h h'.1⟩
  · next h => exact ⟨fun h' => ⟨h, h'⟩, fun h' => h'.2⟩

namespace View

/-- The value of one cell, from a view. -/
def singleCell (v : View) (keyColumn accountCode valueColumn : String) : Outcome :=
  let settings := [keyColumn, accountCode, valueColumn]
  let column := Text.trim keyColumn
  let place := Text.trim valueColumn
  let code := Text.trim accountCode
  if settings.any Text.isBlankText then
    blankSettings settings
  else if !v.hasColumn column || !v.hasColumn place then
    columnsMissing column place
  else
    cellOutcome column code place (v.find place column code)

/-- The sum of one column over several rows, from a view. -/
def sumOfRows (v : View) (keyColumn accountCodes valueColumn : String) (separator : Char) :
    Outcome :=
  let settings := [keyColumn, accountCodes, valueColumn]
  let column := Text.trim keyColumn
  let place := Text.trim valueColumn
  let codes := listed separator accountCodes
  if settings.any Text.isBlankText then
    blankSettings settings
  else if codes.length < 2 then
    tooFewCodes
  else if !v.hasColumn column || !v.hasColumn place then
    columnsMissing column place
  else
    sumOfFound (distinct codes) column place ((distinct codes).map (v.find place column))

/-- The difference of two cells, from a view. -/
def difference (v : View) (keyColumn accountCodes valueColumns : String) (separator : Char) :
    Outcome :=
  let settings := [keyColumn, accountCodes, valueColumns]
  let column := Text.trim keyColumn
  let codes := listed separator accountCodes
  let places := listed separator valueColumns
  let first : Term := ⟨codes.headD "", places.headD ""⟩
  let second : Term := ⟨codes.getD 1 first.code, places.getD 1 first.column⟩
  if settings.any Text.isBlankText then
    blankSettings settings
  else if 2 < codes.length then
    tooManyCodes
  else if 2 < places.length then
    tooManyColumns
  else if [column, first.column, second.column].any fun name => !v.hasColumn name then
    termColumnsMissing column first second
  else
    differenceOfFound column first second (v.find first.column column first.code)
      (v.find second.column column second.code)

/-- The outcome of a field, from a view. -/
def outcome (v : View) (options : Options) (procedure : Procedure) (field : Field) : Outcome :=
  match field.content, procedure with
  | .formula text, .formula =>
    compute (v.scope field.keyColumn { options.formula with strict := true }) text
  | .formula text, .flexibleFormula =>
    compute (v.scope field.keyColumn { options.formula with strict := false }) text
  | .cells code column, .singleCell => v.singleCell field.keyColumn code column
  | .cells codes column, .sumOfRows =>
    v.sumOfRows field.keyColumn codes column options.listSeparator
  | .cells codes columns, .difference =>
    v.difference field.keyColumn codes columns options.listSeparator
  | content, procedure => mismatch content procedure

end View

theorem views_singleCell (keyColumn accountCode valueColumn : String) :
    Views (singleCell keyColumn accountCode valueColumn)
      (·.singleCell keyColumn accountCode valueColumn) := by
  apply Views.guard
  exact .guardView (fun v => !v.hasColumn (Text.trim keyColumn) ||
    !v.hasColumn (Text.trim valueColumn)) _ ((Views.lookup _ _ _).map _)

theorem views_sumOfRows (keyColumn accountCodes valueColumn : String) (separator : Char) :
    Views (sumOfRows keyColumn accountCodes valueColumn separator)
      (·.sumOfRows keyColumn accountCodes valueColumn separator) := by
  apply Views.guard
  apply Views.guard
  exact .guardView (fun v => !v.hasColumn (Text.trim keyColumn) ||
    !v.hasColumn (Text.trim valueColumn)) _ ((Views.lookupAll _ _ _).map _)

theorem views_difference (keyColumn accountCodes valueColumns : String) (separator : Char) :
    Views (difference keyColumn accountCodes valueColumns separator)
      (·.difference keyColumn accountCodes valueColumns separator) := by
  apply Views.guard
  apply Views.guard
  apply Views.guard
  refine Views.guardView (fun v => [_, _, _].any fun name => !v.hasColumn name) _ ?_
  exact (Views.lookup _ _ _).bind fun x => (Views.lookup _ _ _).map _

/-- A field has the outcome that the view of the table gives. -/
theorem views_computeField (options : Options) (procedure : Procedure) (field : Field) :
    Views (computeField options procedure field) (·.outcome options procedure field) := by
  obtain ⟨id, keyColumn, content⟩ := field
  cases content with
  | formula text =>
    cases procedure with
    | formula | flexibleFormula => exact views_compute text
    | singleCell | sumOfRows | difference => exact .pure _
  | cells codes columns =>
    cases procedure with
    | singleCell => exact views_singleCell _ _ _
    | sumOfRows => exact views_sumOfRows _ _ _ _
    | difference => exact views_difference _ _ _ _
    | formula | flexibleFormula => exact .pure _

end LedgerFields.Report
