import LedgerFields.Proofs.Report.Independence
import LedgerFields.Proofs.Table.Rearranged

/-! The order of rows and columns. A field is computed from what is found by its key column, and
that does not depend on the order of the data when no two rows share a key there; so neither does
the result of a document. -/

namespace LedgerFields.Report

open Formula

/-- The views have the same columns, and find the same by this key column. -/
structure View.Agree (v v' : View) (keyColumn : String) : Prop where
  hasColumn : v'.hasColumn = v.hasColumn
  find : ∀ column key, v'.find column keyColumn key = v.find column keyColumn key

variable {v v' : View} {keyColumn : String}

theorem View.Agree.compute_eq (h : v.Agree v' keyColumn) (settings : Settings) (formula : String) :
    compute (v'.scope keyColumn settings) formula =
      compute (v.scope keyColumn settings) formula := by
  have hresolve (term : String) : (v'.scope keyColumn settings).resolve term =
      (v.scope keyColumn settings).resolve term := by
    unfold Scope.resolve
    simp only [View.scope, h.find]
  have hsettings : (v'.scope keyColumn settings).settings = (v.scope keyColumn settings).settings :=
    rfl
  have hevaluate (e : Expr) : e.evaluate (v'.scope keyColumn settings) =
      e.evaluate (v.scope keyColumn settings) :=
    congrArg ExceptT.run (e.evaluateAt_congr hsettings hresolve 1)
  unfold compute
  simp only [hevaluate]
  rfl

/-- The outcome of a field depends on what is found by its key column only. -/
theorem View.Agree.outcome_eq {field : Field} (h : v.Agree v' field.keyColumn)
    (htrim : Text.trim field.keyColumn = field.keyColumn) (options : Options)
    (procedure : Procedure) :
    v'.outcome options procedure field = v.outcome options procedure field := by
  obtain ⟨id, keyColumn, content⟩ := field
  cases content with
  | formula text =>
    cases procedure with
    | formula | flexibleFormula => exact h.compute_eq _ text
    | singleCell | sumOfRows | difference => rfl
  | cells codes columns =>
    simp only at htrim
    cases procedure with
    | singleCell => simp only [outcome, singleCell, htrim, h.hasColumn, h.find]
    | sumOfRows =>
      have hfind (column : String) : v'.find column keyColumn = v.find column keyColumn :=
        funext (h.find column)
      simp only [outcome, sumOfRows, htrim, h.hasColumn, hfind]
    | difference => simp only [outcome, difference, htrim, h.hasColumn, h.find]
    | formula | flexibleFormula => rfl

/-- The key column of a field that has been read holds no blanks at its ends. -/
theorem trim_keyColumn {procedure : Procedure} {separator : Char} {special : Option Bool}
    {item : Json} {field : Field}
    (h : Document.readField procedure separator special item = .ok field) :
    Text.trim field.keyColumn = field.keyColumn := by
  obtain ⟨_, _, _, _, -, -, -, -, rfl⟩ := Document.readField_eq_ok.mp h
  exact Text.trim_dropBlanks _

variable {options : Options} {t t' : Table} {d : Document}

/-- The order of rows and columns does not matter where keys are distinct: on two tables that differ
in it only, a document has the same entries, or the same fault. -/
theorem computeDocument_rearranged (ht : t.Reachable) (ht' : t'.Reachable)
    (hsame : t.Rearranged t')
    (hkeys : ∀ groups, (d.groups options.sideSeparator).run.value = .ok groups →
      ∀ group ∈ groups, ∀ field ∈ group.fields, t.KeysDistinct field.keyColumn) :
    (computeDocument options t' d).run.value = (computeDocument options t d).run.value := by
  cases hgroups : (d.groups options.sideSeparator).run.value with
  | error fault =>
    rw [value_computeDocument, value_computeDocument, hgroups]
    rfl
  | ok groups =>
    have hentries (group : Group) (hgroup : group ∈ groups) :
        t'.view.groupEntries options group = t.view.groupEntries options group := by
      refine List.map_congr_left fun field hfield => congrArg (Entry.field field.id) ?_
      obtain ⟨item, hitem⟩ := Document.exists_readField hgroups hgroup hfield
      have hagree : t.view.Agree t'.view field.keyColumn :=
        ⟨hsame.hasColumn_eq, hsame.searched_eq ht.sound ht'.sound
          (hkeys groups hgroups group hgroup field hfield)⟩
      exact hagree.outcome_eq (trim_keyColumn hitem) options group.procedure
    have hcomputed := (computeDocument_eq_ok ht.sound).mpr ⟨groups, hgroups, rfl⟩
    have hcomputed' := (computeDocument_eq_ok ht'.sound).mpr ⟨groups, hgroups, rfl⟩
    rw [hcomputed, hcomputed', List.flatMap_congr hentries]

theorem computeDocument_rearranged_sample :
    let made : Table := ⟨["k", "v"].map Text.trim, #[], ["k", "v"].map fun _ => none⟩
    let made' : Table := ⟨["v", "k"].map Text.trim, #[], ["v", "k"].map fun _ => none⟩
    let t : Table := made.after [.push [.text "a", .number 1], .push [.text "b", .number 2]]
    let t' : Table := made'.after [.push [.number 2, .text "b"], .push [.number 1, .text "a"]]
    let cell : Json := .object [("id", .integer 1), ("account_col_name", .string "k"),
      ("account_code", .string "b"), ("value_col_name", .string "v")]
    let formula : Json := .object [("id", .integer 2), ("account_col_name", .string "k"),
      ("micro_formula", .string "v@a + v@c")]
    let d : Document := ⟨[("single_cell", .array [cell]), ("micro_calc", .array [formula])],
      by simp⟩
    t.Rearranged t' ∧ t.KeysDistinct "k" ∧
      (computeDocument {} t' d).run.value = (computeDocument {} t d).run.value := by
  intro made made' t t' cell formula d
  have hmade : Table.ofColumns ["k", "v"] = .ok made :=
    Table.ofColumns_eq_ok.mpr ⟨by simp, by decide +kernel, rfl⟩
  have hmade' : Table.ofColumns ["v", "k"] = .ok made' :=
    Table.ofColumns_eq_ok.mpr ⟨by simp, by decide +kernel, rfl⟩
  have hcolumns : t.columns = ["k", "v"] := by decide +kernel
  have hcolumns' : t'.columns = ["v", "k"] := by decide +kernel
  have hrows : t.rows.toList = [[.text "a", .number 1], [.text "b", .number 2]] := by
    decide +kernel
  have hrows' : t'.rows.toList = [[.number 2, .text "b"], [.number 1, .text "a"]] := by
    decide +kernel
  have hsame : t.Rearranged t' := by
    constructor
    · rw [hcolumns, hcolumns']
      exact .swap _ _ _
    · unfold Table.namedRows
      rw [hcolumns, hcolumns', hrows, hrows']
      have hrow (x y : String × Cell) : (↑[x, y] : NamedRow) = ↑[y, x] :=
        Multiset.coe_eq_coe.mpr (.swap _ _ _)
      simp only [List.map_cons, List.map_nil, List.zip_cons_cons, List.zip_nil_right, hrow ("v", _)]
      exact .swap _ _ _
  have hkeys : t.KeysDistinct "k" := by
    intro position hposition
    have hkeys : t.keys 0 = ["a", "b"] := by decide +kernel
    rw [hcolumns] at hposition
    rcases position with _ | _ | position
    · rw [hkeys]
      decide
    · simp at hposition
    · simp at hposition
  refine ⟨hsame, hkeys, computeDocument_rearranged ⟨_, made, _, hmade, rfl⟩
    ⟨_, made', _, hmade', rfl⟩ hsame fun groups hgroups group hgroup field hfield => ?_⟩
  have hnames : ∀ names ∈ (d.groups ':').run.value.toOption.map
      (·.map fun group => group.fields.map Field.keyColumn), names = [["k"], ["k"]] := by
    decide +kernel
  have hread : groups.map (fun group => group.fields.map Field.keyColumn) = [["k"], ["k"]] :=
    hnames _ (by rw [hgroups]; rfl)
  have hgroup : group.fields.map Field.keyColumn = ["k"] := by
    have hmem : group.fields.map Field.keyColumn ∈
        groups.map fun group => group.fields.map Field.keyColumn := List.mem_map_of_mem hgroup
    rw [hread] at hmem
    simpa using hmem
  have hfield := List.mem_map_of_mem (f := Field.keyColumn) hfield
  rw [hgroup, List.mem_singleton] at hfield
  rwa [hfield]

end LedgerFields.Report
