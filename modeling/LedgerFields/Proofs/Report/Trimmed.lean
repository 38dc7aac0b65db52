import LedgerFields.Proofs.Delimited.Trimmed
import LedgerFields.Proofs.Formula.Evaluation.Values
import LedgerFields.Proofs.Report.Finite
import LedgerFields.Proofs.Report.Identity

/-! Tables that are loaded with and without the blanks around fields. They have the same columns,
their cells differ in the blanks around texts only, and rows are found in both by the same keys. So
every field has the same value on both, or on both none, though a message may show a text. -/

namespace LedgerFields

namespace Report

open Formula

/-- The view with the blanks around the texts that are found dropped. -/
def View.trimmed (v : View) : View :=
  ⟨v.hasColumn, fun column keyColumn key => (v.find column keyColumn key).trimmed⟩

theorem view_trimmed (t : Table) : t.trimmed.view = t.view.trimmed := by
  have hsearched : t.trimmed.searched =
      fun column keyColumn key => (t.searched column keyColumn key).trimmed := by
    funext column keyColumn key
    exact t.searched_trimmed column keyColumn key
  unfold Table.view View.trimmed
  rw [hsearched]
  rfl

/-! ### Fields that are computed from cells directly -/

theorem cellOutcome_trimmed (keyColumn code column : String) (answer : Lookup) :
    cellOutcome keyColumn code column answer.trimmed =
      cellOutcome keyColumn code column answer :=
  answer.apply_trimmed (cellOutcome keyColumn code column) fun _ => rfl

theorem differenceOfFound_trimmed (keyColumn : String) (first second : Term) (x y : Lookup) :
    differenceOfFound keyColumn first second x.trimmed y.trimmed =
      differenceOfFound keyColumn first second x y := by
  rcases x with (_ | _ | _) | _ <;> rcases y with (_ | _ | _) | _ <;> rfl

theorem sumOfFound_trimmed (codes : List String) (keyColumn valueColumn : String)
    (answers : List Lookup) :
    sumOfFound codes keyColumn valueColumn (answers.map Lookup.trimmed) =
      sumOfFound codes keyColumn valueColumn answers := by
  have hany (p : Lookup → Bool)
      (hp : ∀ s, p (.found (.text (Text.trim s))) = p (.found (.text s))) :
      (answers.map Lookup.trimmed).any p = answers.any p := by
    rw [List.any_map]
    exact congrArg answers.any (funext (Lookup.apply_trimmed p hp))
  have hamount (answer : Lookup) : amount answer.trimmed = amount answer :=
    answer.apply_trimmed amount fun _ => rfl
  unfold sumOfFound
  rw [hany _ fun _ => rfl, hany _ fun _ => rfl, hany _ fun _ => rfl, List.foldl_map]
  simp only [hamount]

section

variable (v : View) (keyColumn accountCodes valueColumns : String) (separator : Char)

theorem singleCell_trimmed : v.trimmed.singleCell keyColumn accountCodes valueColumns =
    v.singleCell keyColumn accountCodes valueColumns := by
  unfold View.singleCell View.trimmed
  simp only [cellOutcome_trimmed]

theorem sumOfRows_trimmed : v.trimmed.sumOfRows keyColumn accountCodes valueColumns separator =
    v.sumOfRows keyColumn accountCodes valueColumns separator := by
  have hanswers (column place : String) (codes : List String) :
      codes.map (v.trimmed.find place column) =
        (codes.map (v.find place column)).map Lookup.trimmed := by
    rw [List.map_map]
    rfl
  unfold View.sumOfRows
  simp only [hanswers, sumOfFound_trimmed]
  rfl

theorem difference_trimmed : v.trimmed.difference keyColumn accountCodes valueColumns separator =
    v.difference keyColumn accountCodes valueColumns separator := by
  unfold View.difference View.trimmed
  simp only [differenceOfFound_trimmed]

end

/-! ### Formulas -/

theorem toOption_lookupValue_trimmed (settings : Settings) (term : String) (answer : Lookup) :
    (settings.lookupValue term answer.trimmed).toOption =
      (settings.lookupValue term answer).toOption :=
  answer.apply_trimmed (fun answer => (settings.lookupValue term answer).toOption) fun _ => rfl

theorem toOption_resolve_trimmed (v : View) (keyColumn : String) (settings : Settings)
    (term : String) :
    ((v.trimmed.scope keyColumn settings).resolve term : Except TermFault Float).toOption =
      ((v.scope keyColumn settings).resolve term : Except TermFault Float).toOption := by
  cases hnumeral : Number.readNumeral? term with
  | some x => rw [Scope.resolve_numeral hnumeral, Scope.resolve_numeral hnumeral]
  | none =>
    cases hparts : Text.splitOnce? settings.separator term with
    | none =>
      have hresolve (v : View) : (v.scope keyColumn settings).resolve term =
          (.error (.malformed term settings.separator) : Except TermFault Float) :=
        Scope.resolve_malformed hnumeral hparts
      rw [hresolve, hresolve]
    | some parts =>
      obtain ⟨column, key⟩ := parts
      have hresolve (v : View) : (v.scope keyColumn settings).resolve term =
          settings.lookupValue term (v.find column keyColumn key) :=
        Scope.resolve_reference hnumeral hparts
      rw [hresolve, hresolve]
      exact toOption_lookupValue_trimmed settings term _

theorem value?_compute_trimmed (v : View) (keyColumn : String) (settings : Settings)
    (formula : String) :
    (compute (v.trimmed.scope keyColumn settings) formula : Outcome).value? =
      (compute (v.scope keyColumn settings) formula : Outcome).value? := by
  have hsettings : (v.trimmed.scope keyColumn settings).settings =
      (v.scope keyColumn settings).settings := rfl
  exact value?_compute_congr hsettings (toOption_resolve_trimmed v keyColumn settings) formula

/-- A field has the same value, if it has one. -/
theorem value?_outcome_trimmed (v : View) (options : Options) (procedure : Procedure)
    (field : Field) :
    (v.trimmed.outcome options procedure field).value? =
      (v.outcome options procedure field).value? := by
  obtain ⟨id, keyColumn, content⟩ := field
  cases content with
  | formula text =>
    cases procedure with
    | formula | flexibleFormula =>
      exact value?_compute_trimmed v keyColumn _ text
    | singleCell | sumOfRows | difference => rfl
  | cells codes columns =>
    cases procedure with
    | singleCell => exact congrArg Outcome.value? (singleCell_trimmed v _ _ _)
    | sumOfRows => exact congrArg Outcome.value? (sumOfRows_trimmed v _ _ _ _)
    | difference => exact congrArg Outcome.value? (difference_trimmed v _ _ _ _)
    | formula | flexibleFormula => rfl

/-! ### Documents -/

/-- The entries are of the same field and have the same value, if they have one. -/
def Entry.SameResult (entry entry' : Entry) : Prop :=
  entry.id? = entry'.id? ∧ entry.value? = entry'.value?

theorem errorOf?_computeDocument (options : Options) (t : Table) (d : Document) :
    errorOf? (computeDocument options t d).run.value =
      errorOf? (d.groups options.sideSeparator).run.value := by
  rw [value_computeDocument]
  exact errorOf?_map _ _

variable {options : Options} {t : Table} {d : Document} {entries entries' : List Entry}

theorem forall₂_groupEntries_trimmed (v : View) (options : Options) (group : Group) :
    List.Forall₂ Entry.SameResult (v.trimmed.groupEntries options group)
      (v.groupEntries options group) := by
  unfold View.groupEntries
  rw [List.forall₂_map_left_iff, List.forall₂_map_right_iff, List.forall₂_same]
  exact fun field _ => ⟨rfl, value?_outcome_trimmed v options group.procedure field⟩

theorem forall₂_computeDocument_trimmed (ht : t.Sound) (htrimmed : t.trimmed.Sound)
    (h : (computeDocument options t.trimmed d).run.value = .ok entries)
    (h' : (computeDocument options t d).run.value = .ok entries') :
    List.Forall₂ Entry.SameResult entries entries' := by
  obtain ⟨groups, hgroups, rfl⟩ := (computeDocument_eq_ok htrimmed).mp h
  obtain ⟨groups', hgroups', rfl⟩ := (computeDocument_eq_ok ht).mp h'
  obtain rfl : groups = groups' := Except.ok.inj (hgroups.symm.trans hgroups')
  rw [view_trimmed]
  refine List.rel_flatMap (List.forall₂_same.mpr fun group _ => rfl) ?_
  rintro group _ rfl
  exact forall₂_groupEntries_trimmed t.view options group

/-- A file is loaded with the blanks around fields just when it is loaded without them. The columns
are the same, there are as many rows, and cells are the same but for the blanks around texts. Rows
are found by the same keys, a document has the same fault, and its fields have the same values. -/
theorem trim_changes_blanks_only (options : Delimited.Options) (content : FileContent) :
    let trimmed := (Delimited.load (options.withTrim true) content).run.value
    let kept := (Delimited.load (options.withTrim false) content).run.value
    ((∃ t, trimmed = .ok t) ↔ ∃ t', kept = .ok t') ∧
      ∀ t t', trimmed = .ok t → kept = .ok t' →
        t.columns = t'.columns ∧
        List.Forall₂ (List.Forall₂ Cell.Alike) t.rows.toList t'.rows.toList ∧
        (∀ keyColumn key, ((Table.rowOf keyColumn key).run t).value.1 =
          ((Table.rowOf keyColumn key).run t').value.1) ∧
        ∀ (reporting : Options) (d : Document),
          errorOf? (computeDocument reporting t d).run.value =
            errorOf? (computeDocument reporting t' d).run.value ∧
          ∀ entries entries', (computeDocument reporting t d).run.value = .ok entries →
            (computeDocument reporting t' d).run.value = .ok entries' →
            List.Forall₂ Entry.SameResult entries entries' := by
  intro trimmed kept
  have htrimmed : trimmed.toOption = kept.toOption.map Table.trimmed :=
    Delimited.toOption_load_trim options content
  have hof {t' : Table} (h' : kept = .ok t') : trimmed = .ok t'.trimmed := by
    rw [h'] at htrimmed
    exact toOption_eq_some.mp htrimmed
  refine ⟨⟨fun ⟨t, ht⟩ => ?_, fun ⟨t', ht'⟩ => ⟨_, hof ht'⟩⟩, fun t t' ht ht' => ?_⟩
  · rw [ht] at htrimmed
    obtain ⟨t', ht', -⟩ := Option.map_eq_some_iff.mp htrimmed.symm
    exact ⟨t', toOption_eq_some.mp ht'⟩
  · obtain rfl : t = t'.trimmed := Except.ok.inj (ht.symm.trans (hof ht'))
    have hsound := Delimited.sound_of_load ht
    have hsound' := Delimited.sound_of_load ht'
    refine ⟨rfl, t'.forall₂_alike_trimmed, fun keyColumn key => ?_, fun reporting d => ⟨?_, ?_⟩⟩
    · rw [hsound.value_rowOf, hsound'.value_rowOf, Table.search?_trimmed]
    · rw [errorOf?_computeDocument, errorOf?_computeDocument]
    · exact fun entries entries' h h' => forall₂_computeDocument_trimmed hsound' hsound h h'

/-- Blanks around a name, a key and a number, and around a text. -/
def spaced : FileContent := .ok (Text.toBytes " k , v \n a , x y \nb , 2\n")

theorem load_spaced (trim : Bool) : ∃ t,
    (Delimited.load (({} : Delimited.Options).withTrim trim) spaced).run.value = .ok t ∧
      t.rows.toList =
        [[.text (if trim then "a" else " a "), .text (if trim then "x y" else " x y ")],
          [.text (if trim then "b" else "b "), .number 2]] :=
  map_eq_ok.mp (toOption_eq_some.mp (by cases trim <;> decide +kernel))

/-- The cells of both keys. -/
def spacedCells : Document :=
  let item (id : Int) (key : String) : Json :=
    .object [("id", .integer id), ("account_col_name", .string "k"),
      ("account_code", .string key), ("value_col_name", .string "v")]
  ⟨[("single_cell", .array [item 1 "a", item 2 "b"])], by simp⟩

/-- The texts of the tables differ, and the results do not. -/
theorem trim_changes_blanks_sample : ∃ t t' entries entries',
    (Delimited.load (({} : Delimited.Options).withTrim true) spaced).run.value = .ok t ∧
    (Delimited.load (({} : Delimited.Options).withTrim false) spaced).run.value = .ok t' ∧
    t.rows.toList ≠ t'.rows.toList ∧
    ((Table.rowOf "k" "b").run t).value.1 = ((Table.rowOf "k" "b").run t').value.1 ∧
    (computeDocument {} t spacedCells).run.value = .ok entries ∧
    (computeDocument {} t' spacedCells).run.value = .ok entries' ∧
    List.Forall₂ Entry.SameResult entries entries' := by
  obtain ⟨t, ht, hrows⟩ := load_spaced true
  obtain ⟨t', ht', hrows'⟩ := load_spaced false
  obtain ⟨-, -, hfound, hresults⟩ := (trim_changes_blanks_only {} spaced).2 t t' ht ht'
  obtain ⟨hfault, hsame⟩ := hresults {} spacedCells
  have hfault' : errorOf? (computeDocument {} t' spacedCells).run.value = none := by
    rw [errorOf?_computeDocument]
    decide +kernel
  obtain ⟨entries, h⟩ := errorOf?_eq_none.mp (hfault.trans hfault')
  obtain ⟨entries', h'⟩ := errorOf?_eq_none.mp hfault'
  refine ⟨t, t', entries, entries', ht, ht', ?_, hfound "k" "b", h, h', hsame _ _ h h'⟩
  rw [hrows, hrows']
  decide +kernel

end Report

end LedgerFields
