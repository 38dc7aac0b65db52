import LedgerFields.Proofs.Report.Independence
import LedgerFields.Proofs.Report.Overflow

/-! Finite values. A value that is infinite or no number has no text in a result: it is written as
null, and so is the error then, so that the entry says nothing at all. This comes about exactly when
the computation of the field overflows. -/

namespace LedgerFields

open Number

theorem Json.realText_eq_null_iff {x : Float} : realText x = "null" ↔ ¬x.isFinite = true := by
  rw [isFinite_iff]
  unfold realText resultText?
  split
  · next negative mantissa exponent hx =>
    refine iff_of_false (fun htext => ?_) (not_not.mpr ⟨negative, mantissa, exponent, hx⟩)
    obtain ⟨c, hc, hdigit⟩ :=
      exists_isDigit_finiteText NumberStyle.result negative mantissa exponent
    rw [Option.getD_some] at htext
    rw [htext] at hc
    have hnone : ∀ c ∈ "null".toList, ¬c.isDigit = true := by simp
    exact hnone c hc hdigit
  · next hx => exact iff_of_true rfl fun ⟨_, _, _, h⟩ => hx _ _ _ h

theorem Json.quoted_ne_null (s : String) : quoted s ≠ "null" := by
  intro h
  have hchars := congrArg String.toList h
  rw [quoted, String.toList_ofList] at hchars
  cases hchars

namespace Report

/-- The value of an entry that has one. -/
def Entry.value? : Entry → Option Float
  | field _ outcome => outcome.value?
  | aborted _ => none

/-- The text that an entry has in the result under a key. -/
def Entry.memberText? (entry : Entry) (key : String) : Option String :=
  match entry.toJson with
  | .object members => (Json.member? members key).map Json.text
  | _ => none

/-- Of its value and its error the entry shows one in the result, and null for the other. -/
def Entry.ShowsOne (entry : Entry) : Prop :=
  Xor (entry.memberText? "value" ≠ some "null") (entry.memberText? "error" ≠ some "null")

theorem Entry.showsOne_field_iff (id : Json) (outcome : Outcome) :
    (Entry.field id outcome).ShowsOne ↔ ∀ x, outcome.value? = some x → x.isFinite = true := by
  cases outcome with
  | value x =>
    show Xor (some (Json.realText x) ≠ some "null") (some "null" ≠ some "null") ↔
      ∀ y, some x = some y → y.isFinite = true
    simp [Xor, Json.realText_eq_null_iff]
  | failure message =>
    show Xor (some "null" ≠ some "null") (some (Json.quoted message) ≠ some "null") ↔
      ∀ y : Float, none = some y → y.isFinite = true
    simp [Xor, Json.quoted_ne_null]

theorem eq_value_of_value? {outcome : Outcome} {x : Float} (h : outcome.value? = some x) :
    outcome = .value x := by
  cases outcome with
  | value y => exact congrArg Outcome.value (Option.some.inj h)
  | failure message => cases h

variable {options : Options} {content : FileContent} {t t' : Table} {d : Document}
  {entries : List Entry}

/-- The entries of a document on a table that was loaded, whichever key indexes have been made
since. A value is finite exactly when the computation of its field comes upon no number that is too
great for a double. An entry shows one of its value and its error exactly when it has no value or a
finite one. -/
theorem value_finite_iff_no_overflow
    (hload : (Delimited.load options.data content).run.value = .ok t)
    (ht' : t'.Reachable) (hsame : t.SameData t')
    (h : (computeDocument options t' d).run.value = .ok entries) :
    List.Forall₂ (fun item entry => ∃ field,
        Document.readField item.1 options.sideSeparator d.special? item.2 = .ok field ∧
        (∀ x, entry.value? = some x →
          (x.isFinite = true ↔ ¬t.view.Overflows options item.1 field)) ∧
        (entry.ShowsOne ↔ ∀ x, entry.value? = some x → x.isFinite = true))
      d.items entries := by
  refine (forall₂_computeDocument ht'.sound h).imp fun item entry hentry => ?_
  obtain ⟨field, hfield, rfl⟩ := hentry
  have hview : t'.fresh.view = t.view :=
    (Table.sameData_fresh t').view_eq.trans hsame.view_eq
  rw [(views_computeField _ _ _).value_run ht'.sound.fresh, hview]
  refine ⟨field, hfield, fun x hx => ?_, Entry.showsOne_field_iff _ _⟩
  exact View.isFinite_outcome_iff (hasFiniteCells_of_load hload) (eq_value_of_value? hx)

/-- Amounts that have a cell each and have no sum. -/
def greatAmounts : FileContent := .ok (Text.toBytes "k,v\na,1e308\nb,1e308\n")

/-- The sum of the amounts, and the first of them. -/
def greatFields : Document :=
  ⟨[("sum_many_rows_same_col", .array [.object [("id", .integer 1),
      ("account_col_name", .string "k"), ("account_code", .string "a,b"),
      ("value_col_name", .string "v")]]),
    ("single_cell", .array [.object [("id", .integer 2), ("account_col_name", .string "k"),
      ("account_code", .string "a"), ("value_col_name", .string "v")]])], by simp⟩

theorem computeDocument_greatFields : ∃ t entries,
    (Delimited.load {} greatAmounts).run.value = .ok t ∧
    (computeDocument {} t greatFields).run.value = .ok entries ∧
    ∃ entry x, entries[0]? = some entry ∧ entry.value? = some x ∧ x.isFinite = false := by
  have hrun : ((Delimited.load {} greatAmounts).run.value.toOption.bind fun t =>
      (computeDocument {} t greatFields).run.value.toOption.bind fun entries =>
        (entries[0]?.bind Entry.value?).map Float.isFinite) = some false := by
    decide +kernel
  obtain ⟨t, hload, hrun⟩ := Option.bind_eq_some_iff.mp hrun
  obtain ⟨entries, h, hrun⟩ := Option.bind_eq_some_iff.mp hrun
  obtain ⟨x, hfirst, hx⟩ := Option.map_eq_some_iff.mp hrun
  obtain ⟨entry, hentry, hvalue⟩ := Option.bind_eq_some_iff.mp hfirst
  exact ⟨t, entries, toOption_eq_some.mp hload, toOption_eq_some.mp h, entry, x, hentry, hvalue, hx⟩

/-- The sum shows neither a value nor an error, and the cell shows its value. -/
theorem value_finite_sample : ∃ t entries,
    (Delimited.load {} greatAmounts).run.value = .ok t ∧
    (computeDocument {} t greatFields).run.value = .ok entries ∧
    (∃ entry, entries[0]? = some entry ∧ ¬entry.ShowsOne) ∧
    ∃ entry, entries[1]? = some entry ∧ entry.ShowsOne := by
  obtain ⟨t, entries, hload, h, sum, x, hsum, hvalue, hx⟩ := computeDocument_greatFields
  have hentries := value_finite_iff_no_overflow hload (Delimited.reachable_of_load hload)
    (.refl t) h
  refine ⟨t, entries, hload, h, ⟨sum, hsum, fun hshows => ?_⟩, ?_⟩
  · obtain ⟨_, -, _, -, -, hiff⟩ := exists_of_forall₂ hentries hsum
    rw [hiff.mp hshows x hvalue] at hx
    cases hx
  · obtain ⟨item, hitem⟩ : ∃ item, greatFields.items[1]? = some (.singleCell, item) :=
      ⟨_, by with_unfolding_all rfl⟩
    obtain ⟨entry, hentry, field, -, hrange, hiff⟩ := exists_of_forall₂ hentries.flip hitem
    refine ⟨entry, hentry, hiff.mpr fun y hy => (hrange y hy).mpr ?_⟩
    obtain ⟨id, keyColumn, content⟩ := field
    cases content <;> exact not_false

/-- A value is not always finite, and an entry not always shows one of its value and its error. -/
theorem not_value_finite : ¬∀ (options : Options) (content : FileContent) (t : Table)
    (d : Document) (entries : List Entry),
    (Delimited.load options.data content).run.value = .ok t →
    (computeDocument options t d).run.value = .ok entries →
    ∀ entry ∈ entries, ∀ x, entry.value? = some x → x.isFinite = true ∧ entry.ShowsOne := by
  intro h
  obtain ⟨t, entries, hload, hcompute, entry, x, hentry, hvalue, hx⟩ := computeDocument_greatFields
  have hfinite := (h {} greatAmounts t greatFields entries hload hcompute entry
    (List.mem_of_getElem? hentry) x hvalue).1
  rw [hx] at hfinite
  cases hfinite

end Report

end LedgerFields
