import LedgerFields.Proofs.Report.Batch
import LedgerFields.Proofs.Report.View
import LedgerFields.Proofs.Table.Reachable

/-! Fields are computed independently. All fields of a batch share one table, and whichever is first
looked up by a column makes its key index; still each has the outcome that it has alone, on a table
without indexes. -/

namespace LedgerFields

namespace Report

/-- The items of an entry, if it lists those of a procedure. -/
def entryItems (entry : String × Json) : List (Procedure × Json) :=
  match Procedure.ofName? entry.1, entry.2 with
  | some procedure, .array items => items.map (procedure, ·)
  | _, _ => []

/-- The items that a document lists, each with its procedure, in the order of the document. -/
def Document.items (d : Document) : List (Procedure × Json) :=
  d.entries.flatMap entryItems

/-- The entry is that of the item: it has the id that is read from the item, and the outcome of its
field alone on the table without indexes. -/
def IsEntryOf (options : Options) (t : Table) (special : Option Bool) (item : Procedure × Json)
    (entry : Entry) : Prop :=
  ∃ field, Document.readField item.1 options.sideSeparator special item.2 = .ok field ∧
    entry = .field field.id ((computeField options item.1 field).run t.fresh).value.1

/-- The entries of a group, from a view. -/
def View.groupEntries (v : View) (options : Options) (group : Group) : List Entry :=
  group.fields.map fun field => .field field.id (v.outcome options group.procedure field)

theorem views_computeGroup (options : Options) (group : Group) :
    Views (computeGroup options group) (·.groupEntries options group) :=
  Views.mapM (fun field => (views_computeField options group.procedure field).bind
    fun outcome => .pure (Entry.field field.id outcome)) group.fields

variable {options : Options} {t t' : Table} {d d' : Document} {entries entries' : List Entry}

/-- The entries of a computed document are those of its groups, from the view of the table. -/
theorem computeDocument_eq_ok (ht : t.Sound) :
    (computeDocument options t d).run.value = .ok entries ↔
      ∃ groups, (d.groups options.sideSeparator).run.value = .ok groups ∧
        entries = groups.flatMap (t.view.groupEntries options) := by
  have hrun (groups : List Group) :
      ((groups.mapM (computeGroup options)).run t).value.1.flatten =
        groups.flatMap (t.view.groupEntries options) := by
    rw [(Views.mapM (views_computeGroup options) groups).value_run ht, List.flatMap_def]
  rw [value_computeDocument, map_eq_ok]
  simp only [hrun, eq_comm]

/-- An entry that is read gives an entry of the result for each of its items. -/
theorem forall₂_readEntry (ht : t.Sound) {special : Option Bool} {entry : String × Json}
    {groups : List Group}
    (h : Document.readEntry options.sideSeparator special entry = .ok groups) :
    List.Forall₂ (IsEntryOf options t special) (entryItems entry)
      (groups.flatMap (t.view.groupEntries options)) := by
  unfold entryItems
  rcases Document.readEntry_eq_ok h with ⟨hname, rfl⟩ |
    ⟨procedure, items, fields, hname, hvalue, hfields, rfl⟩
  · rw [hname]
    exact .nil
  · rw [hname, hvalue, List.flatMap_singleton]
    apply List.forall₂_map_left_iff.mpr
    apply List.forall₂_map_right_iff.mpr
    refine hfields.imp fun item field hfield => ⟨field, hfield, ?_⟩
    rw [(views_computeField _ _ _).value_run ht.fresh, (Table.sameData_fresh t).view_eq]

/-- Each item of a computed document has its entry. -/
theorem forall₂_computeDocument (ht : t.Sound)
    (h : (computeDocument options t d).run.value = .ok entries) :
    List.Forall₂ (IsEntryOf options t d.special?) d.items entries := by
  obtain ⟨groups, hgroups, rfl⟩ := (computeDocument_eq_ok ht).mp h
  rw [Document.run_groups] at hgroups
  obtain ⟨ofEntries, hread, rfl⟩ := map_eq_ok.mp hgroups
  have hflat : ofEntries.flatten.flatMap (t.view.groupEntries options) =
      ofEntries.flatMap fun groups => groups.flatMap (t.view.groupEntries options) := by
    rw [← List.flatMap_id, List.flatMap_assoc]
    rfl
  rw [hflat]
  exact List.rel_flatMap (mapM_eq_ok.mp hread) fun _ _ hentry => forall₂_readEntry ht hentry

/-- The entry of an item is the same on tables with the same columns and rows. -/
theorem IsEntryOf.eq {special : Option Bool} {item : Procedure × Json} {entry entry' : Entry}
    (h : IsEntryOf options t special item entry) (h' : IsEntryOf options t' special item entry')
    (ht : t.Sound) (ht' : t'.Sound) (hsame : t.SameData t') : entry = entry' := by
  obtain ⟨field, hfield, rfl⟩ := h
  obtain ⟨field', hfield', rfl⟩ := h'
  obtain rfl : field = field' := Except.ok.inj (hfield.symm.trans hfield')
  have hfresh : t.fresh.SameData t'.fresh := ⟨hsame.columns, hsame.rows⟩
  rw [(views_computeField _ _ _).value_run ht.fresh, (views_computeField _ _ _).value_run ht'.fresh,
    hfresh.view_eq]

/-- The entries of a computed document are those of its items, one for each and in their order: an
entry has the id that is read from its item, and the outcome that its field has alone on a table
with the same columns and rows and without key indexes, whichever indexes have been made here. So an
item has the same entry wherever it stands in a document, and whatever other items are there. -/
theorem fields_computed_independently (ht : t.Reachable)
    (h : (computeDocument options t d).run.value = .ok entries) :
    List.Forall₂ (IsEntryOf options t d.special?) d.items entries ∧
      ∀ (t' : Table) (d' : Document) (entries' : List Entry), t'.Reachable → t.SameData t' →
        d'.special? = d.special? → (computeDocument options t' d').run.value = .ok entries' →
        ∀ (n m : Nat) (item : Procedure × Json), d.items[n]? = some item →
          d'.items[m]? = some item →
          ∃ entry, entries[n]? = some entry ∧ entries'[m]? = some entry := by
  have hentries := forall₂_computeDocument ht.sound h
  refine ⟨hentries, fun t' d' entries' ht' hsame hspecial h' n m item hn hm => ?_⟩
  have hentries' := forall₂_computeDocument ht'.sound h'
  rw [hspecial] at hentries'
  obtain ⟨entry, hentry, hof⟩ := exists_of_forall₂ hentries.flip hn
  obtain ⟨entry', hentry', hof'⟩ := exists_of_forall₂ hentries'.flip hm
  obtain rfl : entry = entry' := IsEntryOf.eq hof hof' ht.sound ht'.sound hsame
  exact ⟨entry, hentry, hentry'⟩

theorem fields_computed_independently_sample :
    let made : Table := ⟨["k", "v"].map Text.trim, #[], ["k", "v"].map fun _ => none⟩
    let t : Table := made.after [.push [.text "a", .number 1], .lookup "v" "k" "a"]
    let t' : Table := made.after [.push [.text "a", .number 1]]
    let cell (id : Int) : Json := .object [("id", .integer id), ("account_col_name", .string "k"),
      ("account_code", .string "a"), ("value_col_name", .string "v")]
    let formula : Json := .object [("id", .integer 2), ("account_col_name", .string "k"),
      ("micro_formula", .string "v@b")]
    let d : Document := ⟨[("micro_calc", .array [formula]), ("single_cell", .array [cell 1])],
      by simp⟩
    let d' : Document := ⟨[("single_cell", .array [cell 1, cell 3])], by simp⟩
    ∃ entries entries', (computeDocument {} t d).run.value = .ok entries ∧
      (computeDocument {} t' d').run.value = .ok entries' ∧
      List.Forall₂ (IsEntryOf {} t d.special?) d.items entries ∧
      ∃ entry, entries[1]? = some entry ∧ entries'[0]? = some entry := by
  intro made t t' cell formula d d'
  have hmade : Table.ofColumns ["k", "v"] = .ok made :=
    Table.ofColumns_eq_ok.mpr ⟨by simp, by decide +kernel, rfl⟩
  obtain ⟨entries, h⟩ := errorOf?_eq_none.mp
    (by decide +kernel : errorOf? (computeDocument {} t d).run.value = none)
  obtain ⟨entries', h'⟩ := errorOf?_eq_none.mp
    (by decide +kernel : errorOf? (computeDocument {} t' d').run.value = none)
  obtain ⟨hentries, hsame⟩ := fields_computed_independently ⟨_, made, _, hmade, rfl⟩ h
  refine ⟨entries, entries', h, h', hentries, ?_⟩
  exact hsame t' d' entries' ⟨_, made, _, hmade, rfl⟩ ⟨by decide +kernel, by decide +kernel⟩ rfl h'
    1 0 (.singleCell, cell 1) (by with_unfolding_all rfl) (by with_unfolding_all rfl)

end Report

end LedgerFields
