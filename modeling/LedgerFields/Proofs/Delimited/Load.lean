import LedgerFields.Delimited.Load
import LedgerFields.Proofs.Fallible
import LedgerFields.Proofs.Table.Sound

/-! What a table that is loaded from delimited text holds: it is sound, and its rows are those of
the records after the header, one for each of them and in their order. -/

namespace LedgerFields.Delimited

/-- The records of a text, the header first. -/
def rawRecords (options : Options) (text : String) : List RawRecord :=
  (options.dialect text).records (Text.toBytes text)

/-- The records of a text after its header, each with its number. -/
def dataRecords (options : Options) (text : String) : List (RawRecord × Nat) :=
  (rawRecords options text).zipIdx.drop 1

/-- The row of a record in a table of the given width: the cells of its fields, and empty ones for
the fields that it lacks. -/
def IsRowOf (options : Options) (width : Nat) (entry : RawRecord × Nat) (row : List Cell) : Prop :=
  ∃ fields, rowFields options entry.2 entry.1 = .ok fields ∧ fields.length ≤ width ∧
    row = fields.map cellOfField ++ List.replicate (width - fields.length) .empty

variable {options : Options} {t t' : Table} {text : String}

theorem addRecord_eq_ok {entry : RawRecord × Nat} (h : addRecord options t entry = .ok t') :
    ∃ fields, rowFields options entry.2 entry.1 = .ok fields ∧
      t.push (fields.map cellOfField) = .ok t' := by
  obtain ⟨fields, hfields, hpush⟩ := bind_eq_ok.mp h
  exact ⟨fields, hfields, mapError_eq_ok.mp hpush⟩

theorem addRecord_row {entry : RawRecord × Nat} (ht : t.Sound)
    (h : addRecord options t entry = .ok t') :
    t'.Sound ∧ t'.columns = t.columns ∧ ∃ row, IsRowOf options t.columns.length entry row ∧
      t'.rows.toList = t.rows.toList ++ [row] := by
  obtain ⟨fields, hfields, hpush⟩ := addRecord_eq_ok h
  obtain ⟨hwidth, rfl⟩ := Table.push_eq_ok.mp hpush
  rw [List.length_map] at hwidth
  refine ⟨ht.push hpush, rfl, _, ⟨fields, hfields, hwidth, rfl⟩, ?_⟩
  rw [Array.toList_push, List.length_map]

/-- Each record adds its row. -/
theorem foldlM_addRecord_rows {entries : List (RawRecord × Nat)} (ht : t.Sound)
    (h : entries.foldlM (addRecord options) t = .ok t') :
    t'.Sound ∧ t'.columns = t.columns ∧ ∃ rows, t'.rows.toList = t.rows.toList ++ rows ∧
      List.Forall₂ (IsRowOf options t.columns.length) entries rows := by
  induction entries generalizing t with
  | nil =>
    cases h
    exact ⟨ht, rfl, [], (List.append_nil _).symm, .nil⟩
  | cons entry entries ih =>
    rw [List.foldlM_cons] at h
    obtain ⟨next, hadd, h⟩ := bind_eq_ok.mp h
    obtain ⟨hnext, hcolumns, row, hrow, hrows⟩ := addRecord_row ht hadd
    obtain ⟨hsound, hcolumns', rows, hrows', hmore⟩ := ih hnext h
    rw [hcolumns] at hcolumns' hmore
    refine ⟨hsound, hcolumns', row :: rows, ?_, .cons hrow hmore⟩
    rw [hrows', hrows, List.append_assoc, List.singleton_append]

/-- A table is loaded when the header has cells that are not all blank, the rows of the other
records fit under the names that the header gets, and there is one at least. -/
theorem loadText_eq_ok : (loadText options text).run.value = .ok t ↔
    ∃ header made, headerCells options (rawRecords options text) = .ok header ∧
      header.all Text.isBlankText = false ∧
      Table.ofColumns (columnNames header).value = .ok made ∧
      (dataRecords options text).foldlM (addRecord options) made = .ok t ∧
      t.rows.isEmpty = false := by
  constructor
  · intro h
    obtain ⟨header, hheader, h⟩ := value_bind_eq_ok.mp h
    split at h
    · obtain ⟨_, hthrow, -⟩ := value_bind_eq_ok.mp h
      cases hthrow
    next hblank =>
    obtain ⟨names, hnames, h⟩ := value_bind_eq_ok.mp h
    cases hnames
    obtain ⟨made, hmade, h⟩ := value_bind_eq_ok.mp h
    obtain ⟨loaded, hloaded, h⟩ := value_bind_eq_ok.mp h
    split at h
    · obtain ⟨_, hthrow, -⟩ := value_bind_eq_ok.mp h
      cases hthrow
    next hempty =>
    cases h
    exact ⟨header, made, hheader, Bool.eq_false_of_not_eq_true hblank, mapError_eq_ok.mp hmade,
      hloaded, Bool.eq_false_of_not_eq_true hempty⟩
  · rintro ⟨header, made, hheader, hblank, hmade, hloaded, hempty⟩
    refine value_bind_eq_ok.mpr ⟨header, hheader, ?_⟩
    rw [if_neg (by simp [hblank])]
    refine value_bind_eq_ok.mpr ⟨_, rfl, value_bind_eq_ok.mpr ⟨made, mapError_eq_ok.mpr hmade, ?_⟩⟩
    refine value_bind_eq_ok.mpr ⟨t, hloaded, ?_⟩
    rw [if_neg (by simp [hempty])]
    rfl

/-- A table that is loaded is made from column names, and the records after the header are added. -/
theorem made_of_loadText (h : (loadText options text).run.value = .ok t) :
    ∃ names made, Table.ofColumns names = .ok made ∧
      (dataRecords options text).foldlM (addRecord options) made = .ok t := by
  obtain ⟨header, made, -, -, hmade, hloaded, -⟩ := loadText_eq_ok.mp h
  exact ⟨_, made, hmade, hloaded⟩

/-- The rows of a table that is loaded are those of the records after the header. -/
theorem rows_of_loadText (h : (loadText options text).run.value = .ok t) :
    t.Sound ∧ List.Forall₂ (IsRowOf options t.columns.length) (dataRecords options text)
      t.rows.toList := by
  obtain ⟨names, made, hmade, hloaded⟩ := made_of_loadText h
  obtain ⟨hsound, hcolumns, rows, hrows, hrecords⟩ :=
    foldlM_addRecord_rows (Table.sound_ofColumns hmade) hloaded
  have hempty : made.rows = #[] := by
    rw [(Table.ofColumns_eq_ok.mp hmade).2.2]
  rw [hempty, List.nil_append] at hrows
  rw [← hcolumns, ← hrows] at hrecords
  exact ⟨hsound, hrecords⟩

/-- The text of a file, without a mark at its start. -/
def fileText? : FileContent → Option String
  | .ok bytes => (Text.ofBytes? bytes).map withoutMark
  | .error _ => none

theorem load_eq_ok {content : FileContent} (h : (load options content).run.value = .ok t) :
    ∃ text, fileText? content = some text ∧ (loadText options text).run.value = .ok t := by
  cases content with
  | error fault => cases h
  | ok bytes =>
    unfold load at h
    unfold fileText?
    cases htext : Text.ofBytes? bytes with
    | none =>
      simp only [htext] at h
      cases h
    | some text =>
      simp only [htext] at h
      exact ⟨withoutMark text, congrArg (Option.map withoutMark) htext, h⟩

/-- The field that a file has in a data row and a column, both counted from 0. -/
def FieldAt (options : Options) (content : FileContent) (column row : Nat) (field : String) :
    Prop :=
  ∃ body entry fields, fileText? content = some body ∧
    (dataRecords options body)[row]? = some entry ∧ rowFields options entry.2 entry.1 = .ok fields ∧
    fields[column]? = some field

theorem IsRowOf.getElem?_iff {width column : Nat} {entry : RawRecord × Nat} {row : List Cell}
    {cell : Cell} (h : IsRowOf options width entry row) (hcell : cell ≠ .empty) :
    row[column]? = some cell ↔ ∃ fields field, rowFields options entry.2 entry.1 = .ok fields ∧
      fields[column]? = some field ∧ cellOfField field = cell := by
  obtain ⟨fields, hfields, -, rfl⟩ := h
  constructor
  · intro hget
    by_cases hlt : column < (fields.map cellOfField).length
    · rw [List.getElem?_append_left hlt, List.getElem?_map, Option.map_eq_some_iff] at hget
      obtain ⟨field, hfield, rfl⟩ := hget
      exact ⟨fields, field, hfields, hfield, rfl⟩
    · rw [List.getElem?_append_right (Nat.not_lt.mp hlt)] at hget
      exact absurd (List.eq_of_mem_replicate (List.mem_of_getElem? hget)) hcell
  · rintro ⟨fields', field, hfields', hfield, rfl⟩
    obtain rfl : fields = fields' := Except.ok.inj (hfields.symm.trans hfields')
    have hlt : column < (fields.map cellOfField).length := by
      rw [List.length_map]
      exact (List.getElem?_eq_some_iff.mp hfield).1
    rw [List.getElem?_append_left hlt, List.getElem?_map, hfield, Option.map_some]

/-- The cells of a table that is loaded, the empty ones apart, are those of the fields of the file.
-/
theorem cell_iff_of_load {content : FileContent} (h : (load options content).run.value = .ok t)
    {column row : Nat} {cell : Cell} (hcell : cell ≠ .empty) :
    (∃ cells, t.rows.toList[row]? = some cells ∧ cells[column]? = some cell) ↔
      ∃ field, FieldAt options content column row field ∧ cellOfField field = cell := by
  obtain ⟨text, htext, h⟩ := load_eq_ok h
  have hrows := (rows_of_loadText h).2
  constructor
  · rintro ⟨cells, hcells, hget⟩
    obtain ⟨entry, hentry, hrow⟩ := exists_of_forall₂ hrows hcells
    obtain ⟨fields, field, hfields, hfield, heq⟩ := (hrow.getElem?_iff hcell).mp hget
    exact ⟨field, ⟨text, entry, fields, htext, hentry, hfields, hfield⟩, heq⟩
  · rintro ⟨field, ⟨text', entry, fields, htext', hentry, hfields, hfield⟩, heq⟩
    obtain rfl : text = text' := Option.some.inj (htext.symm.trans htext')
    obtain ⟨cells, hcells, hrow⟩ := exists_of_forall₂ hrows.flip hentry
    refine ⟨cells, hcells, (IsRowOf.getElem?_iff hrow hcell).mpr ?_⟩
    exact ⟨fields, field, hfields, hfield, heq⟩

theorem isFinite_of_cellOfField {field : String} {x : Float} (h : cellOfField field = .number x) :
    x.isFinite = true := by
  unfold cellOfField at h
  dsimp only at h
  split at h
  · cases h
  · split at h
    · split at h
      · next hfinite =>
        cases h
        exact hfinite
      · cases h
    · cases h

/-- The numbers that are found in a table that is loaded are finite. -/
theorem isFinite_of_searched {content : FileContent} (h : (load options content).run.value = .ok t)
    {column keyColumn key : String} {x : Float}
    (hfind : t.searched column keyColumn key = .found (.number x)) : x.isFinite = true := by
  unfold Table.searched at hfind
  split at hfind
  · cases hfind
  · cases hfind
  · next position _ _ =>
    split at hfind
    · cases hfind
    · next row _ =>
      have hcell : t.cell? row position = some (.number x) := by
        cases hget : t.cell? row position with
        | none =>
          rw [hget] at hfind
          cases hfind
        | some cell =>
          rw [hget] at hfind
          cases hfind
          rfl
      obtain ⟨cells, hcells, hget⟩ := Option.bind_eq_some_iff.mp hcell
      rw [← Array.getElem?_toList] at hcells
      obtain ⟨field, -, hfield⟩ := (cell_iff_of_load h (by simp)).mp ⟨cells, hcells, hget⟩
      exact isFinite_of_cellOfField hfield

theorem sound_of_load {content : FileContent} (h : (load options content).run.value = .ok t) :
    t.Sound := by
  obtain ⟨text, -, h⟩ := load_eq_ok h
  exact (rows_of_loadText h).1

end LedgerFields.Delimited
