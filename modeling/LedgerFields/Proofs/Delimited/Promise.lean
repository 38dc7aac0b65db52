import LedgerFields.Proofs.Delimited.Header
import LedgerFields.Proofs.Delimited.Keys

/-! What a table that is loaded promises to those who use it, and how loading one can fail. The
names of a header always make a table, so that of the faults of a table only a row that is too wide
is ever met. -/

namespace LedgerFields.Delimited

open Number

/-- A cell is of the kind that its content calls for: a number is finite, and a text says neither
that a value is not available nor a finite number. -/
def Classified : Cell → Prop
  | .empty => True
  | .number x => x.isFinite = true
  | .text s => Text.trim s ∉ notAvailable ∧ spelledNumber? (Text.trim s) = none

theorem classified_cellOfField (field : String) : Classified (cellOfField field) := by
  unfold cellOfField
  by_cases hnone : Text.trim field ∈ notAvailable
  · simp only [if_pos hnone]
    trivial
  · simp only [if_neg hnone]
    cases hread : readFloat? (Text.trim field) with
    | none => exact ⟨hnone, by simp [spelledNumber?, hread]⟩
    | some x =>
      by_cases hx : x.isFinite = true
      · simp only [if_pos hx]
        exact hx
      · simp only [if_neg hx]
        exact ⟨hnone, by simp [spelledNumber?, hread, Option.filter, hx]⟩

/-- What is promised of a table that is loaded from these records, the header first. -/
structure Promised (records : List RawRecord) (t : Table) : Prop where
  columns : t.columns ≠ []
  rows : t.rows ≠ #[]
  names : ∀ name ∈ t.columns, Proper name
  distinct : t.columns.Nodup
  header : ∃ record, records.head? = some record ∧ t.columns.length = record.fields.length
  width : ∀ row ∈ t.rows.toList, row.length = t.columns.length
  cells : ∀ row ∈ t.rows.toList, ∀ cell ∈ row, Classified cell

section

variable {options : Options} {number position : Nat} {start : Position}
  {fields : List (List UInt8)} {texts header : List String} {records : List RawRecord}
  {t made : Table} {text : String}

/-! ### Fields that are read -/

theorem length_decodeFields (h : decodeFields number start position fields = .ok texts) :
    texts.length = fields.length := by
  induction fields generalizing position texts with
  | nil =>
    cases h
    rfl
  | cons field fields ih =>
    unfold decodeFields at h
    split at h
    · cases h
    · obtain ⟨rest, hrest, rfl⟩ := map_eq_ok.mp h
      rw [List.length_cons, List.length_cons, ih hrest]

/-- The only fault of fields is that one of them is not UTF-8. -/
theorem fault_of_decodeFields {fault : LoadFault}
    (h : decodeFields number start position fields = .error fault) :
    ∃ field, fault = .garbled field := by
  induction fields generalizing position with
  | nil => cases h
  | cons field fields ih =>
    unfold decodeFields at h
    split at h
    · cases h
      exact ⟨_, rfl⟩
    · cases hrest : decodeFields number start (position + 1) fields with
      | ok rest =>
        rw [hrest] at h
        cases h
      | error fault' =>
        rw [hrest] at h
        cases h
        exact ih hrest

theorem length_headerCells (h : headerCells options records = .ok header) (hne : header ≠ []) :
    ∃ record, records.head? = some record ∧ header.length = record.fields.length := by
  cases records with
  | nil =>
    cases h
    exact absurd rfl hne
  | cons record records =>
    obtain ⟨cells, hcells, h⟩ := bind_eq_ok.mp h
    refine ⟨record, rfl, ?_⟩
    rw [← length_decodeFields hcells, ← Except.ok.inj h]
    split <;> simp

theorem fault_of_headerCells {fault : LoadFault} (h : headerCells options records = .error fault) :
    ∃ field, fault = .garbled field := by
  cases records with
  | nil => cases h
  | cons record records =>
    rcases bind_eq_error.mp h with h | ⟨cells, -, h⟩
    · exact fault_of_decodeFields h
    · cases h

theorem fault_of_rowFields {record : RawRecord} {fault : LoadFault}
    (h : rowFields options number record = .error fault) : ∃ field, fault = .garbled field := by
  unfold rowFields at h
  split at h
  · rcases bind_eq_error.mp h with h | ⟨cells, -, h⟩
    · exact fault_of_decodeFields h
    · cases h
  · exact fault_of_decodeFields h

/-! ### The columns -/

/-- The names of a header that has cells make a table without rows, which has these names. -/
theorem ofColumns_columnNames (hne : header ≠ []) :
    ∃ made, Table.ofColumns (columnNames header).value = .ok made ∧
      made.columns = (columnNames header).value := by
  obtain ⟨hlength, hdistinct, hproper⟩ := columnNames_spec header
  have htrim : (columnNames header).value.map Text.trim = (columnNames header).value :=
    (List.map_congr_left fun name hname => (hproper name hname).trimmed).trans (List.map_id _)
  have hnames : (columnNames header).value ≠ [] := by
    intro hnil
    rw [hnil] at hlength
    exact hne (List.length_eq_zero_iff.mp hlength.symm)
  refine ⟨_, Table.ofColumns_eq_ok.mpr ⟨hnames, ?_, rfl⟩, htrim⟩
  rwa [htrim]

theorem ne_nil_of_not_blank (h : ¬header.all Text.isBlankText = true) : header ≠ [] := by
  rintro rfl
  exact h rfl

/-- The only fault of a table that a record can bring about is that it is too wide. -/
theorem fault_of_addRecord {entry : RawRecord × Nat} {fault : TableFault}
    (h : addRecord options t entry = .error (.table fault)) :
    ∃ row expected actual, fault = .rowTooWide row expected actual := by
  rcases bind_eq_error.mp h with h | ⟨fields, -, h⟩
  · obtain ⟨field, hfield⟩ := fault_of_rowFields h
    cases hfield
  · unfold Table.push at h
    split at h
    · cases h
      exact ⟨_, _, _, rfl⟩
    · cases h

/-- Of the faults of a table only a row that is too wide is met when a text is loaded: its header
lacks no columns, and repeats none. -/
theorem fault_of_loadText {fault : TableFault}
    (h : (loadText options text).run.value = .error (.table fault)) :
    ∃ row expected actual, fault = .rowTooWide row expected actual := by
  rcases value_bind_eq_error.mp h with h | ⟨header, -, h⟩
  · have hheader : headerCells options (rawRecords options text) = .error (.table fault) := h
    obtain ⟨field, hfield⟩ := fault_of_headerCells hheader
    cases hfield
  split at h
  · rcases value_bind_eq_error.mp h with h | ⟨_, h, -⟩ <;> cases h
  next hblank =>
  obtain ⟨made, hmade, -⟩ := ofColumns_columnNames (ne_nil_of_not_blank hblank)
  rcases value_bind_eq_error.mp h with h | ⟨names, hnames, h⟩
  · cases h
  cases hnames
  rcases value_bind_eq_error.mp h with h | ⟨made', -, h⟩
  · have hok : ((Table.ofColumns (columnNames header).value).mapError LoadFault.table) =
        .error (.table fault) := h
    rw [hmade] at hok
    cases hok
  rcases value_bind_eq_error.mp h with h | ⟨loaded, -, h⟩
  · obtain ⟨before, entry, after, t', -, -, hentry⟩ := foldlM_eq_error h
    exact fault_of_addRecord hentry
  · split at h
    · rcases value_bind_eq_error.mp h with h | ⟨_, h, -⟩ <;> cases h
    · cases h

/-- The columns of a table that is loaded have the names of its header. -/
theorem columns_of_loadText (hheader : headerCells options (rawRecords options text) = .ok header)
    (h : (loadText options text).run.value = .ok t) :
    t.columns = (columnNames header).value := by
  obtain ⟨header', made, hheader', hblank, hmade, hloaded, -⟩ := loadText_eq_ok.mp h
  obtain rfl : header = header' := Except.ok.inj (hheader.symm.trans hheader')
  obtain ⟨made', hmade', hnames⟩ := ofColumns_columnNames
    (ne_nil_of_not_blank (by simp [hblank] : ¬header.all Text.isBlankText = true))
  obtain rfl : made = made' := Except.ok.inj (hmade.symm.trans hmade')
  rw [← hnames]
  exact (foldlM_addRecord_rows (Table.sound_ofColumns hmade) hloaded).2.1

/-- A table that is loaded keeps what is promised. -/
theorem promised_of_loadText (h : (loadText options text).run.value = .ok t) :
    Promised (rawRecords options text) t := by
  obtain ⟨hsound, hrecords⟩ := rows_of_loadText h
  obtain ⟨header, -, hheader, hblank, -, -, hrows⟩ := loadText_eq_ok.mp h
  have hne := ne_nil_of_not_blank (by simp [hblank] : ¬header.all Text.isBlankText = true)
  obtain ⟨hlength, hdistinct, hproper⟩ := columnNames_spec header
  have hcolumns := columns_of_loadText hheader h
  obtain ⟨record, hrecord, hfields⟩ := length_headerCells hheader hne
  refine ⟨?_, ?_, ?_, hsound.distinct, ⟨record, hrecord, ?_⟩, hsound.width, ?_⟩
  · intro hnil
    rw [← hcolumns, hnil] at hlength
    exact hne (List.length_eq_zero_iff.mp hlength.symm)
  · rintro hnil
    rw [hnil] at hrows
    cases hrows
  · rw [hcolumns]
    exact hproper
  · rw [hcolumns, hlength, hfields]
  · intro row hrow cell hcell
    obtain ⟨n, hn⟩ := List.getElem?_of_mem hrow
    obtain ⟨entry, -, fields, -, -, rfl⟩ := exists_of_forall₂ hrecords hn
    rcases List.mem_append.mp hcell with hcell | hcell
    · obtain ⟨field, -, rfl⟩ := List.mem_map.mp hcell
      exact classified_cellOfField field
    · rw [List.eq_of_mem_replicate hcell]
      trivial

end

end LedgerFields.Delimited
