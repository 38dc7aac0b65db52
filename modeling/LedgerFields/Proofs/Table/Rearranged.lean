import LedgerFields.Proofs.Table.History
import Mathlib.Data.Multiset.Basic

/-! Tables that hold the same data in another order. The rows may be permuted, and so may the
columns, with the cells moving along. A search finds the first row that has a key, so that it finds
the same cell in both tables when no two rows share a key. -/

namespace LedgerFields

/-- The cells of a row with the names of their columns, in no order. -/
abbrev NamedRow := Multiset (String × Cell)

/-- The row has this key in the key column. -/
def NamedRow.HasKey (row : NamedRow) (keyColumn key : String) : Prop :=
  ∃ cell : Cell, (keyColumn, cell) ∈ row ∧ cell.keyText ≠ "" ∧ cell.keyText = Text.trim key

namespace Table

/-- The rows, each with the names of the columns at its cells. -/
def namedRows (t : Table) : List NamedRow :=
  t.rows.toList.map fun row => ↑(t.columns.zip row)

/-- The tables have the same columns and the same rows, but for the order of either. -/
structure Rearranged (t t' : Table) : Prop where
  columns : t'.columns.Perm t.columns
  rows : t'.namedRows.Perm t.namedRows

/-- No two rows have the same key in the column of this name; an empty text is no key. -/
def KeysDistinct (t : Table) (name : String) : Prop :=
  ∀ position, t.columns[position]? = some name → ((t.keys position).filter (· ≠ "")).Nodup

variable {t t' : Table} {column keyColumn key name : String} {row : List Cell} {cell : Cell}

theorem mem_zip : (name, cell) ∈ (t.columns.zip row : NamedRow) ↔
    ∃ position : Nat, t.columns[position]? = some name ∧ row[position]? = some cell := by
  rw [Multiset.mem_coe, List.mem_iff_getElem?]
  simp only [List.getElem?_zip_eq_some]

theorem Sound.zip_inj (ht : t.Sound) {cell' : Cell}
    (h : (name, cell) ∈ (t.columns.zip row : NamedRow))
    (h' : (name, cell') ∈ (t.columns.zip row : NamedRow)) : cell = cell' := by
  obtain ⟨position, hname, hcell⟩ := mem_zip.mp h
  obtain ⟨position', hname', hcell'⟩ := mem_zip.mp h'
  obtain rfl : position = position' :=
    (List.getElem?_inj (List.getElem?_eq_some_iff.mp hname).1 ht.distinct).mp
      (hname.trans hname'.symm)
  exact Option.some.inj (hcell.symm.trans hcell')

theorem hasKey_iff_named {n : Nat} : HasKey t.columns t.rows.toList keyColumn key n ↔
    ∃ row, t.rows.toList[n]? = some row ∧
      NamedRow.HasKey ↑(t.columns.zip row) keyColumn key := by
  unfold HasKey NamedRow.HasKey
  simp only [mem_zip]
  constructor
  · rintro ⟨position, row, cell, hposition, hrow, hcell, hkey⟩
    exact ⟨row, hrow, cell, ⟨position, hposition, hcell⟩, hkey⟩
  · rintro ⟨row, hrow, cell, ⟨position, hposition, hcell⟩, hkey⟩
    exact ⟨position, row, cell, hposition, hrow, hcell, hkey⟩

theorem KeysDistinct.row_unique (h : t.KeysDistinct keyColumn) (ht : t.Sound) {n m : Nat}
    (hn : HasKey t.columns t.rows.toList keyColumn key n)
    (hm : HasKey t.columns t.rows.toList keyColumn key m) : n = m := by
  obtain ⟨position, _, _, hposition, -⟩ := id hn
  obtain ⟨hne, hn⟩ := (hasKey_iff ht hposition).mp hn
  obtain ⟨-, hm⟩ := (hasKey_iff ht hposition).mp hm
  have hdistinct := h position hposition
  rw [List.Nodup, List.pairwise_filter, List.pairwise_iff_getElem] at hdistinct
  obtain ⟨hlength, hn⟩ := List.getElem?_eq_some_iff.mp hn
  obtain ⟨hlength', hm⟩ := List.getElem?_eq_some_iff.mp hm
  rcases Nat.lt_trichotomy n m with hlt | heq | hlt
  · exact absurd (hn.trans hm.symm)
      (hdistinct n m hlength hlength' hlt (by simpa [hn]) (by simpa [hm]))
  · exact heq
  · exact absurd (hm.trans hn.symm)
      (hdistinct m n hlength' hlength hlt (by simpa [hm]) (by simpa [hn]))

/-- What a look-up shows of columns and rows in no order: the cell of a row that has the key, or
what there is not. -/
inductive Shows (columns : List String) (rows : List NamedRow) (column keyColumn key : String) :
    Lookup → Prop where
  | keyColumn : keyColumn ∉ columns →
      Shows columns rows column keyColumn key (.missing (.keyColumn keyColumn))
  | column : keyColumn ∈ columns → column ∉ columns →
      Shows columns rows column keyColumn key (.missing (.column column))
  | key : keyColumn ∈ columns → column ∈ columns →
      (∀ row ∈ rows, ¬NamedRow.HasKey row keyColumn key) →
      Shows columns rows column keyColumn key (.missing (.key key keyColumn))
  | found {row : NamedRow} {cell : Cell} : row ∈ rows → row.HasKey keyColumn key →
      (column, cell) ∈ row → Shows columns rows column keyColumn key (.found cell)

theorem Shows.rearranged {answer : Lookup} (h : t.Rearranged t')
    (hshows : Shows t'.columns t'.namedRows column keyColumn key answer) :
    Shows t.columns t.namedRows column keyColumn key answer := by
  cases hshows with
  | keyColumn hkeyColumn => exact .keyColumn fun hmem => hkeyColumn (h.columns.mem_iff.mpr hmem)
  | column hkeyColumn hcolumn =>
    exact .column (h.columns.mem_iff.mp hkeyColumn) fun hmem => hcolumn (h.columns.mem_iff.mpr hmem)
  | key hkeyColumn hcolumn hnone =>
    exact .key (h.columns.mem_iff.mp hkeyColumn) (h.columns.mem_iff.mp hcolumn)
      fun row hrow => hnone row (h.rows.mem_iff.mpr hrow)
  | found hrow hkey hcell => exact .found (h.rows.mem_iff.mp hrow) hkey hcell

theorem mem_namedRows {row : NamedRow} :
    row ∈ t.namedRows ↔ ∃ (n : Nat) (cells : List Cell), t.rows.toList[n]? = some cells ∧
      ↑(t.columns.zip cells) = row := by
  unfold namedRows
  rw [List.mem_map]
  constructor
  · rintro ⟨cells, hcells, rfl⟩
    obtain ⟨n, hn⟩ := List.getElem?_of_mem hcells
    exact ⟨n, cells, hn, rfl⟩
  · rintro ⟨n, cells, hn, rfl⟩
    exact ⟨cells, List.mem_of_getElem? hn, rfl⟩

theorem shows_of_finds {answer : Lookup}
    (h : Finds t.columns t.rows.toList column keyColumn key answer) :
    Shows t.columns t.namedRows column keyColumn key answer := by
  cases h with
  | keyColumn hkeyColumn => exact .keyColumn hkeyColumn
  | column hkeyColumn hcolumn => exact .column hkeyColumn hcolumn
  | key hkeyColumn hcolumn hnone =>
    refine .key hkeyColumn hcolumn fun row hrow hkey => ?_
    obtain ⟨n, cells, hcells, rfl⟩ := mem_namedRows.mp hrow
    exact hnone n (hasKey_iff_named.mpr ⟨cells, hcells, hkey⟩)
  | @found n position row cell hfirst hrow hcolumn hcell =>
    have hleast : IsLeast {n | HasKey t.columns t.rows.toList keyColumn key n} n := hfirst
    obtain ⟨row', hrow', hkey⟩ := hasKey_iff_named.mp hleast.1
    obtain rfl : row' = row := Option.some.inj (hrow'.symm.trans hrow)
    exact .found (mem_namedRows.mpr ⟨n, row', hrow, rfl⟩) hkey (mem_zip.mpr ⟨_, hcolumn, hcell⟩)

/-- With distinct keys a look-up shows one thing only, whatever the order. -/
theorem KeysDistinct.shows_unique (hkeys : t.KeysDistinct keyColumn) (ht : t.Sound)
    {answer answer' : Lookup} (h : Shows t.columns t.namedRows column keyColumn key answer)
    (h' : Shows t.columns t.namedRows column keyColumn key answer') : answer = answer' := by
  have hcolumns {row : NamedRow} {name : String} {cell : Cell} (hrow : row ∈ t.namedRows)
      (hcell : (name, cell) ∈ row) : name ∈ t.columns := by
    obtain ⟨_, _, -, rfl⟩ := mem_namedRows.mp hrow
    obtain ⟨_, hname, -⟩ := mem_zip.mp hcell
    exact List.mem_of_getElem? hname
  -- Each kind of answer rules the others out. Only two found cells need that the keys are distinct.
  cases h with
  | keyColumn hkeyColumn =>
    cases h' with
    | keyColumn => rfl
    | column hmem | key hmem => exact absurd hmem hkeyColumn
    | found hrow hkey => exact absurd (hcolumns hrow hkey.choose_spec.1) hkeyColumn
  | column hkeyColumn hcolumn =>
    cases h' with
    | keyColumn hnot => exact absurd hkeyColumn hnot
    | column => rfl
    | key _ hmem => exact absurd hmem hcolumn
    | found hrow _ hcell => exact absurd (hcolumns hrow hcell) hcolumn
  | key hkeyColumn hcolumn hnone =>
    cases h' with
    | keyColumn hnot => exact absurd hkeyColumn hnot
    | column _ hnot => exact absurd hcolumn hnot
    | key => rfl
    | found hrow hkey => exact absurd hkey (hnone _ hrow)
  | @found row cell hrow hkey hcell =>
    cases h' with
    | keyColumn hnot => exact absurd (hcolumns hrow hkey.choose_spec.1) hnot
    | column _ hnot => exact absurd (hcolumns hrow hcell) hnot
    | key _ _ hnone => exact absurd hkey (hnone _ hrow)
    | @found row' cell' hrow' hkey' hcell' =>
      obtain ⟨n, cells, hcells, rfl⟩ := mem_namedRows.mp hrow
      obtain ⟨m, cells', hcells', rfl⟩ := mem_namedRows.mp hrow'
      obtain rfl : n = m := hkeys.row_unique ht (hasKey_iff_named.mpr ⟨cells, hcells, hkey⟩)
        (hasKey_iff_named.mpr ⟨cells', hcells', hkey'⟩)
      obtain rfl : cells = cells' := Option.some.inj (hcells.symm.trans hcells')
      exact congrArg Lookup.found (ht.zip_inj hcell hcell')

/-- A search in a column with distinct keys finds the same in a rearranged table. -/
theorem Rearranged.searched_eq (h : t.Rearranged t') (ht : t.Sound) (ht' : t'.Sound)
    (hkeys : t.KeysDistinct keyColumn) (column key : String) :
    t'.searched column keyColumn key = t.searched column keyColumn key :=
  hkeys.shows_unique ht (.rearranged h (shows_of_finds (finds_searched ht' column keyColumn key)))
    (shows_of_finds (finds_searched ht column keyColumn key))

theorem Rearranged.hasColumn_eq (h : t.Rearranged t') : t'.hasColumn = t.hasColumn := by
  funext name
  rw [Bool.eq_iff_iff, hasColumn_iff, hasColumn_iff, h.columns.mem_iff]

end Table

end LedgerFields
