import LedgerFields.Proofs.Delimited.Promise

/-! Header cells that say what no other one says. The names of a header are given from left to
right, and one that is made up for a blank or repeated cell may be what a later cell says: then that
cell is taken for a repetition, and a look-up by what it says reads the earlier column. -/

namespace LedgerFields.Delimited

variable {header taken : List String} {base cell name : String} {position : Nat}

theorem freeName_of_not_mem (h : base ∉ taken) : freeName taken base = base := by
  rw [freeName_eq, triedNames, List.find?_cons_of_pos (by simpa using h)]
  rfl

/-- A name that is taken gets a number. -/
theorem freeName_of_mem (h : base ∈ taken) : ∃ n, freeName taken base = numberedName base n := by
  obtain ⟨hmem, hfree⟩ := freeName_spec taken base
  rcases List.mem_cons.mp hmem with heq | hmem
  · rw [heq] at hfree
    exact absurd h hfree
  · obtain ⟨n, -, hn⟩ := List.mem_map.mp hmem
    exact ⟨n, hn.symm⟩

/-- A header cell gets its name after those before it. -/
theorem getElem?_columnNames (h : header[position]? = some cell) :
    (columnNames header).value[position]? =
      some (freeName ((columnNames header).value.take position) (baseName position cell)) := by
  induction header using List.reverseRecOn with
  | nil => cases h
  | append_singleton header last ih =>
    obtain ⟨hlength, -, -⟩ := columnNames_spec header
    rw [columnNames_concat, Logged.value_bind, value_addName]
    rcases Nat.lt_or_ge position header.length with hlt | hge
    · rw [List.getElem?_append_left hlt] at h
      rw [List.getElem?_append_left (by omega), List.take_append_of_le_length (by omega)]
      exact ih h
    · have hbound := (List.getElem?_eq_some_iff.mp h).1
      rw [List.length_append, List.length_singleton] at hbound
      obtain rfl : position = header.length := by omega
      rw [List.getElem?_concat_length, Option.some.injEq] at h
      rw [← hlength, List.getElem?_concat_length, List.take_left', hlength, h]
      rfl

/-- The header cell at a position says what no other one says. -/
structure OnlyAt (header : List String) (position : Nat) (name : String) : Prop where
  said : (header.map Text.trim)[position]? = some name
  ne_empty : name ≠ ""
  only : ∀ other, (header.map Text.trim)[other]? = some name → other = position

theorem onlyAt_iff : OnlyAt header position name ↔
    (header.map Text.trim)[position]? = some name ∧ name ≠ "" ∧
      ∀ other < header.length, (header.map Text.trim)[other]? = some name → other = position := by
  constructor
  · rintro ⟨hsaid, hne, honly⟩
    exact ⟨hsaid, hne, fun other _ => honly other⟩
  · rintro ⟨hsaid, hne, honly⟩
    refine ⟨hsaid, hne, fun other hother => honly other ?_ hother⟩
    have hlt := (List.getElem?_eq_some_iff.mp hother).1
    rwa [List.length_map] at hlt

instance : Decidable (OnlyAt header position name) := decidable_of_iff' _ onlyAt_iff

/-- The name is made up for the header cell at a position: by the position when the cell is blank,
and else with a number. -/
def MadeUp (header : List String) (position : Nat) (name : String) : Prop :=
  ∃ cell, header[position]? = some cell ∧
    (Text.trim cell = "" ∧ name = baseName position cell ∨
      ∃ n, name = numberedName (baseName position cell) n)

/-- A column before a position has a name that is made up. -/
def TakenBefore (header : List String) (position : Nat) (name : String) : Prop :=
  ∃ earlier < position, (columnNames header).value[earlier]? = some name ∧
    MadeUp header earlier name

theorem baseName_of_ne_empty (h : Text.trim cell ≠ "") : baseName position cell = Text.trim cell :=
  if_neg h

/-- What an earlier column has of a name that only one cell says is made up. -/
theorem OnlyAt.madeUp (h : OnlyAt header position name) {earlier : Nat}
    (hearlier : earlier < position) (hname : (columnNames header).value[earlier]? = some name) :
    MadeUp header earlier name := by
  obtain ⟨hlength, -, -⟩ := columnNames_spec header
  have hlt : earlier < header.length := by
    rw [← hlength]
    exact (List.getElem?_eq_some_iff.mp hname).1
  have hcell := List.getElem?_eq_getElem hlt
  have hgiven := (getElem?_columnNames hcell).symm.trans hname
  refine ⟨_, hcell, ?_⟩
  rcases em (baseName earlier header[earlier] ∈ (columnNames header).value.take earlier)
    with hmem | hmem
  · obtain ⟨n, hn⟩ := freeName_of_mem hmem
    exact .inr ⟨n, (Option.some.inj hgiven).symm.trans hn⟩
  · rw [freeName_of_not_mem hmem, Option.some.injEq] at hgiven
    by_cases hblank : Text.trim header[earlier] = ""
    · exact .inl ⟨hblank, hgiven.symm⟩
    · rw [baseName_of_ne_empty hblank] at hgiven
      have hsame := h.only earlier (by rw [List.getElem?_map, hcell, Option.map_some, hgiven])
      omega

/-- A cell that says what no other one says names its column, unless an earlier column has that
name. -/
theorem OnlyAt.getElem?_columnNames_iff (h : OnlyAt header position name) :
    (columnNames header).value[position]? = some name ↔ ¬TakenBefore header position name := by
  obtain ⟨-, hdistinct, -⟩ := columnNames_spec header
  obtain ⟨cell, hcell, hsaid⟩ := Option.map_eq_some_iff.mp (List.getElem?_map.symm.trans h.said)
  have hbase : baseName position cell = name := by
    rw [baseName_of_ne_empty (by rw [hsaid]; exact h.ne_empty), hsaid]
  constructor
  · rintro hname ⟨earlier, hearlier, hearlierName, -⟩
    have hlt := (List.getElem?_eq_some_iff.mp hearlierName).1
    have hsame := (List.getElem?_inj hlt hdistinct).mp (hearlierName.trans hname.symm)
    omega
  · intro hfree
    rw [getElem?_columnNames hcell, hbase, freeName_of_not_mem]
    intro hmem
    obtain ⟨earlier, hearlier⟩ := List.getElem?_of_mem hmem
    rw [List.getElem?_take] at hearlier
    split at hearlier
    · next hlt => exact hfree ⟨earlier, hlt, hearlier, h.madeUp hlt hearlier⟩
    · cases hearlier

/-- A cell that says what no other one says names its column if and only if no column before it
has a made up name of the same text. A look-up by what the cell says reads its column just then, and
else the column before it that has the name. -/
theorem unique_header_kept_iff (h : OnlyAt header position name) :
    ((columnNames header).value[position]? = some name ↔ ¬TakenBefore header position name) ∧
    ∀ options text t, headerCells options (rawRecords options text) = .ok header →
      (loadText options text).run.value = .ok t →
        ∃ column, t.columns[column]? = some name ∧ column ≤ position ∧
          (column = position ↔ ¬TakenBefore header position name) ∧
          ∀ keyColumn key row, t.search? keyColumn key = some row →
            t.searched name keyColumn key = .found ((t.cell? row column).getD .empty) := by
  refine ⟨h.getElem?_columnNames_iff, fun options text t hheader hload => ?_⟩
  have hcolumns := columns_of_loadText hheader hload
  have hsound := (rows_of_loadText hload).1
  obtain ⟨column, hname, hle, hcolumn⟩ : ∃ column, t.columns[column]? = some name ∧
      column ≤ position ∧ (column = position ↔ ¬TakenBefore header position name) := by
    rw [hcolumns]
    by_cases htaken : TakenBefore header position name
    · obtain ⟨earlier, hearlier, hname, -⟩ := id htaken
      exact ⟨earlier, hname, hearlier.le, iff_of_false hearlier.ne (not_not_intro htaken)⟩
    · exact ⟨position, h.getElem?_columnNames_iff.mpr htaken, le_rfl, iff_of_true rfl htaken⟩
  refine ⟨column, hname, hle, hcolumn, fun keyColumn key row hrow => ?_⟩
  obtain ⟨keyPosition, hkey, -⟩ := Option.bind_eq_some_iff.mp hrow
  simp only [Table.searched, hkey, hsound.columnIndex?_eq_some.mpr hname, hrow]

/-- A name with a number stays with the cell that says it when the repeated cells are numbered
otherwise. -/
theorem unique_header_kept_sample :
    let header := ["fee", "", " fee", "fee.2 "]
    OnlyAt header 3 "fee.2" ∧
      ((columnNames header).value[3]? = some "fee.2" ↔ ¬TakenBefore header 3 "fee.2") ∧
      (columnNames header).value = ["fee", "Unnamed: 1", "fee.1", "fee.2"] := by
  intro header
  have honly : OnlyAt header 3 "fee.2" := by decide +kernel
  exact ⟨honly, (unique_header_kept_iff honly).1, by decide +kernel⟩

/-- The second of two equal cells takes the name of a third one, so that a look-up by what the third
one says reads the second column. -/
theorem not_unique_header_kept :
    let header := ["id", "fee", "fee", "fee.1"]
    OnlyAt header 3 "fee.1" ∧ (columnNames header).value = ["id", "fee", "fee.1", "fee.1.1"] ∧
      ∃ t, (loadText {} "id,fee,fee,fee.1\n7,1,2,3\n").run.value = .ok t ∧
        t.searched "fee.1" "id" "7" = .found (.number 2) ∧ t.cell? 0 3 = some (.number 3) := by
  intro header
  refine ⟨by decide +kernel, by decide +kernel, ?_⟩
  obtain ⟨t, hload, ht⟩ := map_eq_ok.mp
    (show (loadText {} "id,fee,fee,fee.1\n7,1,2,3\n").run.value.map
        (fun t => (t.searched "fee.1" "id" "7", t.cell? 0 3)) =
      .ok (.found (.number 2), some (.number 3)) from by decide +kernel)
  exact ⟨t, hload, congrArg Prod.fst ht, congrArg Prod.snd ht⟩

end LedgerFields.Delimited
