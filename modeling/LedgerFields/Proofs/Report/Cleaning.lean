import LedgerFields.Proofs.Report.Independence
import LedgerFields.Proofs.Report.Opening

/-! What cleaning does to the settings of a field. A document loses the blanks of its column names
and codes, so that an item addresses what its texts name without them. Where a column has a blank in
its name, no item addresses it, though a direct call does. -/

namespace LedgerFields.Report

variable {options : Options} {t : Table} {d : Document} {entries : List Entry}
  {a k v : String}

/-- The field of a cell has the texts of its item without their blanks. -/
theorem readField_singleCell {separator : Char} {settings : List (String × Json)} {field : Field}
    (h : Document.readField .singleCell separator none (.object settings) = .ok field)
    (ha : Json.member? settings SettingKey.keyColumn.name = some (.string a))
    (hk : Json.member? settings SettingKey.accountCode.name = some (.string k))
    (hv : Json.member? settings SettingKey.valueColumn.name = some (.string v)) :
    ∃ id, Json.member? settings SettingKey.id.name = some id ∧
      field = ⟨id, Text.dropBlanks a, .cells (Text.dropBlanks k) (Text.dropBlanks v)⟩ := by
  obtain ⟨_, id, keyColumn, content, hitem, hid, hkeyColumn, hcontent, rfl⟩ :=
    Document.readField_eq_ok.mp h
  cases hitem
  obtain ⟨codes, hcodes, hcontent⟩ := bind_eq_ok.mp hcontent
  obtain ⟨columns, hcolumns, hcontent⟩ := bind_eq_ok.mp hcontent
  cases hcontent
  cases ha.symm.trans (Document.requiredText_eq_ok.mp hkeyColumn)
  cases hk.symm.trans (Document.requiredText_eq_ok.mp hcodes)
  cases hv.symm.trans (Document.requiredText_eq_ok.mp hcolumns)
  exact ⟨id, Document.required_eq_ok.mp hid, rfl⟩

/-- An item of one cell has the outcome of a direct call with its texts without their blanks. -/
theorem entry_singleCell (ht : t.Sound) (hspecial : d.special? = none)
    (h : (computeDocument options t d).run.value = .ok entries) {n : Nat}
    {settings : List (String × Json)}
    (hitem : d.items[n]? = some (.singleCell, .object settings))
    (ha : Json.member? settings SettingKey.keyColumn.name = some (.string a))
    (hk : Json.member? settings SettingKey.accountCode.name = some (.string k))
    (hv : Json.member? settings SettingKey.valueColumn.name = some (.string v)) :
    ∃ id, Json.member? settings SettingKey.id.name = some id ∧
      entries[n]? = some (.field id ((singleCell (Text.dropBlanks a) (Text.dropBlanks k)
        (Text.dropBlanks v)).run t).value.1) := by
  obtain ⟨entry, hentry, field, hfield, rfl⟩ :=
    exists_of_forall₂ (forall₂_computeDocument ht h).flip hitem
  rw [hspecial] at hfield
  obtain ⟨id, hid, rfl⟩ := readField_singleCell hfield ha hk hv
  refine ⟨id, hid, ?_⟩
  rw [hentry, (views_computeField _ _ _).value_run ht.fresh, (Table.sameData_fresh t).view_eq,
    (views_singleCell _ _ _).value_run ht]
  rfl

theorem hasKey_trim {columns : List String} {rows : List (List Cell)} {r : Nat} :
    HasKey columns rows a (Text.trim k) r ↔ HasKey columns rows a k r := by
  unfold HasKey
  rw [Text.trim_trim]

theorem mem_columns_of_hasKey {columns : List String} {rows : List (List Cell)} {r : Nat}
    (h : HasKey columns rows a k r) : a ∈ columns := by
  obtain ⟨_, _, _, hposition, -⟩ := h
  exact List.mem_of_getElem? hposition

theorem not_isBlankText_of_hasKey {columns : List String} {rows : List (List Cell)} {r : Nat}
    (h : HasKey columns rows a k r) : Text.isBlankText k = false := by
  obtain ⟨_, _, cell, -, -, -, hne, hkey⟩ := h
  exact Text.not_isBlankText_of_trim (hkey ▸ hne)

/-- With a key that a row has, a search finds the cell of the first such row. -/
theorem exists_found (ht : t.Sound) {r : Nat} (hkey : HasKey t.columns t.rows.toList a k r)
    (hv : v ∈ t.columns) : ∃ cell, t.searched v a k = .found cell ∧
      Finds t.columns t.rows.toList v a k (.found cell) := by
  have hfinds := Table.finds_searched ht v a k
  cases hanswer : t.searched v a k with
  | found cell => exact ⟨cell, rfl, hanswer ▸ hfinds⟩
  | missing what =>
    rw [hanswer] at hfinds
    cases hfinds with
    | keyColumn hnot => exact absurd (mem_columns_of_hasKey hkey) hnot
    | column _ hnot => exact absurd hv hnot
    | key _ _ hnone => exact absurd hkey (hnone r)

/-- A direct call with names of columns and a key that a row has answers from the cell of the first
such row. -/
theorem singleCell_of_hasKey (ht : t.Sound) (hnames : ∀ name ∈ t.columns, name ≠ "") {r : Nat}
    (hkey : HasKey t.columns t.rows.toList a k r) (hv : v ∈ t.columns) :
    ∃ cell, Finds t.columns t.rows.toList v a (Text.trim k) (.found cell) ∧
      ((singleCell a k v).run t).value.1 = cellOutcome a (Text.trim k) v (.found cell) := by
  have ha := mem_columns_of_hasKey hkey
  obtain ⟨cell, hfound, hfinds⟩ := exists_found ht (hasKey_trim.mpr hkey) hv
  have hblank {name : String} (hname : name ∈ t.columns) : Text.isBlankText name = false :=
    Text.not_isBlankText_of_trim (by rw [ht.trimmed name hname]; exact hnames name hname)
  have hsettings : [a, k, v].any Text.isBlankText = false := by
    simp [hblank ha, hblank hv, not_isBlankText_of_hasKey hkey]
  have hcolumns : (!t.hasColumn a || !t.hasColumn v) = false := by
    rw [Table.hasColumn_iff.mpr ha, Table.hasColumn_iff.mpr hv]
    rfl
  refine ⟨cell, hfinds, ?_⟩
  rw [(views_singleCell a k v).value_run ht, View.singleCell, ht.trimmed a ha, ht.trimmed v hv,
    if_neg (ne_true_of_eq_false hsettings)]
  show (if (!t.hasColumn a || !t.hasColumn v) = true then _ else
    cellOutcome a (Text.trim k) v (t.searched v a (Text.trim k))) = _
  rw [if_neg (ne_true_of_eq_false hcolumns), hfound]

/-- A direct call with texts that are not blank misses a column. -/
theorem singleCell_of_missing (ht : t.Sound) (hblank : [a, k, v].any Text.isBlankText = false)
    (hmissing : Text.trim a ∉ t.columns ∨ Text.trim v ∉ t.columns) :
    ((singleCell a k v).run t).value.1 = columnsMissing (Text.trim a) (Text.trim v) := by
  have hcolumns : (!t.hasColumn (Text.trim a) || !t.hasColumn (Text.trim v)) = true := by
    simpa only [Bool.or_eq_true, Bool.not_eq_true', ← Bool.not_eq_true, Table.hasColumn_iff]
      using hmissing
  rw [(views_singleCell a k v).value_run ht, View.singleCell,
    if_neg (ne_true_of_eq_false hblank)]
  exact if_pos hcolumns

/-- An item of one cell has the outcome of a direct call with its texts without their blanks, and so
that of a call with the texts themselves if they have none. When names of columns or a key that is
there have blanks, a call with the texts themselves answers from the cell that they address; the
item misses a column as soon as a name without its blanks is not that of one. -/
theorem item_addresses_cleaned {data : Delimited.Options} {content : FileContent}
    (hload : (Delimited.load data content).run.value = .ok t) (hspecial : d.special? = none)
    (h : (computeDocument options t d).run.value = .ok entries) {n : Nat}
    {settings : List (String × Json)}
    (hitem : d.items[n]? = some (.singleCell, .object settings))
    (ha : Json.member? settings SettingKey.keyColumn.name = some (.string a))
    (hk : Json.member? settings SettingKey.accountCode.name = some (.string k))
    (hv : Json.member? settings SettingKey.valueColumn.name = some (.string v)) :
    let direct (a k v : String) : Outcome := ((singleCell a k v).run t).value.1
    let cleaned : Outcome := direct (Text.dropBlanks a) (Text.dropBlanks k) (Text.dropBlanks v)
    (∃ id, Json.member? settings SettingKey.id.name = some id ∧
      entries[n]? = some (.field id cleaned)) ∧
    ((∀ text ∈ [a, k, v], ∀ c ∈ text.toList, Text.isBlank c = false) → cleaned = direct a k v) ∧
    ∀ r, HasKey t.columns t.rows.toList a k r → v ∈ t.columns →
      (∃ cell, Finds t.columns t.rows.toList v a (Text.trim k) (.found cell) ∧
        direct a k v = cellOutcome a (Text.trim k) v (.found cell)) ∧
      (Text.dropBlanks a ∉ t.columns ∨ Text.dropBlanks v ∉ t.columns →
        cleaned = columnsMissing (Text.dropBlanks a) (Text.dropBlanks v)) := by
  have hsound := Delimited.sound_of_load hload
  obtain ⟨_, -, hpromised⟩ := promised_of_load hload
  have hnames : ∀ name ∈ t.columns, name ≠ "" := fun name hname =>
    (hpromised.names name hname).ne_empty
  have hnotBlank {name : String} (hname : name ∈ t.columns) : Text.isBlankText name = false :=
    Text.not_isBlankText_of_trim (by rw [hsound.trimmed name hname]; exact hnames name hname)
  refine ⟨entry_singleCell hsound hspecial h hitem ha hk hv, fun hclean => ?_, ?_⟩
  · simp only [List.forall_mem_cons, List.not_mem_nil, false_imp_iff, implies_true, and_true,
      ← Text.dropBlanks_eq_self_iff] at hclean
    obtain ⟨ha, hk, hv⟩ := hclean
    simp only [ha, hk, hv]
  · intro r hkey hvMem
    refine ⟨singleCell_of_hasKey hsound hnames hkey hvMem, fun hmissing => ?_⟩
    have hblank : [Text.dropBlanks a, Text.dropBlanks k, Text.dropBlanks v].any
        Text.isBlankText = false := by
      simp only [List.any_cons, List.any_nil, Text.isBlankText_dropBlanks,
        hnotBlank (mem_columns_of_hasKey hkey), hnotBlank hvMem, not_isBlankText_of_hasKey hkey,
        Bool.or_false]
    have hcall := singleCell_of_missing hsound hblank (by simpa using hmissing)
    simpa only [Text.trim_dropBlanks] using hcall

/-- A data file in which the name of a column has a blank. -/
def spacedFile : FileContent := .ok (Text.toBytes "k,opening balance\na,1\n")

/-- The settings of an item that names this column. -/
def spacedSettings : List (String × Json) :=
  [("id", .integer 1), ("account_col_name", .string "k"), ("account_code", .string "a"),
    ("value_col_name", .string "opening balance")]

/-- A document with that item only. -/
def spacedDocument : Document :=
  ⟨[("single_cell", .array [.object spacedSettings])], by simp⟩

theorem items_spacedDocument :
    spacedDocument.items[0]? = some (.singleCell, .object spacedSettings) := rfl

theorem load_spacedFile : ∃ t entries, (Delimited.load {} spacedFile).run.value = .ok t ∧
    (computeDocument {} t spacedDocument).run.value = .ok entries ∧
    t.columns = ["k", "opening balance"] ∧ HasKey t.columns t.rows.toList "k" "a" 0 ∧
    ((singleCell "k" "a" "opening balance").run t).value.1 = .value 1 := by
  obtain ⟨t, hload, hdata⟩ := map_eq_ok.mp
    (by decide +kernel : (Delimited.load {} spacedFile).run.value.map
      (fun t => (t.columns, t.rows.toList,
        ((singleCell "k" "a" "opening balance").run t).value.1)) =
        .ok (["k", "opening balance"], [[.text "a", .number 1]], .value 1))
  simp only [Prod.mk.injEq] at hdata
  obtain ⟨hcolumns, hrows, hdirect⟩ := hdata
  obtain ⟨entries, h⟩ : ∃ entries, (computeDocument {} t spacedDocument).run.value =
      .ok entries := by
    rw [← errorOf?_eq_none, value_computeDocument, errorOf?_map]
    decide +kernel
  refine ⟨t, entries, hload, h, hcolumns, ?_, hdirect⟩
  rw [hcolumns, hrows]
  exact ⟨0, _, .text "a", rfl, rfl, rfl, by decide +kernel, by decide +kernel⟩

/-- The item misses the column that the direct call reads. -/
theorem item_addresses_cleaned_sample :
    ∃ t entries, (Delimited.load {} spacedFile).run.value = .ok t ∧
      (computeDocument {} t spacedDocument).run.value = .ok entries ∧
      (∃ id, entries[0]? = some (.field id (columnsMissing "k" "openingbalance"))) ∧
      ∃ cell, ((singleCell "k" "a" "opening balance").run t).value.1 =
        cellOutcome "k" "a" "opening balance" (.found cell) := by
  obtain ⟨t, entries, hload, h, hcolumns, hkey, -⟩ := load_spacedFile
  have hkeyColumn : Text.dropBlanks "k" = "k" := by decide
  have hvalueColumn : Text.dropBlanks "opening balance" = "openingbalance" := by decide
  have hcode : Text.trim "a" = "a" := by decide
  obtain ⟨⟨id, -, hentry⟩, -, haddressed⟩ :=
    item_addresses_cleaned hload (by decide +kernel) h items_spacedDocument rfl rfl rfl
  obtain ⟨⟨cell, -, hdirect⟩, hmissing⟩ := haddressed 0 hkey (by rw [hcolumns]; decide)
  rw [hkeyColumn, hvalueColumn] at hentry hmissing
  rw [hmissing (.inr (by rw [hcolumns]; decide))] at hentry
  rw [hcode] at hdirect
  exact ⟨t, entries, hload, h, ⟨id, hentry⟩, cell, hdirect⟩

/-- Items do not address all that direct calls do: cleaning loses the blank that belongs to the name
of a column. -/
theorem not_item_addresses_written :
    ¬∀ (options : Options) (data : Delimited.Options) (content : FileContent) (t : Table)
      (d : Document) (entries : List Entry) (n r : Nat) (settings : List (String × Json))
      (a k v : String),
      (Delimited.load data content).run.value = .ok t → d.special? = none →
      (computeDocument options t d).run.value = .ok entries →
      d.items[n]? = some (.singleCell, .object settings) →
      Json.member? settings SettingKey.keyColumn.name = some (.string a) →
      Json.member? settings SettingKey.accountCode.name = some (.string k) →
      Json.member? settings SettingKey.valueColumn.name = some (.string v) →
      a ∈ t.columns → v ∈ t.columns → HasKey t.columns t.rows.toList a k r → Text.trim k = k →
      ∃ id, entries[n]? = some (.field id ((singleCell a k v).run t).value.1) := by
  intro hwritten
  obtain ⟨t, entries, hload, h, hcolumns, hkey, hdirect⟩ := load_spacedFile
  have hsound := Delimited.sound_of_load hload
  obtain ⟨id, hentry⟩ := hwritten {} {} spacedFile t spacedDocument entries 0 0 spacedSettings "k"
    "a" "opening balance" hload (by decide +kernel) h items_spacedDocument rfl rfl rfl
    (mem_columns_of_hasKey hkey) (by rw [hcolumns]; decide) hkey (by decide)
  obtain ⟨id', -, hentry'⟩ :=
    entry_singleCell hsound (by decide +kernel) h items_spacedDocument rfl rfl rfl
  rw [hentry', hdirect, singleCell_of_missing hsound (by decide)
    (.inr (by rw [hcolumns]; decide))] at hentry
  cases hentry

end LedgerFields.Report
