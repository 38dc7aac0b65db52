import LedgerFields.Proofs.Cell
import LedgerFields.Proofs.Delimited.Load
import LedgerFields.Proofs.Table.History

/-! The keys of a file's rows. A field that spells a finite number has the text of that number as
its key, whichever spelling of it the file has, and any other field has its own text. So a row is
found by what is written in the file unless that is a number written in another way. -/

namespace LedgerFields.Delimited

open Number Cell

/-- The finite number that a text spells. -/
def spelledNumber? (text : String) : Option Float :=
  (readFloat? text).filter Float.isFinite

/-- The key of a field with this text. -/
def keyOf (text : String) : String :=
  match spelledNumber? text with
  | some x => numberText x
  | none => text

section

variable {text other : String} {x : Float}

theorem isFinite_of_spelledNumber? (h : spelledNumber? text = some x) : x.isFinite = true :=
  (Option.filter_eq_some_iff.mp h).2

theorem keyOf_of_some (h : spelledNumber? text = some x) : keyOf text = numberText x := by
  rw [keyOf, h]

theorem keyOf_of_none (h : spelledNumber? text = none) : keyOf text = text := by
  rw [keyOf, h]

theorem spelledNumber?_numberText (h : x.isFinite = true) :
    ∃ y, spelledNumber? (numberText x) = some y ∧ value? y = value? x := by
  obtain ⟨y, hread, hvalue⟩ := readFloat?_numberText h
  have hy : y.isFinite = true := by
    rw [← isSome_value?, hvalue, isSome_value?]
    exact h
  exact ⟨y, Option.filter_eq_some_iff.mpr ⟨hread, hy⟩, hvalue⟩

/-- A key is its own key. -/
theorem keyOf_keyOf (text : String) : keyOf (keyOf text) = keyOf text := by
  cases hspelled : spelledNumber? text with
  | none => rw [keyOf_of_none hspelled, keyOf_of_none hspelled]
  | some x =>
    have hx := isFinite_of_spelledNumber? hspelled
    obtain ⟨y, hy, hvalue⟩ := spelledNumber?_numberText hx
    rw [keyOf_of_some hspelled, keyOf_of_some hy,
      numberText_eq_iff (isFinite_of_spelledNumber? hy) hx]
    exact hvalue

theorem keyOf_eq_iff_of_none (h : spelledNumber? text = none) :
    keyOf other = keyOf text ↔ other = text := by
  constructor
  · intro heq
    cases hother : spelledNumber? other with
    | none => rwa [keyOf_of_none hother, keyOf_of_none h] at heq
    | some y =>
      obtain ⟨z, hz, -⟩ := spelledNumber?_numberText (isFinite_of_spelledNumber? hother)
      rw [← keyOf_of_some hother, heq, keyOf_of_none h, h] at hz
      cases hz
  · rintro rfl
    rfl

theorem keyOf_eq_iff_of_some (h : spelledNumber? text = some x) :
    keyOf other = keyOf text ↔ ∃ y, spelledNumber? other = some y ∧ value? y = value? x := by
  have hx := isFinite_of_spelledNumber? h
  rw [keyOf_of_some h]
  constructor
  · intro heq
    cases hother : spelledNumber? other with
    | none =>
      rw [keyOf_of_none hother] at heq
      obtain ⟨y, hy, -⟩ := spelledNumber?_numberText hx
      rw [← heq, hother] at hy
      cases hy
    | some y =>
      rw [keyOf_of_some hother, numberText_eq_iff (isFinite_of_spelledNumber? hother) hx] at heq
      exact ⟨y, rfl, heq⟩
  · rintro ⟨y, hother, hvalue⟩
    rw [keyOf_of_some hother, numberText_eq_iff (isFinite_of_spelledNumber? hother) hx]
    exact hvalue

theorem spelledNumber?_of_notAvailable (h : text ∈ notAvailable) : spelledNumber? text = none := by
  have hall : notAvailable.all (fun text => (spelledNumber? text).isNone) = true := by
    decide +kernel
  exact Option.isNone_iff_eq_none.mp (List.all_eq_true.mp hall text h)

theorem keyOf_ne_empty (h : text ∉ notAvailable) : keyOf text ≠ "" := by
  cases hspelled : spelledNumber? text with
  | none =>
    rw [keyOf_of_none hspelled]
    rintro rfl
    exact h (by decide)
  | some x =>
    rw [keyOf_of_some hspelled]
    exact numberText_ne_empty (isFinite_of_spelledNumber? hspelled)

theorem trim_keyOf (h : Text.trim text = text) : Text.trim (keyOf text) = keyOf text := by
  cases hspelled : spelledNumber? text with
  | none => rwa [keyOf_of_none hspelled]
  | some x =>
    rw [keyOf_of_some hspelled]
    exact trim_numberText (isFinite_of_spelledNumber? hspelled)

theorem keyText_cellOfField (field : String) : (cellOfField field).keyText =
    if Text.trim field ∈ notAvailable then "" else keyOf (Text.trim field) := by
  unfold cellOfField
  by_cases hnone : Text.trim field ∈ notAvailable
  · simp only [if_pos hnone]
    rfl
  · simp only [if_neg hnone]
    unfold keyOf spelledNumber?
    cases hread : readFloat? (Text.trim field) with
    | none => rfl
    | some x =>
      by_cases hx : x.isFinite = true
      · simp [Option.filter, hx, keyText]
      · simp [Option.filter, hx, keyText]

end

/-! ### Finding rows -/

/-- The field of a data row in a column is written `text` when the blanks around it are dropped. -/
def WrittenAt (options : Options) (content : FileContent) (column row : Nat) (text : String) :
    Prop :=
  ∃ field, FieldAt options content column row field ∧ Text.trim field = text

/-- The field of a data row in a column says something, and has this key. -/
def RowHasKey (options : Options) (content : FileContent) (column : Nat) (key : String)
    (row : Nat) : Prop :=
  ∃ text, WrittenAt options content column row text ∧ text ∉ notAvailable ∧ keyOf text = key

section

variable {options : Options} {content : FileContent} {t : Table} {column row : Nat}
  {text keyColumn : String}

theorem WrittenAt.trimmed (h : WrittenAt options content column row text) :
    Text.trim text = text := by
  obtain ⟨field, -, rfl⟩ := h
  exact Text.trim_trim field

theorem rowHasKey_iff_of_none (h : spelledNumber? text = none) (havailable : text ∉ notAvailable) :
    RowHasKey options content column (keyOf text) row ↔
      WrittenAt options content column row text := by
  constructor
  · rintro ⟨other, hwritten, -, hkey⟩
    obtain rfl := (keyOf_eq_iff_of_none h).mp hkey
    exact hwritten
  · intro hwritten
    exact ⟨text, hwritten, havailable, rfl⟩

theorem rowHasKey_iff_of_some {x : Float} (h : spelledNumber? text = some x) :
    RowHasKey options content column (keyOf text) row ↔
      ∃ other y, WrittenAt options content column row other ∧ spelledNumber? other = some y ∧
        value? y = value? x := by
  constructor
  · rintro ⟨other, hwritten, -, hkey⟩
    obtain ⟨y, hspelled, hvalue⟩ := (keyOf_eq_iff_of_some h).mp hkey
    exact ⟨other, y, hwritten, hspelled, hvalue⟩
  · rintro ⟨other, y, hwritten, hspelled, hvalue⟩
    refine ⟨other, hwritten, ?_, (keyOf_eq_iff_of_some h).mpr ⟨y, hspelled, hvalue⟩⟩
    intro hmem
    rw [spelledNumber?_of_notAvailable hmem] at hspelled
    cases hspelled

/-- The keys of the rows of a table that is loaded are those of the fields of the file. -/
theorem hasKey_iff_rowHasKey (hload : (load options content).run.value = .ok t)
    (hcolumn : t.columns[column]? = some keyColumn) (key : String) :
    HasKey t.columns t.rows.toList keyColumn key row ↔
      RowHasKey options content column (Text.trim key) row := by
  have hsound := sound_of_load hload
  have hlength := (List.getElem?_eq_some_iff.mp hcolumn).1
  constructor
  · rintro ⟨column', cells, cell, hcolumn', hcells, hget, hne, hkey⟩
    obtain rfl : column = column' :=
      (List.getElem?_inj hlength hsound.distinct).mp (hcolumn.trans hcolumn'.symm)
    have hcell : cell ≠ .empty := by
      rintro rfl
      exact hne rfl
    obtain ⟨field, hfield, rfl⟩ := (cell_iff_of_load hload hcell).mp ⟨cells, hcells, hget⟩
    rw [keyText_cellOfField] at hne hkey
    by_cases hnone : Text.trim field ∈ notAvailable
    · rw [if_pos hnone] at hne
      exact absurd rfl hne
    · rw [if_neg hnone] at hkey
      exact ⟨_, ⟨field, hfield, rfl⟩, hnone, hkey⟩
  · rintro ⟨_, ⟨field, hfield, rfl⟩, havailable, hkey⟩
    have hkeyText := keyText_cellOfField field
    rw [if_neg havailable] at hkeyText
    have hne := keyOf_ne_empty havailable
    rw [← hkeyText] at hkey hne
    have hcell : cellOfField field ≠ .empty := by
      intro hempty
      rw [hempty] at hne
      exact hne rfl
    obtain ⟨cells, hcells, hget⟩ := (cell_iff_of_load hload hcell).mpr ⟨field, hfield, rfl⟩
    exact ⟨column, cells, _, hcolumn, hcells, hget, hne, hkey⟩

/-- A key that a row of the file has finds the first row that has it. -/
theorem rowFound?_of_rowHasKey (hload : (load options content).run.value = .ok t)
    (hcolumn : t.columns[column]? = some keyColumn) {key : String} (htrim : Text.trim key = key)
    (hrow : RowHasKey options content column key row) :
    ∃ first, t.rowFound? keyColumn key = some first ∧
      IsLeast {n | RowHasKey options content column key n} first := by
  have hfirst := Table.isFirstRow_rowFound? (sound_of_load hload) keyColumn key
  have hkey (n : Nat) : HasKey t.columns t.rows.toList keyColumn key n ↔
      RowHasKey options content column key n := by
    rw [hasKey_iff_rowHasKey hload hcolumn, htrim]
  cases hfound : t.rowFound? keyColumn key with
  | none =>
    rw [hfound] at hfirst
    exact absurd ((hkey row).mpr hrow) (hfirst row)
  | some first =>
    rw [hfound] at hfirst
    have hleast : IsLeast {n | HasKey t.columns t.rows.toList keyColumn key n} first := hfirst
    simp only [hkey] at hleast
    exact ⟨first, rfl, hleast⟩

/-- A text that is not its own key finds no row. -/
theorem rowFound?_eq_none (hload : (load options content).run.value = .ok t)
    (hcolumn : t.columns[column]? = some keyColumn) (htrim : Text.trim text = text)
    (hne : keyOf text ≠ text) : t.rowFound? keyColumn text = none := by
  have hfirst := Table.isFirstRow_rowFound? (sound_of_load hload) keyColumn text
  cases hfound : t.rowFound? keyColumn text with
  | none => rfl
  | some first =>
    rw [hfound] at hfirst
    have hleast : IsLeast {n | HasKey t.columns t.rows.toList keyColumn text n} first := hfirst
    obtain ⟨other, -, -, hkey⟩ := (hasKey_iff_rowHasKey hload hcolumn text).mp hleast.1
    rw [htrim] at hkey
    rw [← hkey, keyOf_keyOf] at hne
    exact absurd rfl hne

/-- Of a data row whose key field says something: a text that spells no finite number finds the
first row in which it is written. A number is found by its own text, which finds the first row that
spells a number of that value, and by no other spelling. -/
theorem row_found_as_written (hload : (load options content).run.value = .ok t)
    (hcolumn : t.columns[column]? = some keyColumn)
    (hwritten : WrittenAt options content column row text) (havailable : text ∉ notAvailable) :
    (spelledNumber? text = none → ∃ first, t.rowFound? keyColumn text = some first ∧
      IsLeast {n | WrittenAt options content column n text} first) ∧
    (∀ x, spelledNumber? text = some x → ∃ first,
      IsLeast {n | ∃ other y, WrittenAt options content column n other ∧
        spelledNumber? other = some y ∧ value? y = value? x} first ∧
      t.rowFound? keyColumn (numberText x) = some first ∧
      t.rowFound? keyColumn text = if text = numberText x then some first else none) := by
  have hrow : RowHasKey options content column (keyOf text) row :=
    ⟨text, hwritten, havailable, rfl⟩
  obtain ⟨first, hfound, hleast⟩ :=
    rowFound?_of_rowHasKey hload hcolumn (trim_keyOf hwritten.trimmed) hrow
  constructor
  · intro hnone
    simp only [rowHasKey_iff_of_none hnone havailable] at hleast
    rw [keyOf_of_none hnone] at hfound
    exact ⟨first, hfound, hleast⟩
  · intro x hsome
    simp only [rowHasKey_iff_of_some hsome] at hleast
    rw [keyOf_of_some hsome] at hfound
    refine ⟨first, hleast, hfound, ?_⟩
    by_cases htext : text = numberText x
    · rw [if_pos htext, htext]
      exact hfound
    · rw [if_neg htext]
      apply rowFound?_eq_none hload hcolumn hwritten.trimmed
      rw [keyOf_of_some hsome]
      exact Ne.symm htext

/-- Two spellings of one number, and a text between them. -/
def spellings : FileContent := .ok (Text.toBytes "k,v\n007,1\nab,2\n7,3\n")

theorem load_spellings : ∃ t, (load {} spellings).run.value = .ok t ∧ t.columns[0]? = some "k" :=
  map_eq_ok.mp (show (load {} spellings).run.value.map (·.columns[0]?) = .ok (some "k") from rfl)

theorem writtenAt_spellings :
    WrittenAt {} spellings 0 0 "007" ∧ WrittenAt {} spellings 0 1 "ab" := by
  refine ⟨⟨"007", ⟨"k,v\n007,1\nab,2\n7,3\n", (⟨⟨4, 2⟩, [[0x30, 0x30, 0x37], [0x31]]⟩, 1),
    ["007", "1"], ?_⟩, by decide⟩, ⟨"ab", ⟨"k,v\n007,1\nab,2\n7,3\n",
    (⟨⟨10, 3⟩, [[0x61, 0x62], [0x32]]⟩, 2), ["ab", "2"], ?_⟩, by decide⟩⟩
  · decide +kernel
  · decide +kernel

/-- The text finds its row. The number is found by `7`, in the row that spells it `007`. -/
theorem row_found_as_written_sample : ∃ t, (load {} spellings).run.value = .ok t ∧
    (∃ first, t.rowFound? "k" "ab" = some first ∧
      IsLeast {n | WrittenAt {} spellings 0 n "ab"} first) ∧
    ∃ first, IsLeast {n | ∃ other y, WrittenAt {} spellings 0 n other ∧
        spelledNumber? other = some y ∧ value? y = value? 7} first ∧
      t.rowFound? "k" "7" = some first ∧ t.rowFound? "k" "007" = none := by
  obtain ⟨t, hload, hcolumn⟩ := load_spellings
  obtain ⟨hnumber, htext⟩ := writtenAt_spellings
  refine ⟨t, hload, ?_, ?_⟩
  · exact (row_found_as_written hload hcolumn htext (by decide)).1 (by decide +kernel)
  · obtain ⟨first, hleast, hfound, hwritten⟩ :=
      (row_found_as_written hload hcolumn hnumber (by decide)).2 7 (by decide +kernel)
    have hseven : numberText 7 = "7" := by decide +kernel
    rw [hseven] at hfound hwritten
    exact ⟨first, hleast, hfound, hwritten⟩

/-- A row is not always found by its key as the file has it, whatever byte stands between fields. -/
theorem not_row_found_as_written : ¬∀ (delimiter : Option UInt8) (content : FileContent) (t : Table)
    (keyColumn : String) (column row : Nat) (text : String),
    (load ⟨delimiter, 0x22, true⟩ content).run.value = .ok t →
    t.columns[column]? = some keyColumn →
    WrittenAt ⟨delimiter, 0x22, true⟩ content column row text → text ∉ notAvailable →
    ∃ first, t.rowFound? keyColumn text = some first ∧
      IsLeast {n | WrittenAt ⟨delimiter, 0x22, true⟩ content column n text} first := by
  intro h
  obtain ⟨t, hload, hcolumn⟩ := load_spellings
  obtain ⟨first, hfound, -⟩ :=
    h none spellings t "k" 0 0 "007" hload hcolumn writtenAt_spellings.1 (by decide)
  rw [rowFound?_eq_none hload hcolumn (by decide) (by decide +kernel)] at hfound
  cases hfound

end

end LedgerFields.Delimited
