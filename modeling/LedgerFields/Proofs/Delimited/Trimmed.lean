import LedgerFields.Proofs.Delimited.Header
import LedgerFields.Proofs.Delimited.Load
import LedgerFields.Proofs.Table.Trimmed
import LedgerFields.Proofs.Text.Utf8

/-! Loading with and without the blanks around fields. Whether they are dropped is seen in the texts
of cells only: names of columns are trimmed in any case, and what a field says does not depend on
the blanks around it. So one table is the other with its texts trimmed. -/

namespace LedgerFields.Delimited

/-! ### Fields -/

theorem isBlankByte_iff {b : UInt8} :
    isBlankByte b = true ↔ b = 0x20 ∨ b = 0x09 ∨ b = 0x0A ∨ b = 0x0C ∨ b = 0x0D := by
  simp [isBlankByte]

theorem isBlank_of_isBlankByte {c : Char} {b : UInt8} (hb : isBlankByte b = true)
    (hc : b.toNat = c.toNat) : Text.isBlank c = true := by
  have hchar (c' : Char) (hnat : b.toNat = c'.toNat) (hblank : Text.isBlank c' = true) :
      Text.isBlank c = true := by
    rwa [Char.toNat_inj.mp (hc.symm.trans hnat)]
  rcases isBlankByte_iff.mp hb with rfl | rfl | rfl | rfl | rfl
  · exact hchar ' ' rfl (by decide)
  · exact hchar '\t' rfl (by decide)
  · exact hchar '\n' rfl (by decide)
  · exact hchar '\x0c' rfl (by decide)
  · exact hchar '\r' rfl (by decide)

theorem lt_of_isBlankByte {b : UInt8} (hb : isBlankByte b = true) : b.toNat < 128 := by
  rcases isBlankByte_iff.mp hb with rfl | rfl | rfl | rfl | rfl <;> decide

/-- What blank bytes spell is blank. -/
theorem isBlank_of_encode {cs : List Char}
    (h : ∀ b ∈ cs.flatMap String.utf8EncodeChar, isBlankByte b = true) :
    ∀ c ∈ cs, Text.isBlank c = true := by
  intro c hc
  obtain ⟨b, hb⟩ := List.exists_mem_of_ne_nil _ (@String.utf8EncodeChar_ne_nil c)
  have hblank := h b (List.mem_flatMap.mpr ⟨c, hc, hb⟩)
  exact isBlank_of_isBlankByte hblank ((Text.toNat_of_mem_utf8EncodeChar hb).resolve_right
    (Nat.not_le.mpr (lt_of_isBlankByte hblank)))

/-- Bytes are their trimmed bytes between blank ones. -/
theorem exists_trimBytes (bytes : List UInt8) : ∃ before after,
    bytes = before ++ (trimBytes bytes ++ after) ∧ (∀ b ∈ before, isBlankByte b = true) ∧
      ∀ b ∈ after, isBlankByte b = true := by
  refine ⟨bytes.takeWhile isBlankByte,
    ((bytes.dropWhile isBlankByte).reverse.takeWhile isBlankByte).reverse, ?_, ?_, ?_⟩
  · rw [trimBytes, ← List.reverse_append, List.takeWhile_append_dropWhile, List.reverse_reverse,
      List.takeWhile_append_dropWhile]
  · exact fun b hb => List.mem_takeWhile_imp hb
  · exact fun b hb => List.mem_takeWhile_imp (List.mem_reverse.mp hb)

/-- Bytes that are rid of blank ones at both ends spell a text just when they did before, and the
two texts differ in blanks around them only. -/
theorem ofBytes?_trimBytes (bytes : List UInt8) :
    (Text.ofBytes? (trimBytes bytes)).map Text.trim = (Text.ofBytes? bytes).map Text.trim := by
  obtain ⟨before, after, hbytes, hbefore, hafter⟩ := exists_trimBytes bytes
  have hascii : (∀ b ∈ before, b.toNat < 128) ∧ ∀ b ∈ after, b.toNat < 128 :=
    ⟨fun b hb => lt_of_isBlankByte (hbefore b hb), fun b hb => lt_of_isBlankByte (hafter b hb)⟩
  cases htext : Text.ofBytes? bytes with
  | some text =>
    rw [Text.ofBytes?_eq_some_iff, hbytes] at htext
    obtain ⟨first, rest, hchars, rfl, hrest⟩ := Text.exists_divided htext (.inl hascii.1)
    obtain ⟨middle, last, rfl, hmiddle, rfl⟩ := Text.exists_divided hrest (.inr hascii.2)
    have htrimmed : Text.ofBytes? (trimBytes bytes) = some (String.ofList middle) := by
      rw [Text.ofBytes?_eq_some_iff, Text.toBytes, String.toList_ofList, hmiddle]
    rw [htrimmed, Option.map_some, Option.map_some, Text.trim, Text.trim, String.toList_ofList,
      hchars, Text.trimChars_append (isBlank_of_encode hbefore) (isBlank_of_encode hafter)]
  | none =>
    cases htrimmed : Text.ofBytes? (trimBytes bytes) with
    | none => rfl
    | some middle =>
      rw [Text.ofBytes?_eq_some_iff] at htrimmed
      let around (bytes : List UInt8) : List Char := bytes.map fun b => Char.ofNat b.toNat
      have hspelled : Text.ofBytes? bytes =
          some (String.ofList (around before ++ (middle.toList ++ around after))) := by
        rw [Text.ofBytes?_eq_some_iff, Text.toBytes, String.toList_ofList, List.flatMap_append,
          List.flatMap_append, Text.encode_chars hascii.1, Text.encode_chars hascii.2]
        rw [Text.toBytes] at htrimmed
        rw [htrimmed, ← hbytes]
      rw [htext] at hspelled
      cases hspelled

theorem toOption_decodeFields_cons (number : Nat) (start : Position) (position : Nat)
    (field : List UInt8) (rest : List (List UInt8)) :
    (decodeFields number start position (field :: rest)).toOption =
      (Text.ofBytes? field).bind fun text =>
        (decodeFields number start (position + 1) rest).toOption.map (text :: ·) := by
  rw [decodeFields]
  cases Text.ofBytes? field with
  | none => rfl
  | some text => exact toOption_map _ _

theorem toOption_decodeFields_trimBytes (number : Nat) (start : Position) (position : Nat)
    (fields : List (List UInt8)) :
    (decodeFields number start position (fields.map trimBytes)).toOption.map (·.map Text.trim) =
      (decodeFields number start position fields).toOption.map (·.map Text.trim) := by
  induction fields generalizing position with
  | nil => rfl
  | cons field fields ih =>
    have hcons (text : String) (rest : Option (List String)) :
        (rest.map (text :: ·)).map (·.map Text.trim) =
          (rest.map (·.map Text.trim)).map (Text.trim text :: ·) := by
      rw [Option.map_map, Option.map_map]
      rfl
    have hfield := ofBytes?_trimBytes field
    rw [List.map_cons, toOption_decodeFields_cons, toOption_decodeFields_cons]
    cases htrimmed : Text.ofBytes? (trimBytes field) <;> cases htext : Text.ofBytes? field <;>
      rw [htrimmed, htext] at hfield
    · rfl
    · cases hfield
    · cases hfield
    · rw [Option.bind_some, Option.bind_some, hcons, hcons, ih, Option.some.inj hfield]

/-- The options with the given answer to whether blanks around fields are dropped. -/
def Options.withTrim (options : Options) (trim : Bool) : Options := { options with trim }

variable (options : Options)

theorem toOption_headerCells_trim (records : List RawRecord) :
    (headerCells (options.withTrim true) records).toOption =
      (headerCells (options.withTrim false) records).toOption.map (·.map Text.trim) := by
  cases records with
  | nil => rfl
  | cons header records =>
    have htrim : headerCells (options.withTrim true) (header :: records) =
        decodeFields 0 header.start 0 header.fields >>= fun cells =>
          pure (cells.map Text.trim) := rfl
    have hkeep : headerCells (options.withTrim false) (header :: records) =
        decodeFields 0 header.start 0 header.fields >>= pure := rfl
    rw [htrim, hkeep, bind_pure, toOption_bind_pure]

theorem toOption_rowFields_trim (number : Nat) (record : RawRecord) :
    (rowFields (options.withTrim true) number record).toOption =
      (rowFields (options.withTrim false) number record).toOption.map (·.map Text.trim) := by
  have htrim : rowFields (options.withTrim true) number record =
      decodeFields number record.start 0 (record.fields.map trimBytes) >>= fun fields =>
        pure (fields.map Text.trim) := rfl
  have hkeep : rowFields (options.withTrim false) number record =
      decodeFields number record.start 0 record.fields := rfl
  rw [htrim, hkeep, toOption_bind_pure, toOption_decodeFields_trimBytes]

theorem cellOfField_trim (field : String) :
    cellOfField (Text.trim field) = (cellOfField field).trimmed := by
  unfold cellOfField
  dsimp only
  rw [Text.trim_trim]
  split
  · rfl
  · split
    · split <;> rfl
    · rfl

/-! ### Tables -/

theorem toOption_addRecord (t : Table) (entry : RawRecord × Nat) :
    (addRecord options t entry).toOption = (rowFields options entry.2 entry.1).toOption.bind
      fun fields => (t.push (fields.map cellOfField)).toOption := by
  unfold addRecord
  rw [toOption_bind]
  exact congrArg _ (funext fun fields => toOption_mapError _ _)

theorem toOption_addRecord_trim (t : Table) (entry : RawRecord × Nat) :
    (addRecord (options.withTrim true) t.trimmed entry).toOption =
      (addRecord (options.withTrim false) t entry).toOption.map Table.trimmed := by
  rw [toOption_addRecord, toOption_addRecord, toOption_rowFields_trim, Option.bind_map,
    Option.map_bind]
  refine congrArg _ (funext fun fields => ?_)
  have hcells : (fields.map Text.trim).map cellOfField =
      (fields.map cellOfField).map Cell.trimmed := by
    rw [List.map_map, List.map_map]
    refine List.map_congr_left fun field _ => ?_
    rw [Function.comp_apply, Function.comp_apply, cellOfField_trim]
  rw [Function.comp_apply, Function.comp_apply, hcells, Table.toOption_push_trimmed]

theorem columnNames_map_trim (header : List String) :
    columnNames (header.map Text.trim) = columnNames header := by
  induction header using List.reverseRecOn with
  | nil => rfl
  | append_singleton header cell ih =>
    rw [List.map_append, List.map_singleton, columnNames_concat, columnNames_concat, ih,
      List.length_map]
    refine bind_congr fun taken => ?_
    unfold addName baseName
    rw [Text.trim_trim]

theorem all_isBlankText_map_trim (header : List String) :
    (header.map Text.trim).all Text.isBlankText = header.all Text.isBlankText := by
  simp only [List.all_map, Function.comp_def, Text.isBlankText_trim]

/-- The table of a text, when its faults do not matter. -/
theorem toOption_loadText (text : String) :
    (loadText options text).run.value.toOption =
      (headerCells options (rawRecords options text)).toOption.bind fun header =>
        if header.all Text.isBlankText then none else
          (Table.ofColumns (columnNames header).value).toOption.bind fun made =>
            ((dataRecords options text).foldlM (addRecord options) made).toOption.filter
              fun t => !t.rows.isEmpty := by
  ext t
  rw [toOption_eq_some, loadText_eq_ok]
  simp only [Option.bind_eq_some_iff, toOption_eq_some, Option.filter_eq_some_iff,
    Bool.not_eq_true', Option.ite_none_left_eq_some, Bool.not_eq_true]
  constructor
  · rintro ⟨header, made, hheader, hblank, hmade, hloaded, hempty⟩
    exact ⟨header, hheader, hblank, made, hmade, hloaded, hempty⟩
  · rintro ⟨header, hheader, hblank, made, hmade, hloaded, hempty⟩
    exact ⟨header, made, hheader, hblank, hmade, hloaded, hempty⟩

theorem toOption_loadText_trim (text : String) :
    (loadText (options.withTrim true) text).run.value.toOption =
      (loadText (options.withTrim false) text).run.value.toOption.map Table.trimmed := by
  have hrecords : rawRecords (options.withTrim true) text =
      rawRecords (options.withTrim false) text := rfl
  have hdata : dataRecords (options.withTrim true) text =
      dataRecords (options.withTrim false) text := rfl
  rw [toOption_loadText, toOption_loadText, hrecords, hdata, toOption_headerCells_trim,
    Option.bind_map, Option.map_bind]
  refine congrArg _ (funext fun header => ?_)
  rw [Function.comp_apply, Function.comp_apply, all_isBlankText_map_trim, columnNames_map_trim]
  split
  · rfl
  · rw [Option.map_bind]
    cases hmade : (Table.ofColumns (columnNames header).value).toOption with
    | none => rfl
    | some made =>
      have hfold := toOption_foldlM_map (toOption_addRecord_trim options)
        (dataRecords (options.withTrim false) text) made
      rw [Table.trimmed_of_ofColumns (toOption_eq_some.mp hmade)] at hfold
      have hempty : ((fun t : Table => !t.rows.isEmpty) ∘ Table.trimmed) =
          fun t : Table => !t.rows.isEmpty := by
        funext t
        rw [Function.comp_apply, Table.isEmpty_rows_trimmed]
      rw [Option.bind_some, Option.bind_some, Function.comp_apply, hfold, Option.filter_map, hempty]

/-- A table is loaded without the blanks around fields just when it is loaded with them, and it is
the other one with its texts trimmed. -/
theorem toOption_load_trim (content : FileContent) :
    (load (options.withTrim true) content).run.value.toOption =
      (load (options.withTrim false) content).run.value.toOption.map Table.trimmed := by
  unfold load
  cases content with
  | error fault => rfl
  | ok bytes =>
    dsimp only
    cases Text.ofBytes? bytes with
    | none => rfl
    | some text => exact toOption_loadText_trim options _

end LedgerFields.Delimited
