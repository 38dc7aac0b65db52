import LedgerFields.Proofs.Fallible
import LedgerFields.Report.Batch
import Mathlib.Data.List.TakeWhile

/-! Reading a field document. It fails when a definition in it is not in order, with the fault of
the first such one, and reports the keys before it that name no procedure. What is in order is said
here of the document as it stands: choosing sides changes texts, and no key of a setting. -/

namespace LedgerFields.Report

/-- The settings that a field needs, in the order in which they are checked. -/
def Procedure.requiredKeys (procedure : Procedure) : List SettingKey :=
  .id :: .keyColumn ::
    if procedure.usesFormula then [.formula] else [.accountCode, .valueColumn]

/-- What is wrong with a setting of a field. The id may be any value, all others are texts. -/
def settingFault? (procedure : Procedure) (settings : List (String × Json)) (key : SettingKey) :
    Option BatchFault :=
  match Json.member? settings key.name with
  | none => some (.missingKey procedure key)
  | some (.string _) => none
  | some _ => if key = .id then none else some (.notAString procedure key)

/-- What is first wrong with an item of a procedure's list. -/
def itemFault? (procedure : Procedure) : Json → Option BatchFault
  | .object settings => procedure.requiredKeys.findSome? (settingFault? procedure settings)
  | _ => some (.fieldNotObject procedure)

/-- What is first wrong with the list of a procedure. -/
def groupFault? (procedure : Procedure) : Json → Option BatchFault
  | .array (item :: items) => (item :: items).findSome? (itemFault? procedure)
  | _ => some (.invalidProcedure procedure)

/-- What is first wrong with an entry of a document; one that names no procedure may hold anything.
-/
def entryFault? (entry : String × Json) : Option BatchFault :=
  (Procedure.ofName? entry.1).bind (groupFault? · entry.2)

/-! ### What is in order -/

/-- The settings have this key, and a text there unless it is the id. -/
def HasSetting (settings : List (String × Json)) (key : SettingKey) : Prop :=
  ∃ value, Json.member? settings key.name = some value ∧ (key = .id ∨ ∃ text, value = .string text)

/-- The item defines a field of the procedure. -/
def IsField (procedure : Procedure) (item : Json) : Prop :=
  ∃ settings, item = .object settings ∧ ∀ key ∈ procedure.requiredKeys, HasSetting settings key

/-- The value lists fields of the procedure, one at least. -/
def IsFieldList (procedure : Procedure) (value : Json) : Prop :=
  ∃ items, value = .array items ∧ items ≠ [] ∧ ∀ item ∈ items, IsField procedure item

/-- The entry lists fields if it names a procedure. -/
def InOrder (entry : String × Json) : Prop :=
  ∀ procedure, Procedure.ofName? entry.1 = some procedure → IsFieldList procedure entry.2

theorem settingFault?_eq_none {procedure : Procedure} {settings : List (String × Json)}
    {key : SettingKey} : settingFault? procedure settings key = none ↔ HasSetting settings key := by
  unfold settingFault? HasSetting
  cases Json.member? settings key.name with
  | none => simp
  | some value => cases value <;> simp

theorem itemFault?_eq_none {procedure : Procedure} {item : Json} :
    itemFault? procedure item = none ↔ IsField procedure item := by
  unfold IsField
  cases item with
  | object settings =>
    simp only [itemFault?, List.findSome?_eq_none_iff, settingFault?_eq_none, Json.object.injEq,
      exists_eq_left']
  | null | bool | integer | real | string | array => simp [itemFault?]

theorem groupFault?_eq_none {procedure : Procedure} {value : Json} :
    groupFault? procedure value = none ↔ IsFieldList procedure value := by
  unfold IsFieldList
  cases value with
  | array items =>
    cases items with
    | nil => simp [groupFault?]
    | cons item items =>
      simp only [groupFault?, List.findSome?_eq_none_iff, itemFault?_eq_none, Json.array.injEq,
        exists_eq_left', ne_eq, reduceCtorEq, not_false_eq_true, true_and]
  | null | bool | integer | real | string | object => simp [groupFault?]

theorem entryFault?_eq_none {entry : String × Json} : entryFault? entry = none ↔ InOrder entry := by
  unfold entryFault? InOrder
  cases Procedure.ofName? entry.1 with
  | none => simp
  | some procedure => simp [groupFault?_eq_none]

/-- The notice of an entry that names no procedure. -/
def entryNotice? (entry : String × Json) : Option Notice :=
  if (Procedure.ofName? entry.1).isNone ∧ entry.1 ≠ Document.specialKey then
    some (.unknownProcedure entry.1)
  else
    none

namespace Document

variable {separator : Char} {special : Option Bool}

/-- The value of a setting after the sides of its texts are chosen. -/
def chosen (separator : Char) (special : Option Bool) (value : Json) : Json :=
  match special, value with
  | some flag, .string text => .string (side separator flag text)
  | _, value => value

theorem chooseSides_eq (settings : List (String × Json)) :
    chooseSides separator special settings =
      settings.map fun setting => (setting.1, chosen separator special setting.2) := by
  cases special with
  | none => exact (List.map_id' settings).symm
  | some flag =>
    refine List.map_congr_left fun setting _ => ?_
    obtain ⟨key, value⟩ := setting
    cases value <;> rfl

theorem member?_chooseSides (settings : List (String × Json)) (key : String) :
    Json.member? (chooseSides separator special settings) key =
      (Json.member? settings key).map (chosen separator special) := by
  rw [chooseSides_eq]
  unfold Json.member?
  induction settings with
  | nil => rfl
  | cons setting settings ih =>
    rw [List.map_cons, List.lookup_cons, List.lookup_cons]
    cases key == setting.1
    · exact ih
    · rfl

/-- Choosing sides leaves a text a text and any other value as it is. -/
theorem chosen_eq (separator : Char) (special : Option Bool) (value : Json) :
    (∃ text text', value = .string text ∧ chosen separator special value = .string text') ∨
      (∀ text, value ≠ .string text) ∧ chosen separator special value = value := by
  cases value with
  | string text =>
    cases special with
    | none => exact .inl ⟨text, text, rfl, rfl⟩
    | some flag => exact .inl ⟨text, _, rfl, rfl⟩
  | null | bool | integer | real | array | object =>
    refine .inr ⟨fun text h => (by cases h), ?_⟩
    cases special <;> rfl

/-- A setting is refused when there is something wrong with it in the document. -/
theorem errorOf?_required (procedure : Procedure) (settings : List (String × Json)) :
    errorOf? (required procedure (chooseSides separator special settings) .id) =
      settingFault? procedure settings .id := by
  unfold required settingFault?
  rw [member?_chooseSides]
  cases Json.member? settings SettingKey.id.name with
  | none => rfl
  | some value => cases value <;> rfl

theorem errorOf?_requiredText (procedure : Procedure) (settings : List (String × Json))
    {key : SettingKey} (hkey : key ≠ .id) :
    errorOf? (requiredText procedure (chooseSides separator special settings) key) =
      settingFault? procedure settings key := by
  unfold requiredText required settingFault?
  rw [member?_chooseSides]
  cases Json.member? settings key.name with
  | none => rfl
  | some value =>
    rw [Option.map_some]
    obtain ⟨text, text', rfl, hchosen⟩ | ⟨htext, hchosen⟩ :=
      chosen_eq separator special value
    · rw [hchosen]
      rfl
    · rw [hchosen]
      cases value with
      | string text => exact absurd rfl (htext text)
      | null | bool | integer | real | array | object => exact (if_neg hkey).symm

/-- What a field is computed from. -/
def readContent (procedure : Procedure) (settings : List (String × Json)) :
    Except BatchFault FieldContent :=
  if procedure.usesFormula then
    FieldContent.formula <$> requiredText procedure settings .formula
  else do
    let codes ← requiredText procedure settings .accountCode
    let columns ← requiredText procedure settings .valueColumn
    pure (FieldContent.cells (Text.dropBlanks codes) (Text.dropBlanks columns))

theorem readField_object (procedure : Procedure) (settings : List (String × Json)) :
    readField procedure separator special (.object settings) = (do
      let id ← required procedure (chooseSides separator special settings) .id
      let keyColumn ← requiredText procedure (chooseSides separator special settings) .keyColumn
      let content ← readContent procedure (chooseSides separator special settings)
      pure ⟨id, Text.dropBlanks keyColumn, content⟩) := by
  unfold readField readContent
  cases procedure.usesFormula <;> simp

theorem required_eq_ok {procedure : Procedure} {settings : List (String × Json)} {key : SettingKey}
    {value : Json} :
    required procedure settings key = .ok value ↔ Json.member? settings key.name = some value := by
  unfold required
  cases Json.member? settings key.name <;> simp

theorem requiredText_eq_ok {procedure : Procedure} {settings : List (String × Json)}
    {key : SettingKey} {text : String} :
    requiredText procedure settings key = .ok text ↔
      Json.member? settings key.name = some (.string text) := by
  unfold requiredText
  rw [bind_eq_ok]
  simp only [required_eq_ok]
  constructor
  · rintro ⟨value, hvalue, h⟩
    cases value with
    | string text' =>
      cases h
      exact hvalue
    | null | bool | integer | real | array | object => cases h
  · intro h
    exact ⟨_, h, rfl⟩

theorem readField_eq_ok {procedure : Procedure} {item : Json} {field : Field} :
    readField procedure separator special item = .ok field ↔ ∃ settings id keyColumn content,
      item = .object settings ∧
      required procedure (chooseSides separator special settings) .id = .ok id ∧
      requiredText procedure (chooseSides separator special settings) .keyColumn = .ok keyColumn ∧
      readContent procedure (chooseSides separator special settings) = .ok content ∧
      field = ⟨id, Text.dropBlanks keyColumn, content⟩ := by
  cases item with
  | null | bool | integer | real | string | array =>
    constructor
    · intro h
      cases h
    · rintro ⟨settings, -, -, -, hitem, -⟩
      cases hitem
  | object settings =>
    rw [readField_object]
    constructor
    · intro h
      obtain ⟨id, hid, h⟩ := bind_eq_ok.mp h
      obtain ⟨keyColumn, hkeyColumn, h⟩ := bind_eq_ok.mp h
      obtain ⟨content, hcontent, h⟩ := bind_eq_ok.mp h
      exact ⟨settings, id, keyColumn, content, rfl, hid, hkeyColumn, hcontent,
        (Except.ok.inj h).symm⟩
    · rintro ⟨_, id, keyColumn, content, hitem, hid, hkeyColumn, hcontent, rfl⟩
      cases hitem
      exact bind_eq_ok.mpr ⟨id, hid, bind_eq_ok.mpr ⟨keyColumn, hkeyColumn,
        bind_eq_ok.mpr ⟨content, hcontent, rfl⟩⟩⟩

theorem errorOf?_readContent (procedure : Procedure) (settings : List (String × Json)) :
    errorOf? (readContent procedure (chooseSides separator special settings)) =
      (if procedure.usesFormula then [.formula] else [.accountCode, .valueColumn]).findSome?
        (settingFault? procedure settings) := by
  unfold readContent
  cases procedure.usesFormula with
  | true =>
    rw [if_pos rfl, if_pos rfl, findSome?_cons_eq_or, List.findSome?_nil, Option.or_none,
      ← errorOf?_requiredText procedure settings (by decide)]
    exact errorOf?_map _ _
  | false =>
    rw [if_neg Bool.false_ne_true, if_neg Bool.false_ne_true, findSome?_cons_eq_or,
      findSome?_cons_eq_or, List.findSome?_nil, Option.or_none,
      ← errorOf?_requiredText procedure settings (by decide),
      ← errorOf?_requiredText procedure settings (by decide)]
    refine errorOf?_bind fun codes _ => ?_
    exact errorOf?_map _ _

theorem errorOf?_readField (procedure : Procedure) (item : Json) :
    errorOf? (readField procedure separator special item) = itemFault? procedure item := by
  cases item with
  | null | bool | integer | real | string | array => rfl
  | object settings =>
    show _ = procedure.requiredKeys.findSome? (settingFault? procedure settings)
    unfold Procedure.requiredKeys
    rw [readField_object, findSome?_cons_eq_or, findSome?_cons_eq_or, ← errorOf?_readContent,
      ← errorOf?_required, ← errorOf?_requiredText procedure settings (by decide)]
    refine errorOf?_bind fun id _ => errorOf?_bind fun keyColumn _ => ?_
    exact errorOf?_map _ _

theorem errorOf?_readGroup (procedure : Procedure) (value : Json) :
    errorOf? (readGroup procedure separator special value) = groupFault? procedure value := by
  cases value with
  | null | bool | integer | real | string | object => rfl
  | array items =>
    cases items with
    | nil => rfl
    | cons item items =>
      refine (errorOf?_map (Group.mk procedure) _).trans ((errorOf?_mapM _ _).trans ?_)
      simp only [errorOf?_readField]
      rfl

/-- The group of an entry, if it names a procedure. -/
def readEntry (separator : Char) (special : Option Bool) (entry : String × Json) :
    Except BatchFault (List Group) :=
  match Procedure.ofName? entry.1 with
  | some procedure => (readGroup procedure separator special entry.2).map ([·])
  | none => .ok []

/-- An entry that is read names no procedure, or lists items of which each defines a field. -/
theorem readEntry_eq_ok {entry : String × Json} {groups : List Group}
    (h : readEntry separator special entry = .ok groups) :
    (Procedure.ofName? entry.1 = none ∧ groups = []) ∨
      ∃ procedure items fields, Procedure.ofName? entry.1 = some procedure ∧
        entry.2 = .array items ∧
        List.Forall₂ (fun item field => readField procedure separator special item = .ok field)
          items fields ∧ groups = [⟨procedure, fields⟩] := by
  obtain ⟨key, value⟩ := entry
  unfold readEntry at h
  cases hname : Procedure.ofName? key with
  | none =>
    simp only [hname, Except.ok.injEq] at h
    exact .inl ⟨rfl, h.symm⟩
  | some procedure =>
    simp only [hname] at h
    obtain ⟨group, hgroup, rfl⟩ := map_eq_ok.mp h
    cases value with
    | null | bool | integer | real | string | object => cases hgroup
    | array items =>
      cases items with
      | nil => cases hgroup
      | cons item items =>
        obtain ⟨fields, hfields, hgroup⟩ := bind_eq_ok.mp hgroup
        cases hgroup
        exact .inr ⟨procedure, _, fields, rfl, rfl, mapM_eq_ok.mp hfields, rfl⟩

theorem errorOf?_readEntry (entry : String × Json) :
    errorOf? (readEntry separator special entry) = entryFault? entry := by
  unfold readEntry entryFault?
  cases Procedure.ofName? entry.1 with
  | none => rfl
  | some procedure => exact (errorOf?_map _ _).trans (errorOf?_readGroup procedure entry.2)

theorem entryNotice?_of_fault {entry : String × Json} {fault : BatchFault}
    (h : entryFault? entry = some fault) : entryNotice? entry = none := by
  unfold entryFault? at h
  unfold entryNotice?
  cases hname : Procedure.ofName? entry.1 with
  | none =>
    rw [hname] at h
    cases h
  | some procedure => simp

theorem run_addEntry (groups : List Group) (entry : String × Json) :
    (addEntry separator special groups entry).run =
      ⟨(readEntry separator special entry).map (groups ++ ·), (entryNotice? entry).toList⟩ := by
  unfold addEntry readEntry entryNotice?
  cases Procedure.ofName? entry.1 with
  | some procedure =>
    dsimp only
    cases readGroup procedure separator special entry.2 <;> rfl
  | none =>
    by_cases hkey : entry.1 = specialKey
    · simp only [hkey, ne_eq, not_true_eq_false, and_false, if_false]
      show _ = Logged.mk (Except.ok (groups ++ [])) []
      rw [List.append_nil]
      rfl
    · simp only [ne_eq, hkey, not_false_eq_true, and_true, if_true, Option.isNone_none]
      show _ = Logged.mk (Except.ok (groups ++ [])) [Notice.unknownProcedure entry.1]
      rw [List.append_nil]
      rfl

/-- Reading goes through the entries and ends at the first that is not in order. -/
theorem run_addEntries (entries : List (String × Json)) (groups : List Group) :
    (entries.foldlM (addEntry separator special) groups).run =
      ⟨(entries.mapM (readEntry separator special)).map fun more => groups ++ more.flatten,
        (entries.takeWhile fun entry => (entryFault? entry).isNone).filterMap entryNotice?⟩ := by
  induction entries generalizing groups with
  | nil =>
    show Logged.mk (Except.ok groups) [] = Logged.mk (Except.ok (groups ++ [])) []
    rw [List.append_nil]
  | cons entry entries ih =>
    have hfault : errorOf? (readEntry separator special entry) = entryFault? entry :=
      errorOf?_readEntry entry
    rw [List.foldlM_cons, ExceptT.run_bind, run_addEntry, List.mapM_cons, List.takeWhile_cons,
      ← hfault]
    cases hread : readEntry separator special entry with
    | error fault =>
      rw [hread] at hfault
      have hnotice := entryNotice?_of_fault hfault.symm
      rw [hnotice]
      rfl
    | ok more =>
      apply Logged.ext
      · show ((entries.foldlM (addEntry separator special) (groups ++ more)).run).value = _
        rw [ih]
        cases entries.mapM (readEntry separator special) with
        | error fault => rfl
        | ok rest =>
          show Except.ok (groups ++ more ++ rest.flatten) = .ok (groups ++ (more :: rest).flatten)
          rw [List.flatten_cons, List.append_assoc]
      · show (entryNotice? entry).toList ++
          ((entries.foldlM (addEntry separator special) (groups ++ more)).run).notices = _
        rw [ih, errorOf?_ok, Option.isNone_none, if_pos rfl, List.filterMap_cons]
        cases entryNotice? entry <;> rfl

theorem run_groups (d : Document) (separator : Char) :
    (d.groups separator).run =
      ⟨(d.entries.mapM (readEntry separator d.special?)).map List.flatten,
        (d.entries.takeWhile fun entry => (entryFault? entry).isNone).filterMap entryNotice?⟩ :=
  run_addEntries d.entries []

/-- Each field of a document is read from an item. -/
theorem exists_readField {d : Document} {groups : List Group} {group : Group} {field : Field}
    (h : (d.groups separator).run.value = .ok groups) (hgroup : group ∈ groups)
    (hfield : field ∈ group.fields) :
    ∃ item, readField group.procedure separator d.special? item = .ok field := by
  rw [run_groups] at h
  obtain ⟨ofEntries, hread, rfl⟩ := map_eq_ok.mp h
  obtain ⟨ofEntry, hofEntry, hgroup⟩ := List.mem_flatten.mp hgroup
  obtain ⟨n, hn⟩ := List.getElem?_of_mem hofEntry
  obtain ⟨entry, -, hentry⟩ := exists_of_forall₂ (mapM_eq_ok.mp hread) hn
  rcases readEntry_eq_ok hentry with ⟨-, rfl⟩ | ⟨procedure, items, fields, -, -, hitems, rfl⟩
  · cases hgroup
  · obtain rfl := List.mem_singleton.mp hgroup
    obtain ⟨m, hm⟩ := List.getElem?_of_mem hfield
    obtain ⟨item, -, hitem⟩ := exists_of_forall₂ hitems hm
    exact ⟨item, hitem⟩

/-- A document fails with what is first wrong in it. -/
theorem errorOf?_groups (d : Document) (separator : Char) :
    errorOf? (d.groups separator).run.value = d.entries.findSome? entryFault? := by
  rw [run_groups]
  refine (errorOf?_map _ _).trans ((errorOf?_mapM _ _).trans ?_)
  simp only [errorOf?_readEntry]

theorem groups_fails_iff {d : Document} {separator : Char} :
    (∃ fault, (d.groups separator).run.value = .error fault) ↔
      ∃ entry ∈ d.entries, ∃ procedure, Procedure.ofName? entry.1 = some procedure ∧
        ¬IsFieldList procedure entry.2 := by
  have horder (entry : String × Json) : entryFault? entry ≠ none ↔
      ∃ procedure, Procedure.ofName? entry.1 = some procedure ∧ ¬IsFieldList procedure entry.2 := by
    rw [ne_eq, entryFault?_eq_none, InOrder, not_forall]
    simp only [Classical.not_imp]
  simp only [← horder, ← errorOf?_eq_some, errorOf?_groups]
  rw [← Option.ne_none_iff_exists', ne_eq, List.findSome?_eq_none_iff, not_forall]
  simp only [Classical.not_imp, ne_eq]

theorem notices_groups (d : Document) (separator : Char) :
    (d.groups separator).run.notices =
      (d.entries.takeWhile fun entry => (entryFault? entry).isNone).filterMap entryNotice? := by
  rw [run_groups]

/-- A document fails with a fault of its first entry that is not in order, after the notices of
those before. -/
theorem run_groups_eq_error {d : Document} {separator : Char} {fault : BatchFault}
    {notices : List Notice} :
    (d.groups separator).run = ⟨.error fault, notices⟩ ↔
      ∃ before entry after, d.entries = before ++ entry :: after ∧ (∀ e ∈ before, InOrder e) ∧
        entryFault? entry = some fault ∧ notices = before.filterMap entryNotice? := by
  have hvalue : (d.groups separator).run.value = .error fault ↔
      d.entries.findSome? entryFault? = some fault := by
    rw [← errorOf?_groups d separator, errorOf?_eq_some]
  have hnotices {before after : List (String × Json)} {entry : String × Json}
      (hentries : d.entries = before ++ entry :: after) (hbefore : ∀ e ∈ before, InOrder e)
      (hentry : entryFault? entry = some fault) :
      (d.groups separator).run.notices = before.filterMap entryNotice? := by
    have hnone (e : String × Json) (he : e ∈ before) : (entryFault? e).isNone = true := by
      rw [entryFault?_eq_none.mpr (hbefore e he)]
      rfl
    rw [notices_groups, hentries, List.takeWhile_append_of_pos hnone,
      List.takeWhile_cons_of_neg (by simp [hentry]), List.append_nil]
  constructor
  · intro h
    obtain ⟨before, entry, after, hentries, hentry, hbefore⟩ :=
      List.findSome?_eq_some_iff.mp (hvalue.mp (congrArg Logged.value h))
    have horder (e : String × Json) (he : e ∈ before) : InOrder e :=
      entryFault?_eq_none.mp (hbefore e he)
    refine ⟨before, entry, after, hentries, horder, hentry, ?_⟩
    rw [← hnotices hentries horder hentry, h]
  · rintro ⟨before, entry, after, hentries, hbefore, hentry, rfl⟩
    apply Logged.ext
    · refine hvalue.mpr (List.findSome?_eq_some_iff.mpr
        ⟨before, entry, after, hentries, hentry, ?_⟩)
      exact fun e he => entryFault?_eq_none.mpr (hbefore e he)
    · exact hnotices hentries hbefore hentry

theorem run_groups_eq_ok {d : Document} {separator : Char} {notices : List Notice} :
    (∃ groups, (d.groups separator).run = ⟨.ok groups, notices⟩) ↔
      (∀ entry ∈ d.entries, InOrder entry) ∧ notices = d.entries.filterMap entryNotice? := by
  have hvalue : (∃ groups, (d.groups separator).run.value = .ok groups) ↔
      ∀ entry ∈ d.entries, InOrder entry := by
    rw [← errorOf?_eq_none, errorOf?_groups, List.findSome?_eq_none_iff]
    exact forall₂_congr fun entry _ => entryFault?_eq_none
  have hnotices (h : ∀ entry ∈ d.entries, InOrder entry) :
      (d.groups separator).run.notices = d.entries.filterMap entryNotice? := by
    rw [notices_groups, List.takeWhile_eq_self_iff.mpr]
    intro entry hentry
    rw [entryFault?_eq_none.mpr (h entry hentry)]
    rfl
  constructor
  · rintro ⟨groups, h⟩
    have horder := hvalue.mp ⟨groups, congrArg Logged.value h⟩
    refine ⟨horder, ?_⟩
    rw [← hnotices horder, h]
  · rintro ⟨horder, rfl⟩
    obtain ⟨groups, hgroups⟩ := hvalue.mpr horder
    exact ⟨groups, Logged.ext hgroups (hnotices horder)⟩

end Document

end LedgerFields.Report
