import LedgerFields.Json.Parse
import LedgerFields.Notice
import LedgerFields.Report.Fault

/-! Field documents: JSON objects that list the fields of a report by procedure. Reading one settles
what every field is computed from, or finds the first definition that is not in order. -/

namespace LedgerFields.Report

/-- What a field is computed from. -/
inductive FieldContent where
  /-- A formula, as it was written. -/
  | formula (text : String)
  /-- Account codes and value columns; where a procedure takes several they stand in one text. -/
  | cells (accountCodes valueColumns : String)
  deriving DecidableEq, Repr

/-- A field of a report. Its id is any value and only marks the result. -/
structure Field where
  id : Json
  keyColumn : String
  content : FieldContent

/-- The fields that a document lists for a procedure. -/
structure Group where
  procedure : Procedure
  fields : List Field

/-- A field document, which has an entry at least. -/
structure Document where
  entries : List (String × Json)
  entries_ne_nil : entries ≠ []

namespace Document

/-- The document that a value is. -/
def ofJson : Json → Except BatchFault Document
  | .object (entry :: rest) => .ok ⟨entry :: rest, by simp⟩
  | _ => .error .noFields

/-- The document that a text spells. -/
def ofText (text : String) : Except BatchFault Document := do
  let value ← (Json.parse text).mapError .invalidJson
  ofJson value

/-- The document in a file. -/
def ofFile : FileContent → Except BatchFault Document
  | .error .notFound => .error .fieldsNotFound
  | .error fault => .error (.fieldsUnreadable fault)
  | .ok bytes =>
    match Text.ofBytes? bytes with
    | none => .error (.fieldsUnreadable .notText)
    | some text => ofText text

/-- The key of the flag that tells which side of a divided setting is used. -/
def specialKey : String := "special_rfc"

/-- The flag, if the document has one. -/
def special? (d : Document) : Option Bool :=
  (Json.member? d.entries specialKey).map Json.isTruthy

/-- The side of a text that the flag asks for: the second of the parts between separators when it is
set, and the first when it is not. A text without the separator is used as it is. -/
def side (separator : Char) (special : Bool) (text : String) : String :=
  if text.toList.contains separator then
    ((Text.pieces separator text)[if special then 1 else 0]?).getD ""
  else
    text

/-- The settings of a field after the sides of its texts are chosen. -/
def chooseSides (separator : Char) (special : Option Bool) (settings : List (String × Json)) :
    List (String × Json) :=
  match special with
  | none => settings
  | some flag => settings.map fun (key, value) =>
    match value with
    | .string text => (key, .string (side separator flag text))
    | _ => (key, value)

/-- A setting that has to be there. -/
def required (procedure : Procedure) (settings : List (String × Json)) (key : SettingKey) :
    Except BatchFault Json :=
  match Json.member? settings key.name with
  | some value => .ok value
  | none => .error (.missingKey procedure key)

/-- A setting that has to be there and to be a text. -/
def requiredText (procedure : Procedure) (settings : List (String × Json)) (key : SettingKey) :
    Except BatchFault String := do
  match ← required procedure settings key with
  | .string text => return text
  | _ => throw (.notAString procedure key)

/-- The field that an item of a procedure's list defines. Column names and account codes lose all
their blanks; a formula keeps them. -/
def readField (procedure : Procedure) (separator : Char) (special : Option Bool) (item : Json) :
    Except BatchFault Field := do
  let .object members := item | throw (.fieldNotObject procedure)
  let settings := chooseSides separator special members
  let id ← required procedure settings .id
  let keyColumn ← requiredText procedure settings .keyColumn
  let content ←
    if procedure.usesFormula then
      FieldContent.formula <$> requiredText procedure settings .formula
    else do
      let codes ← requiredText procedure settings .accountCode
      let columns ← requiredText procedure settings .valueColumn
      pure (FieldContent.cells (Text.dropBlanks codes) (Text.dropBlanks columns))
  return ⟨id, Text.dropBlanks keyColumn, content⟩

/-- The fields that the value of a procedure defines. -/
def readGroup (procedure : Procedure) (separator : Char) (special : Option Bool) (value : Json) :
    Except BatchFault Group := do
  match value with
  | .array (item :: items) =>
    return ⟨procedure, ← (item :: items).mapM (readField procedure separator special)⟩
  | _ => throw (.invalidProcedure procedure)

/-- Adds the group of an entry to those before it. A key that is no procedure is reported. -/
def addEntry (separator : Char) (special : Option Bool) (groups : List Group)
    (entry : String × Json) : ExceptT BatchFault Logged (List Group) := do
  match Procedure.ofName? entry.1 with
  | some procedure =>
    let group ← ExceptT.mk (pure (readGroup procedure separator special entry.2))
    return groups ++ [group]
  | none =>
    if entry.1 ≠ specialKey then
      ExceptT.lift (Logged.note (.unknownProcedure entry.1))
    return groups

/-- The groups of fields in the order of the document. -/
def groups (d : Document) (separator : Char) : ExceptT BatchFault Logged (List Group) :=
  d.entries.foldlM (addEntry separator d.special?) []

end Document

end LedgerFields.Report
