import LedgerFields.Report.Direct
import LedgerFields.Report.Document

/-! Computing the fields of a report. A field that has no value says why, and the others are still
computed; what concerns the batch as a whole leaves one entry that says so. -/

namespace LedgerFields.Report

/-- How a batch is computed. Whether empty cells are faults is up to each procedure. -/
structure Options where
  formula : Formula.Settings := {}
  /-- Divides lists of account codes and of columns. -/
  listSeparator : Char := ','
  /-- Divides the two sides of a setting. -/
  sideSeparator : Char := ':'
  data : Delimited.Options := {}

/-- An entry of a result list. -/
inductive Entry where
  | field (id : Json) (outcome : Outcome)
  | aborted (message : String)

namespace Entry

/-- The entry as JSON. -/
def toJson : Entry → Json
  | field id (.value x) => .object [("id", id), ("value", .real x), ("error", .null)]
  | field id (.failure message) =>
    .object [("id", id), ("value", .null), ("error", .string message)]
  | aborted message => .object [("global_error", .string message)]

/-- Whether the entry is a field without a value. -/
def isFailed : Entry → Bool
  | field _ (.failure _) => true
  | _ => false

end Entry

/-- The text of a result list. -/
def resultText (entries : List Entry) : String :=
  (Json.array (entries.map Entry.toJson)).text

/-- The look-ups of a table as a source of cells. -/
def tableScope (keyColumn : String) (settings : Formula.Settings) : Formula.Scope TableM :=
  ⟨Table.lookup, keyColumn, settings⟩

/-- The failure of a field whose content is not what its procedure computes from. -/
def mismatch (content : FieldContent) (procedure : Procedure) : Outcome :=
  let kind :=
    match content with
    | .formula _ => "a micro-formula"
    | .cells _ _ => "account codes and columns"
  .failure s!"The settings of this field ({kind}) do not match the procedure `{procedure.name}`"

/-- Computes a field. -/
def computeField (options : Options) (procedure : Procedure) (field : Field) : TableM Outcome :=
  match field.content, procedure with
  | .formula text, .formula =>
    Formula.compute (tableScope field.keyColumn { options.formula with strict := true }) text
  | .formula text, .flexibleFormula =>
    Formula.compute (tableScope field.keyColumn { options.formula with strict := false }) text
  | .cells code column, .singleCell => singleCell field.keyColumn code column
  | .cells codes column, .sumOfRows =>
    sumOfRows field.keyColumn codes column options.listSeparator
  | .cells codes columns, .difference =>
    difference field.keyColumn codes columns options.listSeparator
  | content, procedure => return mismatch content procedure

/-- Computes the fields of a procedure, in order. -/
def computeGroup (options : Options) (group : Group) : TableM (List Entry) :=
  group.fields.mapM fun field => do
    return .field field.id (← computeField options group.procedure field)

/-- Computes the fields of a document on a table. -/
def computeDocument (options : Options) (t : Table) (d : Document) :
    ExceptT BatchFault Logged (List Entry) := do
  let groups ← d.groups options.sideSeparator
  let (entries, _) ← ExceptT.lift ((groups.mapM (computeGroup options)).run t)
  return entries.flatten

/-- The table of a data file, which has a cell at least. -/
def openTable (options : Delimited.Options) (path : String) (content : FileContent) :
    ExceptT BatchFault Logged Table := do
  let t ← (Delimited.loadFile options path content).adapt BatchFault.ofLoad
  if t.size < 1 then
    throw .emptyTable
  return t

/-- Computes the fields of a document file on the table of the data file at a path. -/
def tryComputeFields (options : Options) (fields : FileContent) (path : String)
    (data : FileContent) : ExceptT BatchFault Logged (List Entry) := do
  let d ← ExceptT.mk (pure (Document.ofFile fields))
  let t ← openTable options.data path data
  computeDocument options t d

/-- Computes the fields of a document file. A fault of the batch is reported and becomes the only
entry. -/
def computeFields (options : Options) (fields : FileContent) (path : String)
    (data : FileContent) : Logged (List Entry) := do
  match ← (tryComputeFields options fields path data).run with
  | .ok entries => return entries
  | .error fault =>
    Logged.note (.batchAborted fault.message)
    return [.aborted fault.message]

end LedgerFields.Report
