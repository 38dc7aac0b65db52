import LedgerFields.Delimited.Load
import LedgerFields.Json.Fault

/-! The procedures by which the fields of a report are computed, the keys of their settings, and
what keeps a whole batch of fields from being computed. -/

namespace LedgerFields.Report

/-- How a field is computed. -/
inductive Procedure where
  /-- One cell. -/
  | singleCell
  /-- The sum of the cells of several rows in one column. -/
  | sumOfRows
  /-- The difference of two cells. -/
  | difference
  /-- A formula in which an empty cell is a fault. -/
  | formula
  /-- A formula in which an empty cell counts as zero. -/
  | flexibleFormula
  deriving DecidableEq, Repr

namespace Procedure

/-- All procedures. -/
def all : List Procedure :=
  [singleCell, sumOfRows, difference, formula, flexibleFormula]

/-- The key of a procedure in a field document. -/
def name : Procedure → String
  | singleCell => "single_cell"
  | sumOfRows => "sum_many_rows_same_col"
  | difference => "subtract_same_row_two_cols"
  | formula => "micro_calc"
  | flexibleFormula => "micro_calc_flexi"

/-- The procedure with a name. -/
def ofName? (text : String) : Option Procedure :=
  all.find? (·.name == text)

/-- Whether the fields of a procedure hold formulas. -/
def usesFormula : Procedure → Bool
  | formula | flexibleFormula => true
  | _ => false

end Procedure

/-- The keys of the settings of a field. -/
inductive SettingKey where
  | id
  | keyColumn
  | accountCode
  | valueColumn
  | formula
  deriving DecidableEq, Repr

/-- The key as a field document has it. -/
def SettingKey.name : SettingKey → String
  | .id => "id"
  | .keyColumn => "account_col_name"
  | .accountCode => "account_code"
  | .valueColumn => "value_col_name"
  | .formula => "micro_formula"

/-- Why no field of a batch can be computed. -/
inductive BatchFault where
  | fieldsNotFound
  | fieldsUnreadable (fault : FileFault)
  | invalidJson (fault : Json.Fault)
  /-- The field document is no object, or an empty one. -/
  | noFields
  | unsupportedFormat (format : String)
  | dataUnreadable (fault : Delimited.LoadFault)
  | emptyTable
  /-- A procedure has something else than a list of fields that is not empty. -/
  | invalidProcedure (procedure : Procedure)
  | fieldNotObject (procedure : Procedure)
  | missingKey (procedure : Procedure) (key : SettingKey)
  | notAString (procedure : Procedure) (key : SettingKey)
  deriving DecidableEq, Repr

namespace BatchFault

/-- The text of a batch fault. -/
def message : BatchFault → String
  | fieldsNotFound => "The field definitions could not be found"
  | fieldsUnreadable fault => "The field definitions could not be read: " ++ fault.message
  | invalidJson fault =>
    "An error occurred while reading the field definitions: " ++ fault.message
  | noFields =>
    "No fields have been defined for this report. If that is not the case, the field " ++
      "definitions are malformed (expected a non-empty JSON object)"
  | unsupportedFormat format =>
    s!"The uploaded file is not in a supported format ({format}). To be processed, the file " ++
      "must have the .csv extension"
  | dataUnreadable fault =>
    "The uploaded file cannot be read. Export the data again from the original database and " ++
      s!"upload it again ({fault.message})"
  | emptyTable => "The data in the uploaded file does not have at least one row and one column"
  | invalidProcedure procedure =>
    s!"The settings of the fields computed with `{procedure.name}` are missing or are not a " ++
      "non-empty list"
  | fieldNotObject procedure =>
    s!"Some field settings of `{procedure.name}` are not in the format required for calculation " ++
      "(object expected)"
  | missingKey procedure key =>
    s!"Some field settings of `{procedure.name}` lack the required key `{key.name}`"
  | notAString procedure key =>
    s!"Some field settings of `{procedure.name}` hold a non-string value for `{key.name}` " ++
      "(string expected)"

/-- The fault of a table that cannot be loaded. -/
def ofLoad : Delimited.LoadFault → BatchFault
  | .empty => emptyTable
  | .unsupportedFormat format => unsupportedFormat format
  | fault => dataUnreadable fault

/-- The texts of a fault and of what it comes from, down to the first cause. -/
def chain (fault : BatchFault) : List String :=
  fault.message ::
    match fault with
    | fieldsUnreadable cause => [cause.message]
    | invalidJson cause => [cause.message]
    | dataUnreadable cause =>
      cause.message ::
        match cause with
        | .file first => [first.message]
        | .garbled field => [field.message, field.detail]
        | .table first => [first.message]
        | _ => []
    | _ => []

end BatchFault

end LedgerFields.Report
