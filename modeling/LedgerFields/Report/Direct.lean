import LedgerFields.Formula.Outcome
import LedgerFields.Number.Hundredths
import LedgerFields.Table

/-! Fields that are computed from cells directly: one cell, a sum over rows, and a difference. -/

namespace LedgerFields.Report

/-- The trimmed texts between the separators of a list. -/
def listed (separator : Char) (text : String) : List String :=
  (Text.pieces separator text).map Text.trim

/-- The failure of settings of which some are blank. -/
def blankSettings (settings : List String) : Outcome :=
  .failure s!"Some of the values {quotedList settings} defined for this field are empty"
where
  /-- The texts in backquotes with commas between them. -/
  quotedList (texts : List String) : String :=
    ", ".intercalate (texts.map fun text => s!"`{text}`")

/-- The failure of a table that lacks the key column or the value column. -/
def columnsMissing (keyColumn valueColumn : String) : Outcome :=
  .failure <|
    s!"One or both of the columns `{keyColumn}`, `{valueColumn}` required for the calculation " ++
      "do not exist in the uploaded file or have a different name"

/-- The number in a cell that was looked up. -/
def cellOutcome (keyColumn code column : String) : Lookup → Outcome
  | .missing _ => .failure <|
      s!"The account code `{code}` required for the calculation does not exist in column " ++
        s!"`{keyColumn}` of the uploaded file"
  | .found (.number x) => .value x
  | .found .empty => .failure <|
      s!"The value for the row with account code `{code}` and column `{column}` is missing from " ++
        "the uploaded file"
  | .found (.text _) => .failure <|
      s!"The value for the row with account code `{code}` and column `{column}` in the uploaded " ++
        "file is not numeric"

/-- The value of the cell with an account code in a column. -/
def singleCell (keyColumn accountCode valueColumn : String) : TableM Outcome := do
  let settings := [keyColumn, accountCode, valueColumn]
  if settings.any Text.isBlankText then
    return blankSettings settings
  let column := Text.trim keyColumn
  let code := Text.trim accountCode
  let place := Text.trim valueColumn
  let t ← get
  if !t.hasColumn column || !t.hasColumn place then
    return columnsMissing column place
  return cellOutcome column code place (← Table.lookup place column code)

/-- The texts without those that occur earlier. -/
def distinct (texts : List String) : List String :=
  texts.foldl (fun kept text => if kept.contains text then kept else kept ++ [text]) []

/-- The number in a cell that was found, and 0 for any other answer. -/
def amount : Lookup → Float
  | .found (.number x) => x
  | _ => 0.0

/-- The sum of the found cells, if all of them hold numbers. -/
def sumOfFound (codes : List String) (keyColumn valueColumn : String) (answers : List Lookup) :
    Outcome :=
  let names := ", ".intercalate codes
  if answers.any fun | .missing _ => true | _ => false then
    .failure <|
      s!"Some of the account codes `{names}` required for the calculation do not exist in " ++
        s!"column `{keyColumn}` of the uploaded file"
  else if answers.any fun | .found .empty => true | _ => false then
    .failure <|
      s!"Some of the values for the rows with account codes `{names}` and column " ++
        s!"`{valueColumn}` are missing from the uploaded file"
  else if answers.any fun | .found (.text _) => true | _ => false then
    .failure <|
      s!"Some of the values for the rows with account codes `{names}` and column " ++
        s!"`{valueColumn}` in the uploaded file are not numeric"
  else
    .value (answers.foldl (fun total answer => total + amount answer) 0.0)

/-- The failure of a sum of fewer than two terms. -/
def tooFewCodes : Outcome :=
  .failure <|
    "This field is computed by addition, so at least 2 account codes must be given for the " ++
      "values to add up"

/-- The sum of one column over the rows of several account codes, two at least. A code that is
repeated counts towards the two, but its row is added once. -/
def sumOfRows (keyColumn accountCodes valueColumn : String) (separator : Char) :
    TableM Outcome := do
  let settings := [keyColumn, accountCodes, valueColumn]
  if settings.any Text.isBlankText then
    return blankSettings settings
  let column := Text.trim keyColumn
  let place := Text.trim valueColumn
  let codes := listed separator accountCodes
  if codes.length < 2 then
    return tooFewCodes
  let t ← get
  if !t.hasColumn column || !t.hasColumn place then
    return columnsMissing column place
  let codes := distinct codes
  let answers ← Table.lookupAll place column codes
  return sumOfFound codes column place answers

/-- A cell that is looked up for a difference: its account code and its column. -/
structure Term where
  code : String
  column : String

/-- The difference of two cells that were looked up, rounded to hundredths. -/
def differenceOfFound (keyColumn : String) (first second : Term) : Lookup → Lookup → Outcome
  | .found (.number x), .found (.number y) => .value (Number.roundHundredths (x - y))
  | .found x, .found y =>
    let places :=
      s!"Some of the values for the row with account code `{first.code}` and column " ++
        s!"`{first.column}`, respectively the row with account code `{second.code}` and column " ++
        s!"`{second.column}`, "
    if x = .empty ∨ y = .empty then
      .failure (places ++ "are missing from the uploaded file")
    else
      .failure (places ++ "in the uploaded file are not numeric")
  | _, _ => .failure <|
      s!"Some of the account codes `{first.code}`, `{second.code}` required for the calculation " ++
        s!"do not exist in column `{keyColumn}` of the uploaded file"

/-- The failure of a difference of more than two terms. -/
def tooManyCodes : Outcome :=
  .failure <|
    "This field is computed by subtraction, so at most 2 account codes may be given for the " ++
      "terms of the subtraction"

/-- The failure of a difference over more than two columns. -/
def tooManyColumns : Outcome :=
  .failure <|
    "This field is computed by subtraction, so at most 2 column names may be given for the " ++
      "two terms of the subtraction"

/-- The failure of a table that lacks a column of a difference. -/
def termColumnsMissing (keyColumn : String) (first second : Term) : Outcome :=
  .failure <|
    s!"Some of the columns `{keyColumn}`, `{first.column}`, `{second.column}` required for the " ++
      "calculation do not exist in the uploaded file or have a different name"

/-- The difference of two cells. One account code or one column serves both. -/
def difference (keyColumn accountCodes valueColumns : String) (separator : Char) :
    TableM Outcome := do
  let settings := [keyColumn, accountCodes, valueColumns]
  if settings.any Text.isBlankText then
    return blankSettings settings
  let column := Text.trim keyColumn
  let codes := listed separator accountCodes
  let places := listed separator valueColumns
  if 2 < codes.length then
    return tooManyCodes
  if 2 < places.length then
    return tooManyColumns
  let first : Term := ⟨codes.headD "", places.headD ""⟩
  let second : Term := ⟨codes.getD 1 first.code, places.getD 1 first.column⟩
  let t ← get
  if [column, first.column, second.column].any fun name => !t.hasColumn name then
    return termColumnsMissing column first second
  let x ← Table.lookup first.column column first.code
  let y ← Table.lookup second.column column second.code
  return differenceOfFound column first second x y

end LedgerFields.Report
