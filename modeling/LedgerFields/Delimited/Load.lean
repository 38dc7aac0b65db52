import LedgerFields.Delimited.Guess
import LedgerFields.Delimited.Record
import LedgerFields.File.Path
import LedgerFields.Number.Numeral
import LedgerFields.Table

/-! Loading a table from delimited text: the first record names the columns, and each of the others
is a row, whose fields say nothing, a number or a text. A blank header cell is named by its
position, and a name that an earlier column has gets the least number that makes it new. -/

namespace LedgerFields.Delimited

/-- How delimited text is read. -/
structure Options where
  /-- The byte between fields; absent, it is guessed. -/
  delimiter : Option UInt8 := none
  /-- The byte around fields that hold delimiters or line ends; a double quote. -/
  quote : UInt8 := 0x22
  /-- Whether blanks around fields are dropped. -/
  trim : Bool := true

/-- How a text is split into records. A delimiter that is not given is guessed from the text. -/
def Options.dialect (options : Options) (text : String) : Dialect :=
  ⟨options.delimiter.getD (guessDelimiter text options.quote), options.quote⟩

/-- A field that is not UTF-8: its record, counted from 0 with the header, where that record starts,
the position of the field and the length of its part that is UTF-8. -/
structure Garbled where
  record : Nat
  start : Position
  field : Nat
  validLength : Nat
  deriving DecidableEq, Repr

/-- The text of what is wrong with a field that is not UTF-8. -/
def Garbled.detail (g : Garbled) : String :=
  s!"invalid utf-8: invalid UTF-8 in field {g.field} near byte index {g.validLength}"

/-- The text that also says where the field is. -/
def Garbled.message (g : Garbled) : String :=
  s!"CSV parse error: record {g.record} (line {g.start.line}, field: {g.field}, " ++
    s!"byte: {g.start.byte}): {g.detail}"

/-- Why no table can be loaded. -/
inductive LoadFault where
  | file (fault : FileFault)
  | garbled (field : Garbled)
  | table (fault : TableFault)
  /-- There is no header or no row. -/
  | empty
  | unsupportedFormat (format : String)
  deriving DecidableEq, Repr

/-- The text of a load fault. -/
def LoadFault.message : LoadFault → String
  | .file fault => "IO error: " ++ fault.message
  | .garbled field => "CSV error: " ++ field.message
  | .table fault => "Core error: " ++ fault.message
  | .empty => "The data file must contain at least one column and one row"
  | .unsupportedFormat format =>
    s!"Unsupported data file format `{format}`; expected a .csv file"

/-! ### Column names -/

/-- The name that a header cell asks for. -/
def baseName (position : Nat) (cell : String) : String :=
  let name := Text.trim cell
  if name = "" then s!"Unnamed: {position}" else name

/-- The first of `base`, `base.1`, `base.2`, … that is not taken. -/
def freeName (taken : List String) (base : String) : String :=
  let numbered := (List.range taken.length).map fun n => base ++ "." ++ toString (n + 1)
  ((base :: numbered).find? fun name => !taken.contains name).getD base

/-- Adds the name of the next column, and reports one that differs from the name asked for. -/
def addName (taken : List String) (entry : String × Nat) : Logged (List String) := do
  let base := baseName entry.2 entry.1
  let name := freeName taken base
  if name ≠ base then
    Logged.note (.renamedColumn base name)
  return taken ++ [name]

/-- The column names of a header. -/
def columnNames (header : List String) : Logged (List String) :=
  header.zipIdx.foldlM addName []

/-! ### Fields -/

/-- The texts that say that a value is not available. -/
def notAvailable : List String :=
  ["", "#N/A", "#N/A N/A", "#NA", "-1.#IND", "-1.#QNAN", "-NaN", "-nan", "1.#IND", "1.#QNAN",
    "<NA>", "N/A", "NA", "NULL", "NaN", "None", "n/a", "nan", "null"]

/-- The cell of a field. Blanks around it do not count, but are kept in a text; infinities are
texts. -/
def cellOfField (field : String) : Cell :=
  let trimmed := Text.trim field
  if trimmed ∈ notAvailable then
    .empty
  else
    match Number.readFloat? trimmed with
    | some x => if x.isFinite then .number x else .text field
    | none => .text field

/-- The blanks of ASCII as bytes, the vertical tab apart. -/
def isBlankByte (b : UInt8) : Bool :=
  [0x20, 0x09, 0x0A, 0x0C, 0x0D].contains b

/-- The bytes without the blank ones at both ends. -/
def trimBytes (bytes : List UInt8) : List UInt8 :=
  ((bytes.dropWhile isBlankByte).reverse.dropWhile isBlankByte).reverse

/-- The texts of the fields of a record, or the first field that is not UTF-8. -/
def decodeFields (record : Nat) (start : Position) :
    (position : Nat) → List (List UInt8) → Except LoadFault (List String)
  | _, [] => .ok []
  | position, field :: rest =>
    match Text.ofBytes? field with
    | none => .error (.garbled ⟨record, start, position, Text.validLength field⟩)
    | some text => (decodeFields record start (position + 1) rest).map (text :: ·)

/-- The cells of the header, which are decoded as they stand. -/
def headerCells (options : Options) : List RawRecord → Except LoadFault (List String)
  | [] => .ok []
  | header :: _ => do
    let cells ← decodeFields 0 header.start 0 header.fields
    return if options.trim then cells.map Text.trim else cells

/-- The fields of a data record. Trimmed ones are rid of blank bytes before they are decoded. -/
def rowFields (options : Options) (number : Nat) (record : RawRecord) :
    Except LoadFault (List String) := do
  if options.trim then
    let fields ← decodeFields number record.start 0 (record.fields.map trimBytes)
    return fields.map Text.trim
  else
    decodeFields number record.start 0 record.fields

/-! ### Tables -/

/-- Adds the row of a record to a table. -/
def addRecord (options : Options) (t : Table) (entry : RawRecord × Nat) :
    Except LoadFault Table := do
  let fields ← rowFields options entry.2 entry.1
  (t.push (fields.map cellOfField)).mapError .table

/-- The table of a text without a mark at its start. -/
def loadText (options : Options) (text : String) : ExceptT LoadFault Logged Table := do
  let records := (options.dialect text).records (Text.toBytes text)
  let header ← lift (headerCells options records)
  if header.all Text.isBlankText then
    throw .empty
  let names ← ExceptT.lift (columnNames header)
  let t ← lift ((Table.ofColumns names).mapError .table)
  let t ← lift ((records.zipIdx.drop 1).foldlM (addRecord options) t)
  if t.rows.isEmpty then
    throw .empty
  return t
where
  /-- An outcome that reports nothing. -/
  lift {α : Type} (x : Except LoadFault α) : ExceptT LoadFault Logged α := ExceptT.mk (pure x)

/-- The text without a byte order mark at its start. -/
def withoutMark (text : String) : String :=
  match text.toList with
  | '\uFEFF' :: rest => String.ofList rest
  | _ => text

/-- Loads the table of a file. One byte order mark is dropped before the delimiter is guessed. -/
def load (options : Options) (content : FileContent) : ExceptT LoadFault Logged Table :=
  match content with
  | .error fault => throw (.file fault)
  | .ok bytes =>
    match Text.ofBytes? bytes with
    | none => throw (.file .notText)
    | some text => loadText options (withoutMark text)

/-- Loads the table of the file at a path, whose extension has to be that of delimited text in any
case. -/
def loadFile (options : Options) (path : String) (content : FileContent) :
    ExceptT LoadFault Logged Table :=
  let extension := ((Path.extension? path).getD "").map Char.toLower
  if extension = "csv" then load options content
  else if extension = "" then throw (.unsupportedFormat path)
  else throw (.unsupportedFormat ("." ++ extension))

end LedgerFields.Delimited
