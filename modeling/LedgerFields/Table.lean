import LedgerFields.Cell
import LedgerFields.Notice

/-! Tables: named columns, rows of cells, and for each column an index of its keys that is made when
a row is first looked up by that column and dropped when a row is added. -/

namespace LedgerFields

/-- Why a table cannot be made or extended. -/
inductive TableFault where
  | noColumns
  | duplicateColumn (name : String)
  /-- A row with more cells than there are columns; rows count from 0 here. -/
  | rowTooWide (row expected actual : Nat)
  deriving DecidableEq, Repr

/-- The text of a table fault. -/
def TableFault.message : TableFault → String
  | .noColumns => "A table needs at least one column"
  | .duplicateColumn name => s!"Duplicate column name: {name}"
  | .rowTooWide row expected actual =>
    s!"Row {row} has {actual} cells but the table has {expected} columns"

/-- What a table lacks to answer a look-up. -/
inductive Missing where
  | column (name : String)
  | keyColumn (name : String)
  /-- No row has the key `text` in the column `place`. -/
  | key (text place : String)
  deriving DecidableEq, Repr

/-- The text that says what is missing. -/
def Missing.message : Missing → String
  | .column name => s!"column `{name}` does not exist"
  | .keyColumn name => s!"key column `{name}` does not exist"
  | .key text place => s!"row key `{text}` does not exist in column `{place}`"

/-- The answer to a look-up. -/
inductive Lookup where
  | found (cell : Cell)
  | missing (what : Missing)
  deriving DecidableEq

/-- The keys of a column, each with the first row that has it, in the order of the rows. -/
structure KeyIndex where
  entries : List (String × Nat)
  deriving DecidableEq, Repr

namespace KeyIndex

/-- The index without keys. -/
def empty : KeyIndex := ⟨[]⟩

/-- The row of a key. -/
def row? (index : KeyIndex) (key : String) : Option Nat :=
  index.entries.lookup key

/-- Adds the key of the next row. The empty text is no key, and a key that is there already keeps
its row and is reported. -/
def extend (column : String) (index : KeyIndex) (row : Nat) (key : String) : Logged KeyIndex :=
  if key = "" then
    pure index
  else if (index.row? key).isSome then do
    Logged.note (.duplicateKey key column (row + 1))
    pure index
  else
    pure ⟨index.entries ++ [(key, row)]⟩

/-- The index of a column with the given keys, one for each row. -/
def build (column : String) (keys : List String) : Logged KeyIndex :=
  keys.zipIdx.foldlM (fun index entry => index.extend column entry.2 entry.1) empty

end KeyIndex

/-- Columns, rows, and for each column its key index if it has been made. -/
structure Table where
  columns : List String
  rows : Array (List Cell)
  indexes : List (Option KeyIndex)

/-- A computation that looks cells up in a table, makes key indexes and reports repeated keys. -/
abbrev TableM := StateT Table Logged

namespace Table

/-- The first text that occurs among those before it. -/
def firstRepeated? : List String → Option String :=
  go []
where
  /-- Goes on after the texts in `seen`. -/
  go (seen : List String) : List String → Option String
    | [] => none
    | name :: rest => if name ∈ seen then some name else go (name :: seen) rest

/-- A table without rows. Column names are trimmed, and no two may be equal. -/
def ofColumns (names : List String) : Except TableFault Table :=
  let columns := names.map Text.trim
  if columns = [] then
    .error .noColumns
  else
    match firstRepeated? columns with
    | some name => .error (.duplicateColumn name)
    | none => .ok { columns, rows := #[], indexes := columns.map fun _ => none }

/-- Adds a row. Cells are added to a short one, a row that is too wide is refused, and no key index
covers the new row, so that all are dropped. -/
def push (t : Table) (row : List Cell) : Except TableFault Table :=
  if t.columns.length < row.length then
    .error (.rowTooWide t.rows.size t.columns.length row.length)
  else
    .ok { t with
      rows := t.rows.push (row ++ List.replicate (t.columns.length - row.length) .empty)
      indexes := t.columns.map fun _ => none }

/-- The number of cells. -/
def size (t : Table) : Nat :=
  t.rows.size * t.columns.length

/-- The position of a column. -/
def columnIndex? (t : Table) (name : String) : Option Nat :=
  t.columns.idxOf? name

/-- Whether a column has this name. -/
def hasColumn (t : Table) (name : String) : Bool :=
  (t.columnIndex? name).isSome

/-- The cell at a row and a column, both counted from 0. -/
def cell? (t : Table) (row column : Nat) : Option Cell :=
  t.rows[row]? >>= (·[column]?)

/-- The keys that the rows have in a column. -/
def keys (t : Table) (column : Nat) : List String :=
  t.rows.toList.map fun row => (row.getD column .empty).keyText

/-- The key index of a column, which is made if there is none. -/
def keyIndex (column : Nat) : TableM KeyIndex := do
  let t ← get
  match t.indexes.getD column none with
  | some index => pure index
  | none =>
    let index ← KeyIndex.build (t.columns.getD column "") (t.keys column)
    set { t with indexes := t.indexes.set column (some index) }
    pure index

/-- The row with this key in the key column. The key is trimmed, as those of the rows are. -/
def rowOf (keyColumn key : String) : TableM (Option Nat) := do
  match (← get).columnIndex? keyColumn with
  | none => pure none
  | some position => return (← keyIndex position).row? (Text.trim key)

/-- The cell of a column in the row with this key in the key column. -/
def lookup (column keyColumn key : String) : TableM Lookup := do
  let t ← get
  match t.columnIndex? keyColumn, t.columnIndex? column with
  | none, _ => pure (.missing (.keyColumn keyColumn))
  | some _, none => pure (.missing (.column column))
  | some keyPosition, some position =>
    match (← keyIndex keyPosition).row? (Text.trim key) with
    | none => pure (.missing (.key key keyColumn))
    | some row => pure (.found ((t.cell? row position).getD .empty))

/-- Looks the cells of a column up for several keys, in order. -/
def lookupAll (column keyColumn : String) (keys : List String) : TableM (List Lookup) :=
  keys.mapM (lookup column keyColumn)

end Table

end LedgerFields
