/-! Delimited text split into records of fields. Records end at line feeds and carriage returns, and
empty lines are none. A quote opens a quoted field only where a field starts; inside it delimiters
and line ends are part of the field and a quote is written twice; after the closing quote the field
goes on as a plain one. -/

namespace LedgerFields.Delimited

/-- The bytes that have a meaning beside the line ends. -/
structure Dialect where
  delimiter : UInt8
  quote : UInt8

/-- A place in a text: the bytes before it, and its line, counted from 1. -/
structure Position where
  byte : Nat := 0
  line : Nat := 1
  deriving DecidableEq, Repr

/-- A record as it stands in the text, and where the reading of it started: after the record before,
so that the empty lines between the two belong to it. -/
structure RawRecord where
  start : Position
  fields : List (List UInt8)
  deriving DecidableEq, Repr

/-- Whether a byte ends a line. -/
def isLineEnd (b : UInt8) : Bool := b == 0x0A || b == 0x0D

/-- The place after one more byte. -/
def Position.after (p : Position) (b : UInt8) : Position :=
  ⟨p.byte + 1, if b = 0x0A then p.line + 1 else p.line⟩

/-- Where in a field the reading stands. -/
inductive FieldMode where
  | start
  | plain
  | quoted
  /-- After a quote in a quoted field, which closes the field unless another follows. -/
  | quoteSeen
  deriving DecidableEq, Repr

/-- A record that is being read: its complete fields and the bytes of the next one, both in reverse.
-/
structure OpenRecord where
  fields : List (List UInt8) := []
  field : List UInt8 := []
  mode : FieldMode := .start
  deriving DecidableEq, Repr

namespace OpenRecord

/-- Adds a byte to the field. -/
def keep (r : OpenRecord) (b : UInt8) (mode : FieldMode) : OpenRecord :=
  { r with field := b :: r.field, mode }

/-- Ends the field; another one follows. -/
def closeField (r : OpenRecord) : OpenRecord :=
  { fields := r.field.reverse :: r.fields }

/-- The fields of the record when it ends here. -/
def close (r : OpenRecord) : List (List UInt8) :=
  (r.field.reverse :: r.fields).reverse

end OpenRecord

/-- A record after one more byte: still open, or complete. -/
inductive Progress where
  | more (record : OpenRecord)
  | complete (fields : List (List UInt8))

/-- Reads a byte that no quotes enclose. -/
def Dialect.readPlain (d : Dialect) (r : OpenRecord) (b : UInt8) : Progress :=
  if b = d.delimiter then .more r.closeField
  else if isLineEnd b then .complete r.close
  else .more (r.keep b .plain)

/-- Reads a byte of a record. -/
def Dialect.read (d : Dialect) (r : OpenRecord) (b : UInt8) : Progress :=
  match r.mode with
  | .start => if b = d.quote then .more { r with mode := .quoted } else d.readPlain r b
  | .plain => d.readPlain r b
  | .quoted => if b = d.quote then .more { r with mode := .quoteSeen } else .more (r.keep b .quoted)
  | .quoteSeen => if b = d.quote then .more (r.keep b .quoted) else d.readPlain r b

/-- Where the reading of a text stands: here, in a record that started to be read at `start` and is
absent before its first byte, and after the records in `complete`. -/
structure Splitting where
  here : Position := {}
  start : Position := {}
  record : Option OpenRecord := none
  complete : Array RawRecord := #[]

namespace Splitting

/-- Reads a byte of the text. -/
def next (d : Dialect) (s : Splitting) (b : UInt8) : Splitting :=
  let here := s.here.after b
  if s.record.isNone && isLineEnd b then
    { s with here }
  else
    match d.read (s.record.getD {}) b with
    | .more record => { s with here, record := some record }
    | .complete fields =>
      { here, start := here, record := none, complete := s.complete.push ⟨s.start, fields⟩ }

/-- The records when the text ends here. A field that is open ends too, quoted or not. -/
def finish (s : Splitting) : List RawRecord :=
  match s.record with
  | none => s.complete.toList
  | some record => s.complete.toList ++ [⟨s.start, record.close⟩]

end Splitting

/-- The bytes that mark a text as UTF-8. -/
def byteOrderMark : List UInt8 := [0xEF, 0xBB, 0xBF]

/-- The records of a text. A mark at its start is skipped, and counts only as bytes before the
records after the first. -/
def Dialect.records (d : Dialect) (text : List UInt8) : List RawRecord :=
  if byteOrderMark.isPrefixOf text then
    let first : Splitting := { here := { byte := byteOrderMark.length } }
    ((text.drop byteOrderMark.length).foldl (Splitting.next d) first).finish
  else
    (text.foldl (Splitting.next d) {}).finish

end LedgerFields.Delimited
