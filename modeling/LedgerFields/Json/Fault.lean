/-! What is wrong with a JSON text, and where. -/

namespace LedgerFields.Json

/-- Why a text is not JSON. -/
inductive Cause where
  | endInArray
  | endInObject
  | endInString
  | endInValue
  | expectedColon
  | expectedCommaOrBracket
  | expectedCommaOrBrace
  | expectedWord
  | expectedValue
  | invalidEscape
  | invalidNumber
  | numberOutOfRange
  | controlCharacter
  | keyNotString
  | loneSurrogate
  | trailingComma
  | trailingCharacters
  | unfinishedSurrogate
  | nestedTooDeeply
  deriving DecidableEq, Repr

/-- The words for a cause. -/
def Cause.message : Cause → String
  | .endInArray => "EOF while parsing a list"
  | .endInObject => "EOF while parsing an object"
  | .endInString => "EOF while parsing a string"
  | .endInValue => "EOF while parsing a value"
  | .expectedColon => "expected `:`"
  | .expectedCommaOrBracket => "expected `,` or `]`"
  | .expectedCommaOrBrace => "expected `,` or `\x7d`"
  | .expectedWord => "expected ident"
  | .expectedValue => "expected value"
  | .invalidEscape => "invalid escape"
  | .invalidNumber => "invalid number"
  | .numberOutOfRange => "number out of range"
  | .controlCharacter => "control character (\\u0000-\\u001F) found while parsing a string"
  | .keyNotString => "key must be a string"
  | .loneSurrogate => "lone leading surrogate in hex escape"
  | .trailingComma => "trailing comma"
  | .trailingCharacters => "trailing characters"
  | .unfinishedSurrogate => "unexpected end of hex escape"
  | .nestedTooDeeply => "recursion limit exceeded"

/-- A cause and the bytes that were not read when it was found. -/
structure Halt where
  cause : Cause
  rest : List UInt8
  deriving DecidableEq, Repr

/-- The halt at the byte that comes next, which counts as read. -/
def Halt.atNext (cause : Cause) (rest : List UInt8) : Halt :=
  ⟨cause, rest.drop 1⟩

/-- A cause with the line, counted from 1, and the number of bytes read on it. -/
structure Fault where
  cause : Cause
  line : Nat
  column : Nat
  deriving DecidableEq, Repr

/-- The text of a fault. -/
def Fault.message (f : Fault) : String :=
  s!"{f.cause.message} at line {f.line} column {f.column}"

/-- The place of a halt in the text. -/
def Halt.locate (halt : Halt) (text : List UInt8) : Fault :=
  let read := text.take (text.length - halt.rest.length)
  { cause := halt.cause
    line := read.count 0x0A + 1
    column := (read.reverse.takeWhile (· != 0x0A)).length }

end LedgerFields.Json
