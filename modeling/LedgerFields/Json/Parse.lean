import LedgerFields.Json.Scan

/-! Reading a JSON text: its tokens from left to right, with a stack of the arrays and objects that
are open. A token that no value can hold here is a fault at its first byte, and a token that is
itself broken is a fault only where it could stand. -/

namespace LedgerFields.Json

/-- A token of a JSON text. -/
inductive Token where
  | leftBracket
  | rightBracket
  | leftBrace
  | rightBrace
  | comma
  | colon
  | string (value : String)
  | scalar (value : Json)
  | brokenString (halt : Halt)
  | brokenScalar (halt : Halt)
  /-- A byte that starts no token. -/
  | stray

/-- A token and the bytes of the text from its first one on. -/
structure PlacedToken where
  token : Token
  bytes : List UInt8

/-- A string token from what was scanned. -/
def Token.ofString : Scan String → Token × List UInt8
  | .ok (value, rest) => (.string value, rest)
  | .error halt => (.brokenString halt, [])

/-- A scalar token from what was scanned. -/
def Token.ofScalar : Scan Json → Token × List UInt8
  | .ok (value, rest) => (.scalar value, rest)
  | .error halt => (.brokenScalar halt, [])

/-- Reads the token that starts with a byte. Nothing is read after a broken one. -/
def Token.scan (b : UInt8) (rest : List UInt8) : Token × List UInt8 :=
  match b with
  | 0x5B => (.leftBracket, rest)
  | 0x5D => (.rightBracket, rest)
  | 0x7B => (.leftBrace, rest)
  | 0x7D => (.rightBrace, rest)
  | 0x2C => (.comma, rest)
  | 0x3A => (.colon, rest)
  | 0x22 => ofString (scanString [] rest)
  | 0x6E => ofScalar (scanWord .null (Text.toBytes "ull") rest)
  | 0x74 => ofScalar (scanWord (.bool true) (Text.toBytes "rue") rest)
  | 0x66 => ofScalar (scanWord (.bool false) (Text.toBytes "alse") rest)
  | 0x2D => ofScalar (scanNumber true rest)
  | _ => if isDigitByte b then ofScalar (scanNumber false (b :: rest)) else (.stray, [])

/-- Whether a byte may stand between tokens. -/
def isBlankByte (b : UInt8) : Bool :=
  [0x20, 0x09, 0x0A, 0x0D].contains b

/-- The tokens of a text, of which there are at most `count`. -/
def tokensUpTo : (count : Nat) → List UInt8 → List PlacedToken
  | 0, _ => []
  | count + 1, text =>
    match text.dropWhile isBlankByte with
    | [] => []
    | b :: rest =>
      let (token, after) := Token.scan b rest
      ⟨token, b :: rest⟩ :: tokensUpTo count after

/-- The tokens of a text. Each has a byte at least. -/
def tokens (text : List UInt8) : List PlacedToken :=
  tokensUpTo text.length text

/-- An array or an object that is open. -/
inductive Frame where
  /-- The items so far, the last one first. -/
  | array (items : List Json)
  /-- The members so far, and the key of the value that is read. -/
  | object (members : List (String × Json)) (key : String)

/-- What may come next. -/
inductive Mode where
  /-- A value. -/
  | value
  /-- A value or the end of the array that has just been opened. -/
  | firstItem
  /-- A value after a comma in an array. -/
  | nextItem
  /-- A key or the end of the object that has just been opened. -/
  | firstKey
  /-- A key after a comma in an object with these members. -/
  | nextKey (members : List (String × Json))
  /-- The colon after a key. -/
  | colon (members : List (String × Json)) (key : String)
  /-- What follows a complete value. -/
  | after (value : Json)

/-- Where the reading of a text stands. -/
structure State where
  opened : List Frame := []
  mode : Mode := .value

/-- The number of arrays and objects that may be open at once. -/
def greatestDepth : Nat := 127

namespace State

/-- The state after a complete value. -/
def complete (s : State) (value : Json) : State :=
  { s with mode := .after value }

/-- Opens an array or an object, if it is not nested too deeply. The object frame waits for its
first key. -/
def descend (s : State) (bytes : List UInt8) (next : State) : Except Halt State :=
  if greatestDepth ≤ s.opened.length then .error (.atNext .nestedTooDeeply bytes) else .ok next

/-- Reads a token where a value must come. -/
def readValue (s : State) (placed : PlacedToken) : Except Halt State :=
  match placed.token with
  | .scalar value => .ok (s.complete value)
  | .string value => .ok (s.complete (.string value))
  | .leftBracket =>
    s.descend placed.bytes { opened := .array [] :: s.opened, mode := .firstItem }
  | .leftBrace =>
    s.descend placed.bytes { opened := .object [] "" :: s.opened, mode := .firstKey }
  | .brokenString halt | .brokenScalar halt => .error halt
  | _ => .error (.atNext .expectedValue placed.bytes)

/-- Reads a token where a key must come; `members` are those before it. -/
def readKey (s : State) (members : List (String × Json)) (placed : PlacedToken) :
    Except Halt State :=
  match placed.token with
  | .string key => .ok { s with mode := .colon members key }
  | .brokenString halt => .error halt
  | _ => .error (.atNext .keyNotString placed.bytes)

/-- Reads a token after a complete value. -/
def readAfter (s : State) (value : Json) (placed : PlacedToken) : Except Halt State :=
  match s.opened with
  | [] => .error (.atNext .trailingCharacters placed.bytes)
  | .array items :: outer =>
    match placed.token with
    | .comma => .ok { opened := .array (value :: items) :: outer, mode := .nextItem }
    | .rightBracket => .ok { opened := outer, mode := .after (.array (value :: items).reverse) }
    | _ => .error (.atNext .expectedCommaOrBracket placed.bytes)
  | .object members key :: outer =>
    match placed.token with
    | .comma => .ok { s with mode := .nextKey (setMember members key value) }
    | .rightBrace =>
      .ok { opened := outer, mode := .after (.object (setMember members key value)) }
    | _ => .error (.atNext .expectedCommaOrBrace placed.bytes)

/-- Reads a token. -/
def next (s : State) (placed : PlacedToken) : Except Halt State :=
  match s.mode, placed.token with
  | .value, _ => s.readValue placed
  | .firstItem, .rightBracket => .ok { opened := s.opened.drop 1, mode := .after (.array []) }
  | .firstItem, _ => s.readValue placed
  | .nextItem, .rightBracket => .error (.atNext .trailingComma placed.bytes)
  | .nextItem, _ => s.readValue placed
  | .firstKey, .rightBrace => .ok { opened := s.opened.drop 1, mode := .after (.object []) }
  | .firstKey, _ => s.readKey [] placed
  | .nextKey _, .rightBrace => .error (.atNext .trailingComma placed.bytes)
  | .nextKey members, _ => s.readKey members placed
  | .colon members key, .colon =>
    .ok { opened := .object members key :: s.opened.drop 1, mode := .value }
  | .colon _ _, _ => .error (.atNext .expectedColon placed.bytes)
  | .after value, _ => s.readAfter value placed

/-- The value of a text that ends here. -/
def finish (s : State) : Except Halt Json :=
  match s.mode with
  | .value | .nextItem | .nextKey _ => .error ⟨.endInValue, []⟩
  | .firstItem => .error ⟨.endInArray, []⟩
  | .firstKey | .colon _ _ => .error ⟨.endInObject, []⟩
  | .after value =>
    match s.opened with
    | [] => .ok value
    | .array _ :: _ => .error ⟨.endInArray, []⟩
    | .object _ _ :: _ => .error ⟨.endInObject, []⟩

end State

/-- The value that the bytes of a text spell. -/
def parseBytes (text : List UInt8) : Except Fault Json :=
  let result := do
    let state ← (tokens text).foldlM State.next {}
    state.finish
  result.mapError (·.locate text)

/-- The value that a text spells. -/
def parse (text : String) : Except Fault Json :=
  parseBytes (Text.toBytes text)

end LedgerFields.Json
