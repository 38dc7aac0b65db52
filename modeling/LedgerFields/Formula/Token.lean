import LedgerFields.Formula.Expr

/-! The settings of formulas, which say among others which characters a term may hold, and the
tokens of a formula without blanks: terms, operations and parentheses. -/

namespace LedgerFields.Formula

/-! ### Settings -/

/-- The settings shared by reading and evaluating a formula. -/
structure Settings where
  /-- Divides a term into a column name and a row key. -/
  separator : Char := '@'
  /-- The characters that a term may hold beside letters, digits and the separator. -/
  extraChars : String := "._"
  /-- The greatest height of an expression, and the most parentheses that are open at once. -/
  maxDepth : Nat := 256
  /-- When false, an empty cell counts as zero. -/
  strict : Bool := true

/-- The characters beside letters and digits that a term may hold. -/
def Settings.allowedChars (settings : Settings) : String :=
  String.ofList (settings.separator :: settings.extraChars.toList)

/-- The operators and parentheses, which end a term whatever the settings say. -/
def reservedChars : List Char := ['+', '-', '*', '/', '(', ')']

/-- Whether a term may hold this character after its first one. -/
def Settings.isTermChar (settings : Settings) (c : Char) : Bool :=
  c.isAlphanum ||
    (!reservedChars.contains c &&
      (c == settings.separator || settings.extraChars.toList.contains c))

/-! ### Tokens -/

/-- A token. A term is a numeral or a reference. -/
inductive Token where
  | term (text : String)
  | op (op : BinaryOp)
  | leftParen
  | rightParen
  deriving DecidableEq, Repr

namespace Token

/-- The characters of a token. -/
def chars : Token → List Char
  | term text => text.toList
  | op o => [o.symbol]
  | leftParen => ['(']
  | rightParen => [')']

/-- The operation of a token that is one. -/
def op? : Token → Option BinaryOp
  | op o => some o
  | _ => none

/-- How a message names a token. -/
def description : Token → String
  | term text => s!"term `{text}`"
  | op o => s!"operator '{o.symbol}'"
  | leftParen => "'('"
  | rightParen => "')'"

/-- The token that a character makes by itself. -/
def ofChar? : Char → Option Token
  | '(' => some leftParen
  | ')' => some rightParen
  | c => (BinaryOp.ofSymbol? c).map op

end Token

/-- A token and the position of its first character, counted from 1. -/
structure Placed where
  token : Token
  position : Nat
  deriving DecidableEq, Repr

/-- A character that starts no token, and its position. -/
structure Stray where
  char : Char
  position : Nat
  deriving DecidableEq, Repr

/-- The term whose characters are `word`, the last one first, before position `position`; there is
none when there are no characters. -/
def termBefore (position : Nat) (word : List Char) : List Placed :=
  if word = [] then
    []
  else
    [⟨.term (String.ofList word.reverse), position - word.length⟩]

/-- Reads on at `position` with the characters of the term that is being read, the last one first.
A term starts with an ASCII letter or digit and runs as long as term characters follow. -/
def tokensFrom (settings : Settings) (position : Nat) (word : List Char) :
    List Char → Except Stray (List Placed)
  | [] => .ok (termBefore position word)
  | c :: rest =>
    if word ≠ [] ∧ settings.isTermChar c then
      tokensFrom settings (position + 1) (c :: word) rest
    else if c.isAlphanum then
      (tokensFrom settings (position + 1) [c] rest).map (termBefore position word ++ ·)
    else
      match Token.ofChar? c with
      | some token =>
        (tokensFrom settings (position + 1) [] rest).map
          (termBefore position word ++ ⟨token, position⟩ :: ·)
      | none => .error ⟨c, position⟩

/-- The tokens of a formula, or its first character that is part of none. -/
def tokenize (settings : Settings) (cs : List Char) : Except Stray (List Placed) :=
  tokensFrom settings 1 [] cs

end LedgerFields.Formula
