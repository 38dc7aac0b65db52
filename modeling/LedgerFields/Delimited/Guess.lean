import LedgerFields.Text

/-! Guessing the delimiter of a text from its first lines: the one that splits them into equally
many fields, and into the most. -/

namespace LedgerFields.Delimited

/-- The delimiters that are tried, the preferred ones first: comma, semicolon, tab and bar. -/
def candidates : List UInt8 := [0x2C, 0x3B, 0x09, 0x7C]

/-- The delimiter of a text that none of them splits. -/
def defaultDelimiter : UInt8 := 0x2C

/-- The number of lines that are looked at, blank ones not counted. -/
def sampleLines : Nat := 20

/-- The line without the carriage return at its end. -/
def withoutReturn (line : List Char) : List Char :=
  match line.getLast? with
  | some '\r' => line.dropLast
  | _ => line

/-- The lines of a text from the texts between its line feeds: what follows the last line feed is a
line unless it is empty, and keeps a carriage return at its end. -/
def linesOf : List (List Char) → List (List Char)
  | [] => []
  | [last] => if last = [] then [] else [last]
  | line :: rest => withoutReturn line :: linesOf rest

/-- The lines of a text. -/
def lines (text : String) : List String :=
  (linesOf (text.toList.splitOn '\n')).map String.ofList

/-- Counts a byte outside of quotes. -/
def countUnquotedBytes (delimiter quote : UInt8) : (quoted : Bool) → List UInt8 → Nat
  | _, [] => 0
  | quoted, b :: rest =>
    if b = quote then
      countUnquotedBytes delimiter quote (!quoted) rest
    else if b = delimiter && !quoted then
      countUnquotedBytes delimiter quote quoted rest + 1
    else
      countUnquotedBytes delimiter quote quoted rest

/-- The number of delimiters in a line, of which those after an odd number of quotes do not count.
-/
def countUnquoted (line : String) (delimiter quote : UInt8) : Nat :=
  countUnquotedBytes delimiter quote false (Text.toBytes line)

/-- How well a delimiter splits the lines: whether it occurs equally often in all, and how often in
the first. -/
structure Score where
  even : Bool
  count : Nat
  deriving DecidableEq, Repr

/-- An even split beats an uneven one, and then the wider one wins. -/
def Score.beats (x y : Score) : Bool :=
  (x.even && !y.even) || (x.even == y.even && decide (y.count < x.count))

/-- The score of a delimiter on these counts, if it occurs in the first line. -/
def score? : List Nat → Option Score
  | [] => none
  | 0 :: _ => none
  | count :: rest => some ⟨rest.all (· == count), count⟩

/-- The better of the best candidate so far and another one. -/
def better (sample : List String) (quote : UInt8) (best : Option (UInt8 × Score))
    (candidate : UInt8) : Option (UInt8 × Score) :=
  match score? (sample.map fun line => countUnquoted line candidate quote), best with
  | none, _ => best
  | some score, none => some (candidate, score)
  | some score, some (_, bestScore) =>
    if score.beats bestScore then some (candidate, score) else best

/-- The delimiter that splits the first lines best; of equally good ones it is the preferred one. -/
def guessDelimiter (text : String) (quote : UInt8) : UInt8 :=
  let sample := ((lines text).filter fun line => !Text.isBlankText line).take sampleLines
  ((candidates.foldl (better sample quote) none).map (·.1)).getD defaultDelimiter

end LedgerFields.Delimited
