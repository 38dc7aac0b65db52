/-! Texts: blank characters, the texts that are left when they are trimmed or dropped, the pieces
between separators, and the UTF-8 bytes. -/

namespace LedgerFields.Text

/-! ### Blanks -/

/-- The characters with the Unicode property `White_Space`, as closed ranges of code points. -/
def blankRanges : List (Nat × Nat) :=
  [(0x09, 0x0D), (0x20, 0x20), (0x85, 0x85), (0xA0, 0xA0), (0x1680, 0x1680), (0x2000, 0x200A),
    (0x2028, 0x2029), (0x202F, 0x202F), (0x205F, 0x205F), (0x3000, 0x3000)]

/-- A character is blank when its code point lies in one of the blank ranges. -/
def isBlank (c : Char) : Bool :=
  blankRanges.any fun range => range.1 ≤ c.toNat && c.toNat ≤ range.2

/-- The characters left when the blanks at both ends are dropped. -/
def trimChars (cs : List Char) : List Char :=
  ((cs.dropWhile isBlank).reverse.dropWhile isBlank).reverse

/-- The text without the blanks at its two ends. -/
def trim (s : String) : String :=
  String.ofList (trimChars s.toList)

/-- The text without any of its blanks. -/
def dropBlanks (s : String) : String :=
  String.ofList (s.toList.filter fun c => !isBlank c)

/-- A text is blank when it holds no other characters than blanks. -/
def isBlankText (s : String) : Bool :=
  s.toList.all isBlank

/-! ### Pieces -/

/-- The texts between the occurrences of `separator`, which is dropped. -/
def pieces (separator : Char) (s : String) : List String :=
  (s.toList.splitOn separator).map String.ofList

/-- The texts before and after the first `separator`, if there is one. -/
def splitOnce? (separator : Char) (s : String) : Option (String × String) :=
  match s.toList.dropWhile (· != separator) with
  | [] => none
  | _ :: after => some (String.ofList (s.toList.takeWhile (· != separator)), String.ofList after)

/-! ### Bytes -/

/-- The UTF-8 bytes of a text. -/
def toBytes (s : String) : List UInt8 :=
  s.toList.flatMap String.utf8EncodeChar

/-- The text that the bytes spell, unless they are not UTF-8. -/
def ofBytes? (bytes : List UInt8) : Option String :=
  String.fromUTF8? ⟨bytes.toArray⟩

/-- The length of the longest start of `bytes` that is UTF-8. -/
def validLength (bytes : List UInt8) : Nat :=
  let lengths := (List.range (bytes.length + 1)).reverse
  (lengths.find? fun n => (ofBytes? (bytes.take n)).isSome).getD 0

end LedgerFields.Text
