import LedgerFields.Json.Fault
import LedgerFields.Json.Value
import LedgerFields.Number.Numeral
import LedgerFields.Text

/-! The strings, numbers and words of a JSON text, read from its bytes. -/

namespace LedgerFields.Json

/-- What was read, and the bytes after it. -/
abbrev Scan (α : Type) := Except Halt (α × List UInt8)

/-- Reads the rest of a word whose bytes are given. -/
def scanWord (value : Json) : List UInt8 → List UInt8 → Scan Json
  | [], rest => .ok (value, rest)
  | _ :: _, [] => .error ⟨.endInValue, []⟩
  | b :: word, c :: rest => if b = c then scanWord value word rest else .error ⟨.expectedWord, rest⟩

/-! ### Strings -/

/-- The value of a hexadecimal digit in either case. -/
def hexValue? (b : UInt8) : Option Nat :=
  if 0x30 ≤ b ∧ b ≤ 0x39 then some (b.toNat - 0x30)
  else if 0x41 ≤ b ∧ b ≤ 0x46 then some (b.toNat - 0x41 + 10)
  else if 0x61 ≤ b ∧ b ≤ 0x66 then some (b.toNat - 0x61 + 10)
  else none

/-- Reads four hexadecimal digits. -/
def scanHex : List UInt8 → Scan Nat
  | a :: b :: c :: d :: rest =>
    match hexValue? a, hexValue? b, hexValue? c, hexValue? d with
    | some i, some j, some k, some l => .ok (((i * 16 + j) * 16 + k) * 16 + l, rest)
    | _, _, _, _ => .error ⟨.invalidEscape, rest⟩
  | _ => .error ⟨.endInString, []⟩

/-- Whether a number is the first of a pair of surrogates. -/
def isLeading (n : Nat) : Bool := 0xD800 ≤ n && n ≤ 0xDBFF

/-- Whether a number is the second of a pair of surrogates. -/
def isTrailing (n : Nat) : Bool := 0xDC00 ≤ n && n ≤ 0xDFFF

/-- Reads the second escape of a pair of surrogates, of which the first one is given. -/
def scanTrailing (first : Nat) : List UInt8 → Scan Char
  | 0x5C :: 0x75 :: digits =>
    match scanHex digits with
    | .error halt => .error halt
    | .ok (second, rest) =>
      if isTrailing second then
        .ok (Char.ofNat ((first - 0xD800) * 0x400 + (second - 0xDC00) + 0x10000), rest)
      else
        .error ⟨.loneSurrogate, rest⟩
  | 0x5C :: _ :: rest => .error ⟨.unfinishedSurrogate, rest⟩
  | [0x5C] => .error ⟨.endInString, []⟩
  | _ :: rest => .error ⟨.unfinishedSurrogate, rest⟩
  | [] => .error ⟨.endInString, []⟩

/-- Reads an escape after its backslash. -/
def scanEscape : List UInt8 → Scan Char
  | [] => .error ⟨.endInString, []⟩
  | b :: rest =>
    match b with
    | 0x22 => .ok ('"', rest)
    | 0x5C => .ok ('\\', rest)
    | 0x2F => .ok ('/', rest)
    | 0x62 => .ok ('\x08', rest)
    | 0x66 => .ok ('\x0c', rest)
    | 0x6E => .ok ('\x0a', rest)
    | 0x72 => .ok ('\x0d', rest)
    | 0x74 => .ok ('\x09', rest)
    | 0x75 =>
      match scanHex rest with
      | .error halt => .error halt
      | .ok (first, rest) =>
        if isTrailing first then .error ⟨.loneSurrogate, rest⟩
        else if isLeading first then scanTrailing first rest
        else .ok (Char.ofNat first, rest)
    | _ => .error ⟨.invalidEscape, rest⟩

theorem length_scanHex {bytes rest : List UInt8} {n : Nat} (h : scanHex bytes = .ok (n, rest)) :
    rest.length ≤ bytes.length := by
  unfold scanHex at h
  split at h
  · split at h
    · simp only [Except.ok.injEq, Prod.mk.injEq] at h
      simp only [← h.2, List.length_cons]
      omega
    · simp at h
  · simp at h

theorem length_scanTrailing {first : Nat} {bytes rest : List UInt8} {c : Char}
    (h : scanTrailing first bytes = .ok (c, rest)) : rest.length ≤ bytes.length := by
  unfold scanTrailing at h
  split at h
  · split at h
    · simp at h
    · rename_i hScan
      have hLength := length_scanHex hScan
      split at h
      · simp only [Except.ok.injEq, Prod.mk.injEq] at h
        simp only [← h.2, List.length_cons]
        omega
      · simp at h
  all_goals simp at h

theorem length_scanEscape {bytes rest : List UInt8} {c : Char}
    (h : scanEscape bytes = .ok (c, rest)) : rest.length ≤ bytes.length := by
  unfold scanEscape at h
  split at h
  · simp at h
  · split at h
    case h_9 =>
      split at h
      · simp at h
      · rename_i hScan
        have hLength := length_scanHex hScan
        split at h
        · simp at h
        · split at h
          · have hTrailing := length_scanTrailing h
            simp only [List.length_cons]
            omega
          · simp only [Except.ok.injEq, Prod.mk.injEq] at h
            simp only [← h.2, List.length_cons]
            omega
    case h_10 => simp at h
    all_goals
      simp only [Except.ok.injEq, Prod.mk.injEq] at h
      simp [← h.2]

/-- Reads a string after its opening quote; `bytes` are those of its characters so far, the last one
first. -/
def scanString (bytes : List UInt8) : List UInt8 → Scan String
  | [] => .error ⟨.endInString, []⟩
  | b :: rest =>
    if b = 0x22 then
      .ok ((Text.ofBytes? bytes.reverse).getD "", rest)
    else if b = 0x5C then
      match h : scanEscape rest with
      | .error halt => .error halt
      | .ok (c, after) =>
        have : after.length ≤ rest.length := length_scanEscape h
        scanString ((String.utf8EncodeChar c).reverse ++ bytes) after
    else if b < 0x20 then
      .error ⟨.controlCharacter, rest⟩
    else
      scanString (b :: bytes) rest
termination_by text => text.length

/-! ### Numbers -/

/-- Whether a byte is a decimal digit. -/
def isDigitByte (b : UInt8) : Bool := 0x30 ≤ b && b ≤ 0x39

/-- The value of a digit. -/
def digitValue (b : UInt8) : Nat := b.toNat - 0x30

/-- The digits of a number are kept as long as their value fits into 64 bits. -/
def wordBound : Nat := Nat.pow 2 64

/-- Appends digits to a value as long as it fits, and counts them. -/
def takeDigits (count value : Nat) : List UInt8 → Nat × Nat × List UInt8
  | [] => (count, value, [])
  | b :: rest =>
    if isDigitByte b && decide (value * 10 + digitValue b < wordBound) then
      takeDigits (count + 1) (value * 10 + digitValue b) rest
    else
      (count, value, b :: rest)

/-- The power of ten as a double. -/
def tenTo (n : Nat) : Float := Number.nearestFloat 1 n

/-- The greatest power of ten that is a double. -/
def greatestPower : Nat := 308

/-- Divides by a power of ten, by one that is a double at a time. -/
def divideByPower (x : Float) (n : Nat) : Float :=
  if n ≤ greatestPower then x / tenTo n
  else if x == 0.0 then x
  else divideByPower (x / tenTo greatestPower) (n - greatestPower)
termination_by n
decreasing_by simp only [greatestPower] at *; omega

/-- The double of `value * 10 ^ exponent`. It is put together in doubles, so that it need not be the
nearest one. There is none when it is too great. -/
def doubleOf? (value : Nat) : (exponent : Int) → Option Float
  | .ofNat n =>
    let x := Float.ofNat value
    if n ≤ greatestPower then
      let product := x * tenTo n
      if product.isInf then none else some product
    else if value = 0 then
      some x
    else
      none
  | .negSucc n => some (divideByPower (Float.ofNat value) (n + 1))

/-- The number `value * 10 ^ exponent` with its sign as a double. -/
def signedDouble (negative : Bool) (value : Nat) (exponent : Int) (rest : List UInt8) :
    Scan Json :=
  match doubleOf? value exponent with
  | none => .error ⟨.numberOutOfRange, rest⟩
  | some x => .ok (.real (if negative then -x else x), rest)

/-- The greatest exponent that is read in full. -/
def greatestExponent : Nat := Nat.pow 2 31 - 1

/-- Reads the digits of an exponent up to the first one that makes it too great, if there is one.
The flag says that there is. -/
def takeExponent (value : Nat) : List UInt8 → Nat × Bool × List UInt8
  | [] => (value, false, [])
  | b :: rest =>
    if isDigitByte b then
      if greatestExponent < value * 10 + digitValue b then
        (value, true, rest)
      else
        takeExponent (value * 10 + digitValue b) rest
    else
      (value, false, b :: rest)

/-- Reads an exponent after its letter. An exponent that is too great leaves zero when it is
negative or the digits are zero. -/
def scanExponent (negative : Bool) (value : Nat) (exponent : Int) (text : List UInt8) :
    Scan Json :=
  let (down, digits) :=
    match text with
    | 0x2B :: rest => (false, rest)
    | 0x2D :: rest => (true, rest)
    | rest => (false, rest)
  match digits with
  | [] => .error ⟨.endInValue, []⟩
  | b :: rest =>
    if isDigitByte b then
      match takeExponent (digitValue b) rest with
      | (_, true, rest) =>
        if value ≠ 0 ∧ down = false then
          .error ⟨.numberOutOfRange, rest⟩
        else
          .ok (.real (if negative then -0.0 else 0.0), rest.dropWhile isDigitByte)
      | (n, false, rest) =>
        signedDouble negative value (if down then exponent - n else exponent + n) rest
    else
      .error ⟨.invalidNumber, rest⟩

/-- Reads what may follow the digits of a number that is a double. -/
def scanAfterDigits (negative : Bool) (value : Nat) (exponent : Int) (text : List UInt8) :
    Scan Json :=
  match text with
  | 0x65 :: rest | 0x45 :: rest => scanExponent negative value exponent rest
  | rest => signedDouble negative value exponent rest

/-- Reads the digits after the point, at least one. Those that do not fit are skipped. -/
def scanFraction (negative : Bool) (value : Nat) (exponent : Int) (text : List UInt8) :
    Scan Json :=
  match text with
  | [] => .error ⟨.endInValue, []⟩
  | b :: rest =>
    if isDigitByte b then
      let (count, value, rest) := takeDigits 0 value text
      scanAfterDigits negative value (exponent - count) (rest.dropWhile isDigitByte)
    else
      .error ⟨.invalidNumber, rest⟩

/-- A whole number that was written without a point and an exponent. One that needs more than 64
bits with its sign is a double, and so is the negative zero. -/
def wholeNumber (negative : Bool) (value : Nat) : Json :=
  if !negative then .integer value
  else if value = 0 ∨ Nat.pow 2 63 < value then .real (-Float.ofNat value)
  else .integer (-value)

/-- Reads what follows the digits before the point. Of these `dropped` did not fit. -/
def scanAfterWhole (negative : Bool) (value dropped : Nat) (text : List UInt8) : Scan Json :=
  match text with
  | 0x2E :: rest => scanFraction negative value dropped rest
  | 0x65 :: _ | 0x45 :: _ => scanAfterDigits negative value dropped text
  | rest =>
    if dropped = 0 then
      .ok (wholeNumber negative value, rest)
    else
      signedDouble negative value dropped rest

/-- Reads a number after its sign. A zero may not be followed by a digit. -/
def scanNumber (negative : Bool) (text : List UInt8) : Scan Json :=
  match text with
  | [] => .error ⟨.endInValue, []⟩
  | b :: rest =>
    if b = 0x30 then
      match rest with
      | c :: after =>
        if isDigitByte c then .error ⟨.invalidNumber, after⟩
        else scanAfterWhole negative 0 0 rest
      | [] => scanAfterWhole negative 0 0 []
    else if isDigitByte b then
      let (_, value, unread) := takeDigits 0 0 text
      let dropped := unread.takeWhile isDigitByte
      scanAfterWhole negative value dropped.length (unread.dropWhile isDigitByte)
    else
      .error ⟨.invalidNumber, rest⟩

end LedgerFields.Json
