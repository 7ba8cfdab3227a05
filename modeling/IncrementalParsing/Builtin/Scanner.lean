import IncrementalParsing.Lexing.Scanner

/-!
The scanner of the built-in language: blanks, newlines and comments; identifiers, integers and floats;
and the inside of strings, which is made of immediate tokens.
-/

namespace IncrementalParsing.Builtin

def isDecimal (byte : UInt8) : Bool := 48 ≤ byte && byte ≤ 57

def isLetter (byte : UInt8) : Bool :=
  (97 ≤ byte && byte ≤ 122) || (65 ≤ byte && byte ≤ 90)

def isHexadecimal (byte : UInt8) : Bool :=
  isDecimal byte || (97 ≤ byte && byte ≤ 102) || (65 ≤ byte && byte ≤ 70)

def isBinary (byte : UInt8) : Bool := byte = 48 || byte = 49

def isOctal (byte : UInt8) : Bool := 48 ≤ byte && byte ≤ 55

/-- The underscore, which separates digits and stands in names. -/
def underscore : UInt8 := 95

def isNameStart (byte : UInt8) : Bool := isLetter byte || byte = underscore

def isNamePart (byte : UInt8) : Bool := isLetter byte || isDecimal byte || byte = underscore

/-- Blanks other than the newline: space, tab, carriage return, vertical tab and form feed. -/
def isBlank (byte : UInt8) : Bool :=
  byte = 32 || byte = 9 || byte = 13 || byte = 11 || byte = 12

def tokenNames : List String := ["identifier", "integer_literal", "float_literal"]

def externalNames : List String := ["string_content", "fstring_content", "escape_sequence"]

/-- A newline, with a carriage return before it or not; a comment to the end of the line; a comment
between `/*` and `*/`, which does not nest and may be left open; or blanks. -/
def scanTrivia : Scan (Option TriviaKind) := do
  if ← Scan.isEof then
    return none
  let first ← Scan.peek
  let second ← Scan.second
  if first = 10 then
    Scan.advanceBy 1
    return some .newline
  else if first = 13 ∧ second = 10 then
    Scan.advanceBy 2
    return some .newline
  else if first = 47 ∧ second = 47 then
    Scan.advanceWhile (· != 10)
    return some .lineComment
  else if first = 47 ∧ second = 42 then
    Scan.advanceBy 2
    Scan.skipPast [42, 47]
    return some .blockComment
  else if isBlank first then
    Scan.advanceWhile isBlank
    return some .whitespace
  else
    return none

def radixDigits? (letter : UInt8) : Option (UInt8 → Bool) :=
  if letter = 120 then some isHexadecimal
  else if letter = 98 then some isBinary
  else if letter = 111 then some isOctal
  else none

def decimals : Scan Unit := Scan.advanceWhile (fun byte => isDecimal byte || byte = underscore)

/-- The digits of another radix, if a zero, the letter of the radix and one of its digits are ahead. -/
def radixAhead? : Scan (Option (UInt8 → Bool)) := do
  if (← Scan.peek) = 48 then
    match radixDigits? (← Scan.second) with
    | none => return none
    | some digits =>
        let digit ← Scan.nth 2
        return if digits digit then some digits else none
  else
    return none

/-- An exponent, if one is ahead: a letter, perhaps a sign, and at least one digit. -/
def exponent : Scan Unit := do
  let afterLetter ← Scan.second
  let sign := if afterLetter = 43 || afterLetter = 45 then 1 else 0
  let letter ← Scan.peek
  if letter = 101 || letter = 69 then
    let digit ← Scan.nth (1 + sign)
    if isDecimal digit then
      Scan.advanceBy (1 + sign)
      Scan.advanceWhile isDecimal

/-- An integer, in which case the answer is 1, or a float, in which case it is 2. -/
def number : Scan Nat := do
  match ← radixAhead? with
  | some digits =>
      Scan.advanceBy 2
      Scan.advanceWhile (fun byte => digits byte || byte = underscore)
      return 1
  | none =>
      decimals
      if ← Scan.isNext 46 then
        let digit ← Scan.second
        if isDecimal digit then
          Scan.advanceBy 1
          decimals
          exponent
          return 2
      return 1

def scanToken : Scan (Option Nat) := do
  if ← Scan.isEof then
    return none
  let first ← Scan.peek
  if isNameStart first then
    Scan.advanceWhile isNamePart
    return some 0
  else if isDecimal first then
    return some (← number)
  else
    return none

def escapeDigits? (letter : UInt8) : Option Nat :=
  if letter = 110 || letter = 114 || letter = 116 || letter = 92 || letter = 39 || letter = 34 then
    some 0
  else if letter = 120 then some 2
  else if letter = 117 then some 4
  else if letter = 85 then some 8
  else none

/-- Whether the next `count` bytes from `distance` on are hexadecimal digits; looks no further than
the first one that is not. -/
def hexadecimalAhead (distance : Nat) : Nat → Scan Bool
  | 0 => return true
  | count + 1 => do
      let byte ← Scan.nth distance
      if isHexadecimal byte then hexadecimalAhead (distance + 1) count else return false

def escapeSequence : Scan Bool := do
  Scan.advanceBy 1
  match escapeDigits? (← Scan.peek) with
  | none => return false
  | some count =>
      if ← hexadecimalAhead 1 count then
        Scan.advanceBy (count + 1)
        return true
      else
        return false

/-- A stretch of string text or an escape sequence. Text goes on to a quote or a backslash, and in a
string with interpolations to an opening brace. -/
def scanInside (admitted : List Bool) : Scan (Option Nat) := do
  let admits := fun index => (admitted[index]?).getD false
  if ← Scan.isEof then
    return none
  let first ← Scan.peek
  if first = 34 then
    return none
  else if first = 92 then
    if admits 2 then
      return if ← escapeSequence then some 2 else none
    else
      return none
  else if admits 0 then
    Scan.advanceWhile (fun byte => !(byte = 34 || byte = 92))
    return some 0
  else if first = 123 then
    return none
  else if admits 1 then
    Scan.advanceWhile (fun byte => !(byte = 34 || byte = 92 || byte = 123))
    return some 1
  else
    return none

def scanner : Scanner :=
  { tokens := tokenNames
    externals := externalNames
    trivia := scanTrivia
    scan := scanToken
    scanExternal := scanInside }

end IncrementalParsing.Builtin
