import IncrementalParsing.Lexing.Scanner

/-!
Scanners described by classes of bytes. A token is a byte of one class followed by bytes of another;
an immediate token runs up to a byte of a class that stops it. Trivia are spaces, newlines and
comments to the end of the line or between `/*` and `*/`, each of which can be switched off.
-/

namespace IncrementalParsing

structure ByteClass where
  ranges : List (UInt8 × UInt8)
deriving DecidableEq, Repr

namespace ByteClass

/-- Reads a class from its written form, in which `a-z` stands for a range and any other byte for
itself. -/
def ofBytes : List UInt8 → ByteClass
  | [] => ⟨[]⟩
  | first :: rest =>
      match rest with
      | 45 :: last :: others => ⟨(first, last) :: (ofBytes others).ranges⟩
      | others => ⟨(first, first) :: (ofBytes others).ranges⟩

def contains (set : ByteClass) (byte : UInt8) : Bool :=
  set.ranges.any (fun range => range.1 ≤ byte && byte ≤ range.2)

end ByteClass

structure ClassToken where
  name : String
  first : ByteClass
  rest : ByteClass

structure ClassExternal where
  name : String
  stop : ByteClass

structure TriviaSwitches where
  space : Bool
  newline : Bool
  lineComment : Bool
  blockComment : Bool

structure ClassScanner where
  tokens : List ClassToken
  externals : List ClassExternal
  trivia : TriviaSwitches

namespace ClassScanner

def scanTrivia (switches : TriviaSwitches) : Scan (Option TriviaKind) := do
  let byte ← Scan.peek
  if byte = 32 ∧ switches.space then
    Scan.advanceWhile (· == 32)
    return some .whitespace
  if byte = 10 ∧ switches.newline then
    let _ ← Scan.advance
    return some .newline
  if byte = 47 ∧ switches.lineComment then
    if (← Scan.second) = 47 then
      Scan.advanceWhile (· != 10)
      return some .lineComment
  if byte = 47 ∧ switches.blockComment then
    if (← Scan.second) = 42 then
      Scan.advanceBy 2
      Scan.skipPast [42, 47]
      return some .blockComment
  return none

def scanToken (tokens : List ClassToken) : Scan (Option Nat) := do
  let byte ← Scan.peek
  match tokens.zipIdx.find? (fun entry => entry.1.first.contains byte) with
  | none => return none
  | some (token, index) =>
      let _ ← Scan.advance
      Scan.advanceWhile token.rest.contains
      return some index

def scanExternal (externals : List ClassExternal) (admitted : List Bool) : Scan (Option Nat) := do
  if ← Scan.isEof then
    return none
  let byte ← Scan.peek
  match (externals.zip admitted).zipIdx.find?
      (fun entry => entry.1.2 && !entry.1.1.stop.contains byte) with
  | none => return none
  | some ((token, _), index) =>
      Scan.advanceWhile (fun byte => !token.stop.contains byte)
      return some index

def toScanner (scanner : ClassScanner) : Scanner :=
  { tokens := scanner.tokens.map (·.name)
    externals := scanner.externals.map (·.name)
    trivia := scanTrivia scanner.trivia
    scan := scanToken scanner.tokens
    scanExternal := scanExternal scanner.externals }

end ClassScanner

end IncrementalParsing
