import IncrementalParsing.Lexing.ByteClass

/-!
Scripts of cursor operations. A script is a list of operations that a cursor performs one after
another, each with its answer. Read as a scanner, a script is an immediate token named `raw`.
-/

namespace IncrementalParsing

inductive CursorCall where
  | peek
  | second
  | nth (distance : Nat)
  | isEof
  | isNext (byte : UInt8)
  | advance
  | advanceWhile (set : ByteClass)
  | eat (byte : UInt8)
  | eatBytes (bytes : List UInt8)

inductive CursorAnswer where
  | byte (value : UInt8)
  | truth (value : Bool)
  | nothing
deriving DecidableEq, Repr

def CursorCall.perform : CursorCall → Scan CursorAnswer
  | .peek => return .byte (← Scan.peek)
  | .second => return .byte (← Scan.second)
  | .nth distance => return .byte (← Scan.nth distance)
  | .isEof => return .truth (← Scan.isEof)
  | .isNext byte => return .truth (← Scan.isNext byte)
  | .advance => return .byte (← Scan.advance)
  | .advanceWhile set => do
      Scan.advanceWhile set.contains
      return .nothing
  | .eat byte => return .truth (← Scan.eat byte)
  | .eatBytes bytes => return .truth (← Scan.eatBytes bytes)

def performScript : List CursorCall → Scan (List CursorAnswer)
  | [] => return []
  | call :: rest => do
      let answer ← call.perform
      return answer :: (← performScript rest)

def scriptScanner (script : List CursorCall) : Scanner :=
  { tokens := []
    externals := ["raw"]
    trivia := return none
    scan := return none
    scanExternal := fun _ => do
      let _ ← performScript script
      return some 0 }

end IncrementalParsing
