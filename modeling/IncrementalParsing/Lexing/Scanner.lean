import IncrementalParsing.Green.Basic
import IncrementalParsing.Lexing.Cursor

/-!
Scanners. A language brings a scanner for what its literal texts do not cover: trivia, tokens such as
names and numbers, and immediate tokens, which are scanned where the previous token ends and only
where they are admitted. A scanner names its tokens and answers with positions in those lists; it
consumes what it has moved the cursor over.
-/

namespace IncrementalParsing

/-- A computation that reads and moves a cursor. -/
abbrev Scan (α : Type) := StateM Cursor α

namespace Scan

def nth (distance : Nat) : Scan UInt8 := fun cursor => cursor.nth distance

def peek : Scan UInt8 := Cursor.peek

def second : Scan UInt8 := Cursor.second

def isEof : Scan Bool := Cursor.isEof

def isNext (byte : UInt8) : Scan Bool := fun cursor => cursor.isNext byte

def advance : Scan UInt8 := Cursor.advance

def advanceWhile (condition : UInt8 → Bool) : Scan Unit :=
  fun cursor => ((), cursor.advanceWhile condition)

def eat (byte : UInt8) : Scan Bool := fun cursor => cursor.eat byte

def eatBytes (bytes : List UInt8) : Scan Bool := fun cursor => cursor.eatBytes bytes

def skipPast (close : List UInt8) : Scan Unit := fun cursor => ((), cursor.skipPast close)

def advanceBy : Nat → Scan Unit
  | 0 => pure ()
  | count + 1 => do
      let _ ← advance
      advanceBy count

end Scan

structure Scanner where
  /-- The names of the tokens that `scan` answers with, by position. -/
  tokens : List String
  /-- The names of the immediate tokens that `scanExternal` answers with, by position. -/
  externals : List String
  trivia : Scan (Option TriviaKind)
  scan : Scan (Option Nat)
  /-- Consumes one immediate token; the list says for each of them whether it is admitted. -/
  scanExternal : List Bool → Scan (Option Nat)

end IncrementalParsing
