import IncrementalParsing.Fault

/-!
Rows and columns of byte offsets. A line ends after its newline byte, so the newline belongs to the
line that it ends, and a text always has one line more than it has newline bytes. Rows and columns
count from zero; a column is a number of bytes.
-/

namespace IncrementalParsing

structure Point where
  row : Nat
  column : Nat
deriving DecidableEq, Repr

namespace Point

def origin : Point := ⟨0, 0⟩

def render (point : Point) : String := s!"{point.row + 1}:{point.column + 1}"

end Point

structure LineIndex where
  lineStarts : List Nat
  length : Nat
deriving DecidableEq, Repr

namespace LineIndex

def startsAfter (offset : Nat) : List UInt8 → List Nat
  | [] => []
  | byte :: rest =>
      if byte = 10 then (offset + 1) :: startsAfter (offset + 1) rest
      else startsAfter (offset + 1) rest

def ofText (text : Array UInt8) : LineIndex :=
  ⟨0 :: startsAfter 0 text.toList, text.size⟩

def lineCount (index : LineIndex) : Nat := index.lineStarts.length

/-- The point of an offset: its row is that of the last line that does not begin after it. An offset
beyond the text counts as its end. -/
def point (index : LineIndex) (offset : Nat) : Point :=
  let clamped := min offset index.length
  let upTo := index.lineStarts.takeWhile (· ≤ clamped)
  ⟨upTo.length - 1, clamped - (upTo.getLast?.getD 0)⟩

/-- The offset of a point, or `none` when the row does not exist or ends before the column. A row
ends where the next one begins, the last one at the end of the text. -/
def offset (index : LineIndex) (point : Point) : Except Fault (Option Nat) :=
  match index.lineStarts[point.row]? with
  | none => .ok none
  | some start => do
      let limit := index.lineStarts[point.row + 1]?.getD index.length
      let offset ← checkedOffset (start + point.column)
      return if offset ≤ limit then some offset else none

end LineIndex

end IncrementalParsing
