import IncrementalParsing.Fault

/-!
Cursors over a text. Scanners read and move only through a cursor, and the cursor records how far
into the text they have looked, so that the lexer knows on which bytes a token depends. Looking at
the end of the text counts as looking at one byte past it. Positions can move back, but what was
examined stays examined.
-/

namespace IncrementalParsing

structure Cursor where
  text : Array UInt8
  position : Nat
  /-- The end of the bytes examined so far. -/
  examined : Nat

namespace Cursor

def start (text : Array UInt8) (position : Nat) : Cursor := ⟨text, position, position⟩

def examine (cursor : Cursor) (index : Nat) : Cursor :=
  { cursor with examined := max cursor.examined (index + 1) }

def byteAt (cursor : Cursor) (index : Nat) : UInt8 := cursor.text[index]?.getD 0

/-- The byte `distance` bytes ahead, zero beyond the end. -/
def nth (cursor : Cursor) (distance : Nat) : UInt8 × Cursor :=
  (cursor.byteAt (cursor.position + distance), cursor.examine (cursor.position + distance))

def peek (cursor : Cursor) : UInt8 × Cursor := cursor.nth 0

def second (cursor : Cursor) : UInt8 × Cursor := cursor.nth 1

def atEnd (cursor : Cursor) : Bool := cursor.text.size ≤ cursor.position

/-- Whether no byte is left, which counts as looking at the next one. -/
def isEof (cursor : Cursor) : Bool × Cursor := (cursor.atEnd, cursor.examine cursor.position)

def isNext (cursor : Cursor) (byte : UInt8) : Bool × Cursor :=
  (!cursor.atEnd && cursor.byteAt cursor.position == byte, cursor.examine cursor.position)

def forward (cursor : Cursor) (count : Nat) : Cursor :=
  { cursor with position := cursor.position + count }

def advance (cursor : Cursor) : UInt8 × Cursor :=
  let looked := cursor.examine cursor.position
  (cursor.byteAt cursor.position, if cursor.atEnd then looked else looked.forward 1)

/-- Passes over bytes as long as they satisfy a condition. The byte that ends the run is examined as
well. -/
def advanceWhile (cursor : Cursor) (condition : UInt8 → Bool) : Cursor :=
  if more : cursor.position < cursor.text.size then
    let looked := cursor.examine cursor.position
    if condition cursor.text[cursor.position] then
      (looked.forward 1).advanceWhile condition
    else looked
  else cursor.examine cursor.position
termination_by cursor.text.size - cursor.position
decreasing_by
  simp only [examine, forward]
  omega

def eat (cursor : Cursor) (byte : UInt8) : Bool × Cursor :=
  let (found, looked) := cursor.isNext byte
  (found, if found then looked.forward 1 else looked)

def hasAhead (cursor : Cursor) (distance : Nat) (byte : UInt8) : Bool :=
  cursor.position + distance < cursor.text.size
    && cursor.byteAt (cursor.position + distance) == byte

def continuesWith (cursor : Cursor) (distance : Nat) : List UInt8 → Bool × Cursor
  | [] => (true, cursor)
  | byte :: rest =>
      let looked := cursor.examine (cursor.position + distance)
      if cursor.hasAhead distance byte then looked.continuesWith (distance + 1) rest
      else (false, looked)

/-- Passes over `bytes` if the text goes on with them. Only the bytes up to the first difference are
examined. -/
def eatBytes (cursor : Cursor) (bytes : List UInt8) : Bool × Cursor :=
  let (found, looked) := cursor.continuesWith 0 bytes
  (found, if found then looked.forward bytes.length else looked)

@[simp] theorem text_examine (cursor : Cursor) (index : Nat) :
    (cursor.examine index).text = cursor.text := rfl

@[simp] theorem position_examine (cursor : Cursor) (index : Nat) :
    (cursor.examine index).position = cursor.position := rfl

theorem continuesWith_keeps (cursor : Cursor) (distance : Nat) (bytes : List UInt8) :
    (cursor.continuesWith distance bytes).2.text = cursor.text
      ∧ (cursor.continuesWith distance bytes).2.position = cursor.position := by
  induction bytes generalizing cursor distance with
  | nil => exact ⟨rfl, rfl⟩
  | cons byte rest ih =>
      have kept := ih (cursor.examine (cursor.position + distance)) (distance + 1)
      simp only [text_examine, position_examine] at kept
      cases same : cursor.hasAhead distance byte with
      | true => simpa [continuesWith, same] using kept
      | false => simp [continuesWith, same]

/-- Passes over everything up to and including the next occurrence of `close`, or to the end if there
is none. -/
def skipPast (cursor : Cursor) (close : List UInt8) : Cursor :=
  let looked := cursor.examine cursor.position
  if _more : cursor.position < cursor.text.size then
    let compared := looked.continuesWith 0 close
    if compared.1 then compared.2.forward close.length
    else (compared.2.forward 1).skipPast close
  else looked
termination_by cursor.text.size - cursor.position
decreasing_by
  have kept := continuesWith_keeps looked 0 close
  simp only [forward, kept.1, kept.2, looked, text_examine, position_examine]
  omega

def rewind (cursor : Cursor) (position : Nat) : Cursor := { cursor with position }

end Cursor

end IncrementalParsing
