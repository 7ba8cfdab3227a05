import IncrementalParsing.Text.LineIndex

/-!
Edits. An edit says that one range of an old text was replaced by a range of a new text that begins
at the same offset; what lies outside the two ranges is the same in both texts. Before an edit is used
it is narrowed: what the two ranges have in common at their beginnings and at their ends is left out.
-/

namespace IncrementalParsing

/-- Replacement of the bytes from `start` to `oldEnd` by the bytes from `start` to `newEnd`. The
points say where that is in rows and columns, and nothing depends on them. -/
structure InputEdit where
  start : Nat
  oldEnd : Nat
  newEnd : Nat
  startPoint : Point
  oldEndPoint : Point
  newEndPoint : Point
deriving DecidableEq, Repr

inductive EditError where
  | oldEndBeforeStart (start oldEnd : Nat)
  | newEndBeforeStart (start newEnd : Nat)
  | oldEndOutOfBounds (oldEnd length : Nat)
  | newEndOutOfBounds (newEnd length : Nat)
  | lengthMismatch (expected actual : Nat)
deriving DecidableEq, Repr

def EditError.message : EditError → String
  | .oldEndBeforeStart start oldEnd => s!"old end {oldEnd} is before the edit start {start}"
  | .newEndBeforeStart start newEnd => s!"new end {newEnd} is before the edit start {start}"
  | .oldEndOutOfBounds oldEnd length =>
      s!"old end {oldEnd} is beyond the old text ({length} bytes)"
  | .newEndOutOfBounds newEnd length =>
      s!"new end {newEnd} is beyond the new text ({length} bytes)"
  | .lengthMismatch expected actual =>
      s!"new text has {actual} bytes but the edit implies {expected}"

namespace InputEdit

def ofOffsets (start oldEnd newEnd : Nat) : InputEdit :=
  ⟨start, oldEnd, newEnd, .origin, .origin, .origin⟩

def withPoints (edit : InputEdit) (old new : LineIndex) : InputEdit :=
  { edit with
    startPoint := old.point edit.start
    oldEndPoint := old.point edit.oldEnd
    newEndPoint := new.point edit.newEnd }

def reported (offset : Nat) : Nat := offset % offsetLimit

/-- The text with the bytes from `start` to `oldEnd` replaced. -/
def spliced (old : Array UInt8) (start oldEnd : Nat) (insert : Array UInt8) : Array UInt8 :=
  old.extract 0 start ++ insert ++ old.extract oldEnd old.size

/-- Replaces a range of a text, and answers the edit together with the new text. -/
def replace (old : Array UInt8) (start oldEnd : Nat) (insert : Array UInt8) :
    Except EditError (InputEdit × Array UInt8) :=
  if oldEnd < start then
    .error (.oldEndBeforeStart (reported start) (reported oldEnd))
  else if oldEnd > old.size then
    .error (.oldEndOutOfBounds (reported oldEnd) (reported old.size))
  else
    let text := spliced old start oldEnd insert
    let edit := ofOffsets start oldEnd (start + insert.size)
    .ok (edit.withPoints (.ofText old) (.ofText text), text)

def validate (edit : InputEdit) (oldLength newLength : Nat) :
    Except (Failure EditError) Unit := do
  if edit.oldEnd < edit.start then
    refuse (.oldEndBeforeStart edit.start edit.oldEnd)
  if edit.newEnd < edit.start then
    refuse (.newEndBeforeStart edit.start edit.newEnd)
  if edit.oldEnd > oldLength then
    refuse (.oldEndOutOfBounds edit.oldEnd oldLength)
  if edit.newEnd > newLength then
    refuse (.newEndOutOfBounds edit.newEnd newLength)
  let expected ← (checkedOffset (oldLength - edit.oldEnd + edit.newEnd) : Except Fault _)
  if expected ≠ newLength then
    refuse (.lengthMismatch expected newLength)

end InputEdit

structure Change where
  start : Nat
  oldEnd : Nat
  newEnd : Nat
deriving DecidableEq, Repr

namespace Change

/-- How many of the next `count` bytes are equal in two texts from `start` on. -/
def commonForward (old new : Array UInt8) (start : Nat) : Nat → Nat
  | 0 => 0
  | count + 1 =>
      if (old[start]? : Option UInt8) = new[start]? then
        commonForward old new (start + 1) count + 1
      else 0

/-- How many of the last `count` bytes before two offsets are equal. -/
def commonBackward (old new : Array UInt8) (oldEnd newEnd : Nat) : Nat → Nat
  | 0 => 0
  | count + 1 =>
      if (old[oldEnd - 1]? : Option UInt8) = new[newEnd - 1]? then
        commonBackward old new (oldEnd - 1) (newEnd - 1) count + 1
      else 0

/-- Leaves out what the edited ranges have in common, at their beginnings first. -/
def narrow (edit : InputEdit) (old new : Array UInt8) : Change :=
  let kept := commonForward old new edit.start (min edit.oldEnd edit.newEnd - edit.start)
  let start := edit.start + kept
  let dropped :=
    commonBackward old new edit.oldEnd edit.newEnd (min edit.oldEnd edit.newEnd - start)
  ⟨start, edit.oldEnd - dropped, edit.newEnd - dropped⟩

def isEmpty (change : Change) : Bool :=
  change.start == change.oldEnd && change.start == change.newEnd

/-- The offset in the old text of an offset in the new one. Inserted bytes have none. -/
def toOld (change : Change) (offset : Nat) : Option Nat :=
  if offset < change.start then some offset
  else if offset ≥ change.newEnd then some (offset - change.newEnd + change.oldEnd)
  else none

/-- Whether an old element from `start` on may look different now, when bytes up to `examinedEnd`
were examined for it. -/
def affects (change : Change) (start examinedEnd : Nat) : Bool :=
  change.start < examinedEnd && change.oldEnd > start

end Change

end IncrementalParsing
