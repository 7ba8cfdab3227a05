import IncrementalParsing.Green.Rope

/-!
Sketches of green trees. A sketch gives kinds, lengths and children outright instead of deriving them
from a text, and is turned into a tree whose metadata follows from the children alone: its nodes have
a blank origin. Lengths have to stay within 32 bits, the trivia of a token within the token, and a join
needs ropes that can be balanced.
-/

namespace IncrementalParsing.Green

inductive Sketch where
  | token (kind : KindId) (textLength : Nat) (leading : List TriviaPiece) (lexMode : LexMode)
      (lookahead : Nat)
  | node (kind : KindId) (children : List (Labelled Sketch))
  | rope (kind : KindId) (children : List (Labelled Sketch))
  | join (kind : KindId) (left right : Sketch)

/-- Whether all offsets in consecutive children, the first of which begins at `offset`, and the ends
of their lookaheads are offsets. -/
def offsetsFit (offset : Nat) : List Child → Bool
  | [] => true
  | child :: rest =>
      let next := offset + child.element.textLength
      next + child.element.lookahead < offsetLimit && offsetsFit next rest

/-- A node whose offsets are required to fit. -/
def checkedNode (serial : Nat) (kind : KindId) (origin : Origin) (children : List Child) :
    Except Fault Node :=
  if offsetsFit 0 children then .ok (.make serial kind children origin)
  else .error .arithmeticOverflow

/-- The concatenation of two ropes whose offsets are required to fit. -/
def checkedJoin (kind : KindId) (left right : Element) : Except Fault Node :=
  match left.toNode?, right.toNode? with
  | some leftNode, some rightNode =>
      if offsetsFit 0 [⟨none, left⟩, ⟨none, right⟩] then Rope.join kind leftNode rightNode
      else .error .arithmeticOverflow
  | _, _ => .error .malformedArgument

mutual

def Sketch.make (serial : Nat) : Sketch → Except Fault (Element × Nat)
  | .token kind textLength leading lexMode lookahead =>
      if triviaLength leading < offsetLimit then
        if triviaLength leading ≤ textLength then
          .ok (.token ⟨serial, kind, leading, textLength, lexMode, lookahead⟩, serial + 1)
        else .error .malformedArgument
      else .error .arithmeticOverflow
  | .node kind children => do
      let (made, next) ← makeAll serial children
      let node ← checkedNode next kind .blank made
      return (node.element, next + 1)
  | .rope kind children => do
      let (made, next) ← makeAll serial children
      let node ← checkedNode 0 kind { Origin.blank with ropeHeight := 1 } made
      return (node.element, next)
  | .join kind left right => do
      let (leftElement, middle) ← left.make serial
      let (rightElement, next) ← right.make middle
      let node ← checkedJoin kind leftElement rightElement
      return (node.element, next)

def makeAll (serial : Nat) : List (Labelled Sketch) → Except Fault (List Child × Nat)
  | [] => .ok ([], serial)
  | ⟨field, sketch⟩ :: rest => do
      let (element, middle) ← sketch.make serial
      let (others, next) ← makeAll middle rest
      return (⟨field, element⟩ :: others, next)

end

def Sketch.toRoot (sketch : Sketch) : Except Fault Node := do
  let (element, _) ← sketch.make 0
  match element.toNode? with
  | some root => return root
  | none => .error .malformedArgument

end IncrementalParsing.Green
