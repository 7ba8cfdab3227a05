import IncrementalParsing.Green.Basic
import IncrementalParsing.Tree.Basic

/-!
Elements in their places. Seen from outside, a tree consists of nodes and tokens that stand at
offsets of the text and may fill fields. Ropes are not seen: the children of a rope count as children
of the node around it, and take the field of the nearest rope that has one unless they have a field of
their own.
-/

namespace IncrementalParsing

/-- An element, where it begins in the text, and the field that it fills. -/
structure Placed where
  element : Green.Element
  offset : Nat
  field : Option FieldId

structure TextRange where
  start : Nat
  stop : Nat
deriving DecidableEq, Repr

namespace TextRange

def contains (outer inner : TextRange) : Bool :=
  outer.start ≤ inner.start && inner.stop ≤ outer.stop

def render (range : TextRange) : String := s!"{range.start}..{range.stop}"

def slice (range : TextRange) (text : Array UInt8) : Array UInt8 :=
  text.extract range.start range.stop

end TextRange

namespace Placed

def isToken (placed : Placed) : Bool := placed.element.isToken

def kind (placed : Placed) : KindId := placed.element.kind

def isError (placed : Placed) : Bool := placed.kind == .error

def range (placed : Placed) : TextRange :=
  ⟨placed.offset, placed.offset + placed.element.textLength⟩

def leading (placed : Placed) : List TriviaPiece :=
  match placed.element with
  | .token token => token.leading
  | .node _ _ => []

/-- The range of a token without the trivia in front of it. -/
def tokenRange (placed : Placed) : TextRange :=
  ⟨placed.offset + triviaLength placed.leading, placed.range.stop⟩

end Placed

mutual

/-- What an element looks like from outside: itself, or what its children look like if it is a
rope. -/
def flatten (offset : Nat) (field : Option FieldId) : Green.Element → List Placed
  | .token token => [⟨.token token, offset, field⟩]
  | .node head children =>
      if head.info.ropeHeight = 0 then [⟨.node head children, offset, field⟩]
      else flattenAll offset field children

/-- What consecutive children look like from outside, the first of which begins at `offset`; `field`
is that of the rope around them. -/
def flattenAll (offset : Nat) (field : Option FieldId) : List Green.Child → List Placed
  | [] => []
  | ⟨own, element⟩ :: rest =>
      flatten offset (own.or field) element ++ flattenAll (offset + element.textLength) field rest

end

/-- The nodes and tokens directly in an element, in text order. -/
def Placed.children (placed : Placed) : List Placed :=
  flattenAll placed.offset none placed.element.children

def Tree.placedRoot (tree : Tree) : Placed := ⟨tree.root.element, 0, none⟩

/-! ### Sizes, which bound every walk through a tree -/

/-- The number of nodes, ropes and tokens in several elements. -/
def placedWeight (items : List Placed) : Nat := sumOf (items.map (·.element.weight))

@[simp] theorem placedWeight_cons (first : Placed) (rest : List Placed) :
    placedWeight (first :: rest) = first.element.weight + placedWeight rest := by
  simp [placedWeight]

@[simp] theorem placedWeight_append (left right : List Placed) :
    placedWeight (left ++ right) = placedWeight left + placedWeight right := by
  simp [placedWeight]

mutual

theorem placedWeight_flatten (offset : Nat) (field : Option FieldId) (element : Green.Element) :
    placedWeight (flatten offset field element) ≤ element.weight := by
  cases element with
  | token token => simp [flatten, placedWeight]
  | node head children =>
      unfold flatten
      split
      · simp [placedWeight]
      · have := placedWeight_flattenAll offset field children
        simp only [Green.Element.weight]
        omega

theorem placedWeight_flattenAll (offset : Nat) (field : Option FieldId)
    (children : List Green.Child) :
    placedWeight (flattenAll offset field children) ≤ Green.weightAll children := by
  match children with
  | [] => simp [flattenAll, placedWeight]
  | ⟨own, element⟩ :: rest =>
      have first := placedWeight_flatten offset (own.or field) element
      have others := placedWeight_flattenAll (offset + element.textLength) field rest
      simp only [flattenAll, placedWeight_append, Green.weightAll]
      omega

end

theorem Placed.weight_children (placed : Placed) :
    placedWeight placed.children < placed.element.weight := by
  unfold Placed.children
  have bound := placedWeight_flattenAll placed.offset none placed.element.children
  cases element : placed.element with
  | token token => simp [Green.Element.children, flattenAll, placedWeight, Green.Element.weight]
  | node head children =>
      rw [element] at bound
      simp only [Green.Element.children, Green.Element.weight] at bound ⊢
      omega

end IncrementalParsing
