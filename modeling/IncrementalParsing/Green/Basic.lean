import IncrementalParsing.Kind

/-!
Position independent trees. A green element knows its length but not where it stands, so a subtree
that survives an edit can be moved and shared between versions of a tree. A token carries its kind,
the trivia in front of it and how it was lexed; a node carries its children and metadata that is
computed from them when it is made.

Sharing is visible: every token and every node that is not a rope has a serial number, handed out
when it is made. Two elements are one and the same when their serials agree; `Element.alike` compares
the contents and does not look at serials.

Lengths and extents are numbers without a width. Where their sums have to be offsets, that is a condition
of its own.
-/

namespace IncrementalParsing

inductive TriviaKind where
  | whitespace
  | newline
  | lineComment
  | blockComment
deriving DecidableEq, Repr

def TriviaKind.isComment : TriviaKind → Bool
  | .lineComment | .blockComment => true
  | .whitespace | .newline => false

structure TriviaPiece where
  kind : TriviaKind
  length : Nat
deriving DecidableEq, Repr

/-- The number of bytes that pieces of trivia cover together. -/
def triviaLength (pieces : List TriviaPiece) : Nat := sumOf (pieces.map (·.length))

namespace Green

/-- A leaf. Its length includes the trivia in front of it. -/
structure Token where
  serial : Nat
  kind : KindId
  leading : List TriviaPiece
  textLength : Nat
  lexMode : LexMode
  /-- How many bytes past its end were examined to produce it. -/
  lookahead : Nat
deriving DecidableEq, Repr

def Token.trimmedLength (token : Token) : Nat := token.textLength - triviaLength token.leading

/-- What decides whether a node can be kept after an edit. All lengths are relative. -/
structure Meta where
  /-- The state in which the node was begun. -/
  preState : StateId
  firstLexMode : LexMode
  /-- The mode in which the token after the node was lexed. -/
  nextLexMode : LexMode
  /-- How many bytes past the end were examined for the node and the decision that completed it. -/
  lookahead : Nat
  hasError : Bool
  /-- Completed while an error was pending before it. -/
  fragile : Bool
  /-- Zero for an ordinary node, otherwise the height of a rope of repetitions. -/
  ropeHeight : Nat
deriving DecidableEq, Repr

structure Head where
  serial : Nat
  kind : KindId
  textLength : Nat
  info : Meta
deriving DecidableEq, Repr

structure Labelled (α : Type) where
  field : Option FieldId
  element : α

/-- A token, or a node with its children. -/
inductive Element where
  | token (token : Token)
  | node (head : Head) (children : List (Labelled Element))

abbrev Child := Labelled Element

structure Node where
  head : Head
  children : List Child

namespace Node

def element (node : Node) : Element := .node node.head node.children

def kind (node : Node) : KindId := node.head.kind

def textLength (node : Node) : Nat := node.head.textLength

def info (node : Node) : Meta := node.head.info

/-- Ropes hold repetitions and are not seen from outside: their children count as children of the
node that the rope stands in. -/
def isRope (node : Node) : Bool := node.head.info.ropeHeight != 0

end Node

namespace Element

def kind : Element → KindId
  | .token leaf => leaf.kind
  | .node head _ => head.kind

def textLength : Element → Nat
  | .token leaf => leaf.textLength
  | .node head _ => head.textLength

def lookahead : Element → Nat
  | .token leaf => leaf.lookahead
  | .node head _ => head.info.lookahead

def firstLexMode : Element → LexMode
  | .token leaf => leaf.lexMode
  | .node head _ => head.info.firstLexMode

def hasError : Element → Bool
  | .token leaf => leaf.kind == .error
  | .node head _ => head.info.hasError

def isFragile : Element → Bool
  | .token _ => false
  | .node head _ => head.info.fragile

/-- Whether the element is a rope, which an outside view replaces by its children. -/
def isRope : Element → Bool
  | .token _ => false
  | .node head _ => head.info.ropeHeight != 0

def serial : Element → Nat
  | .token leaf => leaf.serial
  | .node head _ => head.serial

def isToken : Element → Bool
  | .token _ => true
  | .node _ _ => false

def children : Element → List Child
  | .token _ => []
  | .node _ children => children

def toNode? : Element → Option Node
  | .token _ => none
  | .node head children => some ⟨head, children⟩

def isSame (left right : Element) : Bool :=
  left.isToken == right.isToken && left.serial == right.serial

end Element

mutual

def Element.tokens : Element → List Token
  | .token token => [token]
  | .node _ children => tokensOf children

def tokensOf : List Child → List Token
  | [] => []
  | ⟨_, element⟩ :: rest => element.tokens ++ tokensOf rest

end

mutual

def Element.firstToken? : Element → Option Token
  | .token token => some token
  | .node _ children => firstTokenOf? children

def firstTokenOf? : List Child → Option Token
  | [] => none
  | ⟨_, element⟩ :: rest =>
      match element.firstToken? with
      | some token => some token
      | none => firstTokenOf? rest

end

mutual

/-- Equality of contents, whatever the serials. -/
def Element.alike : Element → Element → Bool
  | .token left, .token right => { left with serial := 0 } == { right with serial := 0 }
  | .node left leftChildren, .node right rightChildren =>
      { left with serial := 0 } == { right with serial := 0 } && alikeAll leftChildren rightChildren
  | _, _ => false

def alikeAll : List Child → List Child → Bool
  | [], [] => true
  | ⟨field, element⟩ :: rest, ⟨otherField, other⟩ :: others =>
      field == otherField && element.alike other && alikeAll rest others
  | _, _ => false

end

mutual

/-- The number of nodes, ropes and tokens in an element. -/
def Element.weight : Element → Nat
  | .token _ => 1
  | .node _ children => weightAll children + 1

/-- The number of nodes, ropes and tokens in consecutive children. -/
def weightAll : List Child → Nat
  | [] => 0
  | ⟨_, element⟩ :: rest => element.weight + weightAll rest

end

theorem Element.weight_pos (element : Element) : 0 < element.weight := by
  cases element <;> simp [Element.weight]

theorem Element.weightAll_children (element : Element) : weightAll element.children < element.weight := by
  cases element <;> simp [Element.weight, Element.children, weightAll]

/-- What a node is made from, besides its kind and its children. -/
structure Origin where
  preState : StateId
  /-- Stands for the mode of the first token where there is none. -/
  lexMode : LexMode
  nextLexMode : LexMode
  /-- Where the lookahead that completed the node ends, counted from the start of the node. -/
  decisionEnd : Nat
  fragile : Bool
  ropeHeight : Nat
deriving DecidableEq, Repr

def Origin.blank : Origin := ⟨⟨0⟩, ⟨0⟩, ⟨0⟩, 0, false, 0⟩

def lengthOf (children : List Child) : Nat :=
  sumOf (children.map (fun child => child.element.textLength))

/-- The furthest byte that was examined for children of which the first begins at `offset`, or
`bound` if that is further. -/
def examinedEnd (offset bound : Nat) : List Child → Nat
  | [] => bound
  | child :: rest =>
      let next := offset + child.element.textLength
      examinedEnd next (max bound (next + child.element.lookahead)) rest

def firstModeOf? (children : List Child) : Option LexMode :=
  (children.find? (fun child => child.element.textLength > 0)).map
    (fun child => child.element.firstLexMode)

/-- Makes a node; its metadata follows from the children and the origin. -/
def Node.make (serial : Nat) (kind : KindId) (children : List Child) (origin : Origin) : Node :=
  let textLength := lengthOf children
  { head :=
      { serial
        kind
        textLength
        info :=
          { preState := origin.preState
            firstLexMode := (firstModeOf? children).getD origin.lexMode
            nextLexMode := origin.nextLexMode
            lookahead := examinedEnd 0 origin.decisionEnd children - textLength
            hasError := kind == .error || children.any (fun child => child.element.hasError)
            fragile := origin.fragile || children.any (fun child => child.element.isFragile)
            ropeHeight := origin.ropeHeight } }
    children }

end Green

end IncrementalParsing
