import IncrementalParsing.Tree.Placed

/-!
Locations in a tree. A location is an element together with the way up to the root: for each node on
the way, its children before and after the one through which the way leads. All moves to parents,
children, siblings and neighbouring tokens start from a location and answer locations.
-/

namespace IncrementalParsing

/-- A step up: the parent, and its other children, the ones before in reverse order. -/
structure Crumb where
  parent : Placed
  before : List Placed
  after : List Placed

structure Location where
  here : Placed
  path : List Crumb

namespace Location

def root (tree : Tree) : Location := ⟨tree.placedRoot, []⟩

def isToken (location : Location) : Bool := location.here.isToken

def isNode (location : Location) : Bool := !location.here.isToken

def depth (location : Location) : Nat := location.path.length

def parent? (location : Location) : Option Location :=
  match location.path with
  | [] => none
  | crumb :: outer => some ⟨crumb.parent, outer⟩

/-- The nodes above a place, from the nearest one to the root. -/
def above : List Crumb → List Location
  | [] => []
  | crumb :: outer => ⟨crumb.parent, outer⟩ :: above outer

def ancestors (location : Location) : List Location := location :: above location.path

/-! ### Children -/

def spread (parent : Placed) (path : List Crumb) (before : List Placed) :
    List Placed → List Location
  | [] => []
  | first :: after =>
      ⟨first, ⟨parent, before, after⟩ :: path⟩ :: spread parent path (first :: before) after

def childrenWithTokens (location : Location) : List Location :=
  spread location.here location.path [] location.here.children

def children (location : Location) : List Location :=
  location.childrenWithTokens.filter isNode

def firstChildOrToken? (location : Location) : Option Location :=
  match location.here.children with
  | [] => none
  | first :: after => some ⟨first, ⟨location.here, [], after⟩ :: location.path⟩

def lastChildOrToken? (location : Location) : Option Location :=
  match location.here.children.reverse with
  | [] => none
  | last :: before => some ⟨last, ⟨location.here, before, []⟩ :: location.path⟩

def firstChild? (location : Location) : Option Location :=
  location.childrenWithTokens.find? isNode

def lastChild? (location : Location) : Option Location :=
  location.childrenWithTokens.reverse.find? isNode

def childrenByField (kinds : KindTable) (name : String) (location : Location) : List Location :=
  match kinds.fieldId? name with
  | none => []
  | some field => location.childrenWithTokens.filter (fun child => child.here.field == some field)

def childByField? (kinds : KindTable) (name : String) (location : Location) : Option Location :=
  (location.childrenByField kinds name).head?

/-! ### Siblings -/

def nextSiblingOrToken? (location : Location) : Option Location :=
  match location.path with
  | [] => none
  | ⟨parent, before, after⟩ :: outer =>
      match after with
      | [] => none
      | next :: rest => some ⟨next, ⟨parent, location.here :: before, rest⟩ :: outer⟩

def prevSiblingOrToken? (location : Location) : Option Location :=
  match location.path with
  | [] => none
  | ⟨parent, before, after⟩ :: outer =>
      match before with
      | [] => none
      | previous :: rest => some ⟨previous, ⟨parent, rest, location.here :: after⟩ :: outer⟩

def nodeAfter? (parent : Placed) (path : List Crumb) (before : List Placed) :
    List Placed → Option Location
  | [] => none
  | next :: after =>
      if next.isToken then nodeAfter? parent path (next :: before) after
      else some ⟨next, ⟨parent, before, after⟩ :: path⟩

/-- The last node among the elements before a place, which are given in reverse order. -/
def nodeBefore? (parent : Placed) (path : List Crumb) (after : List Placed) :
    List Placed → Option Location
  | [] => none
  | previous :: before =>
      if previous.isToken then nodeBefore? parent path (previous :: after) before
      else some ⟨previous, ⟨parent, before, after⟩ :: path⟩

def nextSibling? (location : Location) : Option Location :=
  match location.path with
  | [] => none
  | ⟨parent, before, after⟩ :: outer =>
      nodeAfter? parent outer (location.here :: before) after

def prevSibling? (location : Location) : Option Location :=
  match location.path with
  | [] => none
  | ⟨parent, before, after⟩ :: outer =>
      nodeBefore? parent outer (location.here :: after) before

/-! ### Tokens -/

mutual

def firstTokenAt? (here : Placed) (path : List Crumb) : Option Location :=
  if here.isToken then some ⟨here, path⟩ else firstTokenAmong? here path [] here.children
termination_by 2 * here.element.weight
decreasing_by
  have := here.weight_children
  omega

def firstTokenAmong? (parent : Placed) (path : List Crumb) (before : List Placed) :
    List Placed → Option Location
  | [] => none
  | first :: after =>
      match firstTokenAt? first (⟨parent, before, after⟩ :: path) with
      | some token => some token
      | none => firstTokenAmong? parent path (first :: before) after
termination_by items => 2 * placedWeight items + 1
decreasing_by
  · simp only [placedWeight_cons]
    omega
  · have := first.element.weight_pos
    simp only [placedWeight_cons]
    omega

end

mutual

def lastTokenAt? (here : Placed) (path : List Crumb) : Option Location :=
  if here.isToken then some ⟨here, path⟩ else lastTokenAmong? here path [] here.children.reverse
termination_by 2 * here.element.weight
decreasing_by
  have := here.weight_children
  have same : placedWeight here.children.reverse = placedWeight here.children := by
    simp [placedWeight]
  omega

/-- The last token at or below consecutive children of `parent`, which are given in reverse order. -/
def lastTokenAmong? (parent : Placed) (path : List Crumb) (after : List Placed) :
    List Placed → Option Location
  | [] => none
  | last :: before =>
      match lastTokenAt? last (⟨parent, before, after⟩ :: path) with
      | some token => some token
      | none => lastTokenAmong? parent path (last :: after) before
termination_by items => 2 * placedWeight items + 1
decreasing_by
  · simp only [placedWeight_cons]
    omega
  · have := last.element.weight_pos
    simp only [placedWeight_cons]
    omega

end

def firstToken? (location : Location) : Option Location :=
  firstTokenAt? location.here location.path

def lastToken? (location : Location) : Option Location :=
  lastTokenAt? location.here location.path

def tokenBefore? (here : Placed) : List Crumb → Option Location
  | [] => none
  | crumb :: outer =>
      match lastTokenAmong? crumb.parent outer (here :: crumb.after) crumb.before with
      | some token => some token
      | none => tokenBefore? crumb.parent outer

def prevToken? (location : Location) : Option Location :=
  tokenBefore? location.here location.path

/-! ### Descendants -/

mutual

def preorderAt (here : Placed) (path : List Crumb) : List Location :=
  ⟨here, path⟩ :: preorderAmong here path [] here.children
termination_by 2 * here.element.weight
decreasing_by
  have := here.weight_children
  omega

/-- Consecutive children of `parent` and everything below them, in preorder. -/
def preorderAmong (parent : Placed) (path : List Crumb) (before : List Placed) :
    List Placed → List Location
  | [] => []
  | first :: after =>
      preorderAt first (⟨parent, before, after⟩ :: path)
        ++ preorderAmong parent path (first :: before) after
termination_by items => 2 * placedWeight items + 1
decreasing_by
  · simp only [placedWeight_cons]
    omega
  · have := first.element.weight_pos
    simp only [placedWeight_cons]
    omega

end

def descendantsWithTokens (location : Location) : List Location :=
  preorderAt location.here location.path

def descendants (location : Location) : List Location :=
  location.descendantsWithTokens.filter isNode

def descendantsOfKind (kind : KindId) (location : Location) : List Location :=
  location.descendants.filter (fun node => node.here.kind == kind)

/-- The range without the trivia in front and without the end of the input. -/
def trimmedRange (location : Location) : TextRange :=
  let range := location.here.range
  let isEnd := fun (token : Location) => token.here.kind == .endOfInput
  let first := location.firstToken?.filter (!isEnd ·)
  let last := location.lastToken?.bind fun token =>
    if isEnd token then
      token.prevToken?.filter (fun previous => range.start ≤ previous.here.offset)
    else some token
  match first, last with
  | some first, some last => ⟨first.here.tokenRange.start, last.here.range.stop⟩
  | _, _ => ⟨range.start, range.start⟩

end Location

end IncrementalParsing
