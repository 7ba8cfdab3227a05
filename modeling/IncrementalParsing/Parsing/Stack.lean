import IncrementalParsing.Green.Rope
import IncrementalParsing.Lalr.Table

/-!
The parse stack. An entry is an element with the state reached by pushing it. Error nodes lie on the
stack as extras: they repeat the state below them and take no part in the automaton. A reduction pops
the entries of a right-hand side, with the extras between them, and builds a node; extras above the
last entry are put back on top of it.

The top of a stack is its first entry.
-/

namespace IncrementalParsing

structure StackEntry where
  state : StateId
  element : Green.Element
  extra : Bool
  offset : Nat

def StackEntry.stop (entry : StackEntry) : Nat := entry.offset + entry.element.textLength

abbrev ParseStack := List StackEntry

namespace ParseStack

def state : ParseStack → StateId
  | [] => .start
  | entry :: _ => entry.state

def stop : ParseStack → Nat
  | [] => 0
  | entry :: _ => entry.stop

def push (stack : ParseStack) (state : StateId) (element : Green.Element) : ParseStack :=
  ⟨state, element, false, stack.stop⟩ :: stack

def pushExtra (stack : ParseStack) (element : Green.Element) : ParseStack :=
  ⟨stack.state, element, true, stack.stop⟩ :: stack

/-- The states of the entries that are no extras, from the top down, with the start state at the
bottom. -/
def states : ParseStack → List StateId
  | [] => [.start]
  | entry :: below => if entry.extra then states below else entry.state :: states below

/-- Takes entries from the top until `count` of them are no extras. Answers the taken ones in text
order, `taken` being those that follow, and what is left. -/
def popEntries (count : Nat) (taken : List StackEntry) :
    ParseStack → Except Fault (List StackEntry × ParseStack)
  | [] => if count = 0 then .ok (taken, []) else .error .arithmeticOverflow
  | entry :: below =>
      match count with
      | 0 => .ok (taken, entry :: below)
      | missing + 1 =>
          popEntries (if entry.extra then missing + 1 else missing) (entry :: taken) below

end ParseStack

/-- The children that an element contributes to the node around it: itself, or its children if it is
hidden. Such children take the field of the element unless they have one of their own. -/
def spliced (table : Table) (field : Option FieldId) (element : Green.Element) :
    List Green.Child :=
  match element with
  | .token _ => [⟨field, element⟩]
  | .node head children =>
      if head.info.ropeHeight = 0 && table.isHidden head.kind then
        children.map (fun child => ⟨child.field.or field, child.element⟩)
      else [⟨field, element⟩]

/-- The children that an element contributes to an error node, which has no error node among its
children. -/
def splicedIntoError (table : Table) (element : Green.Element) : List Green.Child :=
  if !element.isToken && element.kind == .error then
    element.children.map (fun child => ⟨none, child.element⟩)
  else spliced table none element

/-- The children of a production from the entries of its right-hand side; extras take no field. -/
def productionChildren (table : Table) :
    List (Option FieldId) → List StackEntry → List Green.Child
  | _, [] => []
  | fields, entry :: rest =>
      if entry.extra then
        spliced table none entry.element ++ productionChildren table fields rest
      else
        spliced table ((fields.head?).getD none) entry.element
          ++ productionChildren table (fields.drop 1) rest

/-- The halves of a join, when the entries of a right-hand side are two ropes and nothing else. -/
def ropePair? : List StackEntry → Option (Green.Node × Green.Node)
  | [left, right] =>
      if left.element.isRope && right.element.isRope then
        match left.element.toNode?, right.element.toNode? with
        | some leftNode, some rightNode => some (leftNode, rightNode)
        | _, _ => none
      else none
  | _ => none

def buildNode (table : Table) (serial : Nat) (production : ProductionInfo)
    (entries : List StackEntry) (origin : Green.Origin) : Except Fault Green.Node :=
  let children := fun (_ : Unit) => productionChildren table production.fields entries
  match production.kind with
  | .plain => .ok (.make serial production.lhs (children ()) origin)
  | .repeatBase => .ok (Green.Rope.base production.lhs (children ()) origin)
  | .repeatJoin =>
      match if origin.fragile then none else ropePair? entries with
      | some (left, right) => Green.Rope.join production.lhs left right
      | none => .ok (Green.Rope.base production.lhs (children ()) origin)

namespace ParseStack

/-- Replaces the entries of a right-hand side by the node of the production. `examinedEnd` is how far
was looked to decide on the reduction, and `mode` the mode in which that lookahead was lexed. A node
with extras above it is fragile. -/
def reduce (stack : ParseStack) (table : Table) (serial : Nat) (production : ProductionInfo)
    (examinedEnd : Nat) (mode : LexMode) : Except Fault ParseStack := do
  let trailing := stack.takeWhile (·.extra)
  let (entries, below) ← popEntries production.length [] (stack.dropWhile (·.extra))
  let preState := state below
  let start := stop below
  match table.goto preState production.lhs with
  | none => .error .malformedArgument
  | some next =>
      let node ← buildNode table serial production entries
        { preState
          lexMode := table.lexMode preState
          nextLexMode := mode
          decisionEnd := examinedEnd - start
          fragile := !trailing.isEmpty
          ropeHeight := 0 }
      let reduced : StackEntry := ⟨next, node.element, false, start⟩
      return trailing.map (fun entry => { entry with state := next }) ++ reduced :: below

def rootOrigin (table : Table) : Green.Origin :=
  let mode := table.lexMode .start
  { Green.Origin.blank with preState := .start, lexMode := mode, nextLexMode := mode }

def endChild (token : Option Green.Token) : List Green.Child :=
  token.toList.map (fun token => ⟨none, .token token⟩)

/-- The root of an accepted text: the children of the start node between the extras that are left on
the stack. -/
def toRoot (stack : ParseStack) (table : Table) (serial : Nat) (last : Option Green.Token) :
    Green.Node :=
  let (kind, children) := stack.foldr
    (fun entry (kind, children) =>
      match entry.extra, entry.element with
      | false, .node head inner => (head.kind, children ++ inner)
      | _, element => (kind, children ++ [⟨none, element⟩]))
    (KindId.error, ([] : List Green.Child))
  .make serial kind (children ++ endChild last) (rootOrigin table)

def toErrorRoot (stack : ParseStack) (table : Table) (serial : Nat) (last : Option Green.Token) :
    Green.Node :=
  let children := stack.reverse.flatMap (fun entry => splicedIntoError table entry.element)
  .make serial .error (children ++ endChild last) (rootOrigin table)

def errorNode (table : Table) (serial : Nat) (elements : List Green.Element) (preState : StateId)
    (decisionEnd : Nat) : Green.Node :=
  let mode := table.lexMode preState
  .make serial .error (elements.flatMap (splicedIntoError table))
    { preState, lexMode := mode, nextLexMode := mode, decisionEnd, fragile := false,
      ropeHeight := 0 }

end ParseStack

end IncrementalParsing
