import IncrementalParsing.Green.Basic

/-!
Ropes. The elements of a repetition are kept in a balanced binary tree, so that a long list stays
shallow and is reused in large pieces. A rope is either a base, which holds the children of one
repetition, or a join, which holds exactly two ropes; the heights of the halves of a join differ by
at most one. Joining two ropes of any heights walks down the spine of the higher one and restores the
balance on the way back by rotations, as in a height balanced search tree.
-/

namespace IncrementalParsing.Green

def Rope.base (kind : KindId) (children : List Child) (origin : Origin) : Node :=
  Node.make 0 kind children { origin with ropeHeight := 1 }

def Node.height (node : Node) : Nat := node.info.ropeHeight

def Node.halves? (node : Node) : Option (Node × Node) :=
  match node.children with
  | [⟨_, .node leftHead leftChildren⟩, ⟨_, .node rightHead rightChildren⟩] =>
      some (⟨leftHead, leftChildren⟩, ⟨rightHead, rightChildren⟩)
  | _ => none

def Node.halves (node : Node) : Except Fault (Node × Node) :=
  match node.halves? with
  | some halves => .ok halves
  | none => .error .malformedArgument

/-- Joins two ropes whose heights are close, without looking at them. -/
def Rope.pair (kind : KindId) (left right : Node) : Node :=
  Node.make 0 kind [⟨none, left.element⟩, ⟨none, right.element⟩]
    { preState := left.info.preState
      lexMode := left.info.firstLexMode
      nextLexMode := right.info.nextLexMode
      decisionEnd := 0
      fragile := false
      ropeHeight := max left.height right.height + 1 }

def Rope.rotateLeft (kind : KindId) (node : Node) : Except Fault Node := do
  let (first, rest) ← node.halves
  let (second, third) ← rest.halves
  return Rope.pair kind (Rope.pair kind first second) third

def Rope.rotateRight (kind : KindId) (node : Node) : Except Fault Node := do
  let (rest, third) ← node.halves
  let (first, second) ← rest.halves
  return Rope.pair kind first (Rope.pair kind second third)

/-- Children of a node are smaller than the node, which bounds every walk down a spine. -/
theorem Node.sizeOf_halves {node left right : Node} (split : node.halves? = some (left, right)) :
    sizeOf left.children < sizeOf node.children ∧ sizeOf right.children < sizeOf node.children := by
  unfold Node.halves? at split
  split at split
  · rename_i leftField leftHead leftChildren rightField rightHead rightChildren shape
    cases split
    rw [shape]
    simp
    omega
  · cases split

/-- Appends a lower rope to the right end of a higher one. -/
def Rope.joinRight (kind : KindId) (left right : Node) : Except Fault Node :=
  match _split : left.halves? with
  | none => .error .malformedArgument
  | some (outer, inner) =>
      if inner.height ≤ right.height + 1 then
        let joined := Rope.pair kind inner right
        if joined.height ≤ outer.height + 1 then
          .ok (Rope.pair kind outer joined)
        else do
          let turned ← Rope.rotateRight kind joined
          Rope.rotateLeft kind (Rope.pair kind outer turned)
      else do
        let joined ← Rope.joinRight kind inner right
        let node := Rope.pair kind outer joined
        if joined.height ≤ outer.height + 1 then return node else Rope.rotateLeft kind node
termination_by sizeOf left.children
decreasing_by exact (Node.sizeOf_halves (by assumption)).2

/-- Prepends a lower rope to the left end of a higher one. -/
def Rope.joinLeft (kind : KindId) (left right : Node) : Except Fault Node :=
  match _split : right.halves? with
  | none => .error .malformedArgument
  | some (inner, outer) =>
      if inner.height ≤ left.height + 1 then
        let joined := Rope.pair kind left inner
        if joined.height ≤ outer.height + 1 then
          .ok (Rope.pair kind joined outer)
        else do
          let turned ← Rope.rotateLeft kind joined
          Rope.rotateRight kind (Rope.pair kind turned outer)
      else do
        let joined ← Rope.joinLeft kind left inner
        let node := Rope.pair kind joined outer
        if joined.height ≤ outer.height + 1 then return node else Rope.rotateRight kind node
termination_by sizeOf right.children
decreasing_by exact (Node.sizeOf_halves (by assumption)).1

def Rope.join (kind : KindId) (left right : Node) : Except Fault Node :=
  if left.height > right.height + 1 then Rope.joinRight kind left right
  else if right.height > left.height + 1 then Rope.joinLeft kind left right
  else .ok (Rope.pair kind left right)

end IncrementalParsing.Green
