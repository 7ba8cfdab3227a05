import IncrementalParsing.Tree.Links

/-!
Queries by offset: the tokens at an offset, the smallest element that covers a range, and the deepest
node at an offset. Offsets and ranges outside the element that is asked are answered as well.
-/

namespace IncrementalParsing

inductive TokenAtOffset where
  | none
  | single (token : Handle)
  | between (left right : Handle)

namespace TokenAtOffset

def rightBiased : TokenAtOffset → Option Handle
  | none => .none
  | single token => some token
  | between _ right => some right

def leftBiased : TokenAtOffset → Option Handle
  | none => .none
  | single token => some token
  | between left _ => some left

def toList : TokenAtOffset → List Handle
  | none => []
  | single token => [token]
  | between left right => [left, right]

end TokenAtOffset

namespace Slot

theorem weight_seek (target : Nat) (slot : Slot) : ∀ found here, slot.seek target = some found →
    found.current = .ok here → here.element.weight ≤ slot.weightWithin := by
  fun_induction seek target slot with
  | case1 => exact fun _ _ none => by cases none
  | case2 => exact fun _ _ none => by cases none
  | case3 => exact fun _ _ none => by cases none
  | case4 top outer inside index located back rope ih =>
      intro found here seeks points
      have inner := ih found here seeks points
      have whole := weight_of_isRope rope
      have within := weight_lt_of_mem (List.getElem_mem index.isLt)
      simp only [weightWithin, Frame.enter] at inner ⊢
      simp only [Fin.getElem_fin] at inner whole
      omega
  | case5 top outer inside index located back element =>
      intro found here seeks points
      cases seeks
      have there : back.child? = some top.children[index] := List.getElem?_eq_getElem index.isLt
      rw [current, there] at points
      cases points
      exact weight_lt_of_mem (List.getElem_mem index.isLt)

end Slot

namespace Handle

def tokenContaining? (node : Handle) (offset : Nat) : Except Fault (Option Handle) :=
  match _found : Slot.atOffset node.here.element.children node.here.offset offset with
  | none => .ok none
  | some slot =>
      match _points : node.elementAt slot with
      | .error fault => .error fault
      | .ok child => if child.isToken then .ok (some child) else child.tokenContaining? offset
termination_by node.here.element.weight
decreasing_by
  obtain ⟨here, current, rfl⟩ := elementAt_ok.mp _points
  exact Nat.lt_of_le_of_lt (Slot.weight_seek _ _ slot here _found current)
    node.here.element.weightAll_children

/-- The tokens of a node that touch an offset: two at a boundary inside it, one elsewhere inside, and none
outside. -/
def tokenAtOffset (node : Handle) (offset : Nat) : Except Fault TokenAtOffset := do
  let range := node.here.range
  if offset < range.start ∨ offset ≥ range.stop then return .none
  else
    match ← node.tokenContaining? offset with
    | none => return .none
    | some right =>
        if right.here.offset = offset ∧ offset > range.start then
          match ← right.prevToken? with
          | some left => return .between left right
          | none => return .single right
        else return .single right

/-- The first node from `node` upward that covers a range, but none above `top`. -/
def enclosing (same : Handle → Handle → Bool) (top : Handle) (range : TextRange) (node : Handle) : Handle :=
  if same node top || node.here.range.contains range then node
  else
    match _up : node.parent? with
    | none => top
    | some parent => enclosing same top range parent
termination_by node.depth
decreasing_by exact Nat.lt_of_succ_le (Nat.le_of_eq (depth_parent _up))

/-- The smallest element of a node that covers a range, or the node itself. Whether the way up from a token
has come to the node is decided by `same`. -/
def coveringElement (same : Handle → Handle → Bool) (node : Handle) (range : TextRange) :
    Except Fault Handle :=
  if range.stop < range.start then .error .malformedArgument
  else do
    match (← node.tokenAtOffset range.start).rightBiased with
    | none => return node
    | some token =>
        if token.here.range.contains range then return token
        else return (token.parent?.map (enclosing same node range)).getD node

def nodeAtOffset? (node : Handle) (offset : Nat) : Except Fault (Option Handle) := do
  return (← node.tokenAtOffset offset).rightBiased.bind parent?

end Handle

end IncrementalParsing
