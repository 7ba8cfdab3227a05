import IncrementalParsing.Tree.Handle

/-!
Walks in preorder. A walk enters a node, goes through its children and leaves it; tokens are met on
the way. Of each open node it holds the slot of the child that comes next. The subtree of the innermost
open node can be skipped, and the walk can be started over.
-/

namespace IncrementalParsing

inductive WalkEvent where
  | enter (node : Handle)
  | leave (node : Handle)
  | token (token : Handle)

structure OpenNode where
  node : Handle
  rest : Option Slot

structure Walk where
  start : Handle
  /-- The open nodes, the innermost first. -/
  opened : List OpenNode
  fresh : Bool

namespace Walk

def of (start : Handle) : Walk := ⟨start, [], true⟩

def opening (node : Handle) : OpenNode := ⟨node, Slot.first node.here.element.children node.here.offset⟩

def next (walk : Walk) : Except Fault (Option WalkEvent × Walk) :=
  match walk.opened with
  | [] =>
      if walk.fresh then
        .ok (some (.enter walk.start), { walk with opened := [opening walk.start], fresh := false })
      else .ok (none, walk)
  | ⟨node, none⟩ :: outer => .ok (some (.leave node), { walk with opened := outer })
  | ⟨node, some slot⟩ :: outer =>
      match node.elementAt slot with
      | .error fault => .error fault
      | .ok child =>
          let passed := ⟨node, slot.advance⟩ :: outer
          if child.isToken then .ok (some (.token child), { walk with opened := passed })
          else .ok (some (.enter child), { walk with opened := opening child :: passed })

/-- Leaves the innermost open node at once, without an event. Some node has to be open. -/
def skipSubtree (walk : Walk) : Except Fault Walk :=
  match walk.opened with
  | [] => .error .malformedArgument
  | _ :: outer => .ok { walk with opened := outer }

def restart (walk : Walk) : Walk := { walk with opened := [], fresh := true }

/-! ### Walks come to an end -/

def remaining (walk : Walk) : Nat :=
  sumOf (walk.opened.map fun here => 2 * Slot.remainingFrom here.rest + 1)
    + if walk.fresh then 2 * walk.start.here.element.weight else 0

theorem remaining_opening (node : Handle) :
    2 * Slot.remainingFrom (opening node).rest + 1 < 2 * node.here.element.weight := by
  have ahead := Slot.remainingFrom_first node.here.element.children node.here.offset
  have within := node.here.element.weightAll_children
  change 2 * Slot.remainingFrom (Slot.first node.here.element.children node.here.offset) + 1 < _
  omega

theorem remaining_next {walk after : Walk} {event : WalkEvent} (moves : walk.next = .ok (some event, after)) :
    after.remaining < walk.remaining := by
  obtain ⟨start, opened, fresh⟩ := walk
  cases opened with
  | nil =>
      cases fresh with
      | false => cases moves
      | true =>
          cases moves
          have below := remaining_opening start
          simp only [remaining, List.map_cons, List.map_nil, sumOf_cons, sumOf_nil, Bool.false_eq_true,
            if_false, if_true]
          omega
  | cons top outer =>
      obtain ⟨node, rest⟩ := top
      cases rest with
      | none =>
          cases moves
          simp only [remaining, List.map_cons, sumOf_cons]
          omega
      | some slot =>
          simp only [next] at moves
          cases found : node.elementAt slot with
          | error fault =>
              rw [found] at moves
              cases moves
          | ok child =>
              obtain ⟨here, current, rfl⟩ := Handle.elementAt_ok.mp found
              have passed := Slot.weight_add_remainingFrom current
              have below := remaining_opening (node.seated slot here)
              have positive := here.element.weight_pos
              simp only [found] at moves
              split at moves
              all_goals
                cases moves
                simp only [remaining, List.map_cons, sumOf_cons, Slot.remainingFrom_some]
                simp only [Handle.seated] at below ⊢
                omega

def nextNode (walk : Walk) : Except Fault (Option WalkEvent × Walk) :=
  match _moves : walk.next with
  | .error fault => .error fault
  | .ok (some (.token _), after) => after.nextNode
  | .ok (event, after) => .ok (event, after)
termination_by walk.remaining
decreasing_by exact remaining_next _moves

def nextToken? (walk : Walk) : Except Fault (Option Handle) :=
  match _moves : walk.next with
  | .error fault => .error fault
  | .ok (none, _) => .ok none
  | .ok (some (.token token), _) => .ok (some token)
  | .ok (some (.enter _), after) => after.nextToken?
  | .ok (some (.leave _), after) => after.nextToken?
termination_by walk.remaining
decreasing_by all_goals exact remaining_next _moves

end Walk

end IncrementalParsing
