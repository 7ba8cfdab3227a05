import IncrementalParsing.Tree.Location
import IncrementalParsing.Tree.Slot

/-!
Handles. A handle is an element in its place with its parent and its slot among the children of the
parent, and so on up to the root. Children are found slot after slot; a sibling is found by moving the
slot.
-/

namespace IncrementalParsing

/-- A step up: the parent, and the slot that leads from it back to the element. -/
structure Station where
  parent : Placed
  slot : Slot

structure Handle where
  here : Placed
  path : List Station

def Station.crumb (station : Station) : Crumb :=
  ⟨station.parent, station.slot.before.reverse, station.slot.after⟩

namespace Handle

def location (handle : Handle) : Location := ⟨handle.here, handle.path.map (·.crumb)⟩

def root (tree : Tree) : Handle := ⟨tree.placedRoot, []⟩

def isToken (handle : Handle) : Bool := handle.here.isToken

def depth (handle : Handle) : Nat := handle.path.length

def isSame (left right : Handle) : Bool :=
  left.here.offset == right.here.offset && left.here.element.isSame right.here.element

def parent? (handle : Handle) : Option Handle :=
  match handle.path with
  | [] => none
  | station :: outer => some ⟨station.parent, outer⟩

def seated (parent : Handle) (slot : Slot) (here : Placed) : Handle :=
  ⟨here, ⟨parent.here, slot⟩ :: parent.path⟩

def elementAt (parent : Handle) (slot : Slot) : Except Fault Handle := do
  let here ← slot.current
  return parent.seated slot here

theorem elementAt_ok {parent handle : Handle} {slot : Slot} : parent.elementAt slot = .ok handle ↔
    ∃ here, slot.current = .ok here ∧ handle = parent.seated slot here := by
  unfold elementAt
  cases slot.current with
  | error fault => simp [Bind.bind, Except.bind]
  | ok here => simp [Bind.bind, Except.bind, Pure.pure, Except.pure, eq_comm]

def elementAt? (parent : Handle) : Option Slot → Except Fault (Option Handle)
  | none => .ok none
  | some slot => some <$> parent.elementAt slot

/-! ### Children -/

def childrenFrom (parent : Handle) (slot : Slot) : Except Fault (List Handle) :=
  match _points : parent.elementAt slot with
  | .error fault => .error fault
  | .ok handle =>
      match _advances : slot.advance with
      | none => .ok [handle]
      | some next => (handle :: ·) <$> parent.childrenFrom next
termination_by slot.remaining
decreasing_by
  obtain ⟨here, points, _⟩ := elementAt_ok.mp _points
  exact Slot.remaining_advance points _advances

def childrenWithTokens (handle : Handle) : Except Fault (List Handle) :=
  match Slot.first handle.here.element.children handle.here.offset with
  | none => .ok []
  | some slot => handle.childrenFrom slot

def firstChildOrToken? (handle : Handle) : Except Fault (Option Handle) :=
  handle.elementAt? (Slot.first handle.here.element.children handle.here.offset)

def lastChildOrToken? (handle : Handle) : Except Fault (Option Handle) := do
  handle.elementAt? (← Slot.last handle.here.element.children handle.here.offset)

/-! ### Siblings -/

def nextSiblingOrToken? (handle : Handle) : Except Fault (Option Handle) :=
  match handle.path with
  | [] => .ok none
  | ⟨parent, slot⟩ :: outer => elementAt? ⟨parent, outer⟩ slot.advance

def prevSiblingOrToken? (handle : Handle) : Except Fault (Option Handle) :=
  match handle.path with
  | [] => .ok none
  | ⟨parent, slot⟩ :: outer => do elementAt? ⟨parent, outer⟩ (← slot.retreat)

end Handle

end IncrementalParsing
