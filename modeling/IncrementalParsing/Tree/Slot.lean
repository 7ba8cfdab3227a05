import IncrementalParsing.Green.Search
import IncrementalParsing.Tree.Placed

/-!
Slots. The place of an element among the children of a node, ropes looked through, is a stack of frames:
the node itself and the ropes on the way down, each with the number of the child that the way leads
through. A slot moves forward and backward by leaving the ropes that are used up and entering those that
come next, so empty ropes are passed without being seen. The slot of the element that contains an offset is
found from the node down, by a search in each rope on the way.
-/

namespace IncrementalParsing

/-- A node or a rope and one of its children, by number. The number may also be that behind the last
child. -/
structure Frame where
  children : List Green.Child
  index : Nat
  offset : Nat
  /-- The field that the children fill unless they have one of their own. -/
  field : Option FieldId

namespace Frame

def child? (frame : Frame) : Option Green.Child := frame.children[frame.index]?

def childOffset (frame : Frame) : Nat := frame.offset + Green.lengthOf (frame.children.take frame.index)

def place (frame : Frame) (child : Green.Child) : Placed :=
  ⟨child.element, frame.childOffset, child.field.or frame.field⟩

def enter (frame : Frame) (child : Green.Child) (index : Nat) : Frame :=
  ⟨child.element.children, index, frame.childOffset, child.field.or frame.field⟩

def step (frame : Frame) : Frame := { frame with index := frame.index + 1 }

end Frame

/-- The frames from the innermost one to that of the node. -/
abbrev Slot := List Frame

namespace Slot

/-! ### How far a slot is from either end -/

/-- The weight of the children after those that the way leads through. -/
def pending (slot : Slot) : Nat :=
  sumOf (slot.map (fun frame => Green.weightAll (frame.children.drop (frame.index + 1))))

/-- The weight of the children that lie ahead. -/
def remaining : Slot → Nat
  | [] => 0
  | top :: outer => Green.weightAll (top.children.drop top.index) + pending outer

/-- The weight of the children that lie behind. -/
def passed (slot : Slot) : Nat :=
  sumOf (slot.map (fun frame => Green.weightAll (frame.children.take frame.index)))

theorem weightAll_append (left right : List Green.Child) :
    Green.weightAll (left ++ right) = Green.weightAll left + Green.weightAll right := by
  induction left with
  | nil => simp [Green.weightAll]
  | cons child rest ih => simp [Green.weightAll, ih, Nat.add_assoc]

theorem weightAll_drop {children : List Green.Child} {index : Nat} {child : Green.Child}
    (there : children[index]? = some child) : Green.weightAll (children.drop index) =
      child.element.weight + Green.weightAll (children.drop (index + 1)) := by
  obtain ⟨inside, same⟩ := List.getElem?_eq_some_iff.mp there
  rw [List.drop_eq_getElem_cons inside, same]
  rfl

theorem weightAll_take {children : List Green.Child} {index : Nat} {child : Green.Child}
    (there : children[index]? = some child) : Green.weightAll (children.take (index + 1)) =
      Green.weightAll (children.take index) + child.element.weight := by
  rw [List.take_add_one, there, weightAll_append]
  rfl

theorem weight_of_isRope {element : Green.Element} (rope : element.isRope = true) :
    element.weight = Green.weightAll element.children + 1 := by
  cases element with
  | token => cases rope
  | node => rfl

/-! ### Moving forward -/

/-- The first element from a slot on, if there is one: ropes are entered at their first child, and left
behind their last. -/
def settleForward (slot : Slot) : Option Slot :=
  match slot with
  | [] => none
  | top :: outer =>
      match _there : top.child? with
      | none =>
          match outer with
          | [] => none
          | parent :: rest => settleForward (parent.step :: rest)
      | some child =>
          if _rope : child.element.isRope then settleForward (top.enter child 0 :: top :: outer)
          else some (top :: outer)
termination_by 2 * remaining slot + slot.length
decreasing_by
  · have used : top.children.drop top.index = [] := List.drop_eq_nil_of_le (List.getElem?_eq_none_iff.mp _there)
    simp only [remaining, pending, used, Green.weightAll, Frame.step, List.map_cons, sumOf_cons, List.length_cons]
    omega
  · have ahead := weightAll_drop _there
    have inner := weight_of_isRope _rope
    simp only [remaining, pending, Frame.enter, List.drop_zero, List.map_cons, sumOf_cons, List.length_cons]
    omega

def advance : Slot → Option Slot
  | [] => settleForward []
  | top :: outer => settleForward (top.step :: outer)

/-! ### Moving backward -/

/-- The last element in front of a slot, if there is one: ropes are entered behind their last child, and
left before their first. -/
def retreat (slot : Slot) : Except Fault (Option Slot) :=
  match slot with
  | [] => .ok none
  | ⟨_, 0, _, _⟩ :: outer => retreat outer
  | ⟨children, index + 1, offset, field⟩ :: outer =>
      let back : Frame := ⟨children, index, offset, field⟩
      match _there : back.child? with
      | none => .error .indexOutOfRange
      | some child =>
          if _rope : child.element.isRope then
            retreat (back.enter child child.element.children.length :: back :: outer)
          else .ok (some (back :: outer))
termination_by 2 * passed slot + slot.length
decreasing_by
  · simp only [passed, List.take_zero, Green.weightAll, List.map_cons, sumOf_cons, List.length_cons]
    omega
  · have behind := weightAll_take _there
    have inner := weight_of_isRope _rope
    simp only [passed, Frame.enter, List.take_length, List.map_cons, sumOf_cons, List.length_cons]
    dsimp only [back, Nat.succ_eq_add_one] at behind ⊢
    omega

/-! ### Slots of a node -/

/-- The first element among the children of a node that begins at an offset. -/
def first (children : List Green.Child) (offset : Nat) : Option Slot :=
  settleForward [⟨children, 0, offset, none⟩]

def last (children : List Green.Child) (offset : Nat) : Except Fault (Option Slot) :=
  retreat [⟨children, children.length, offset, none⟩]

def current : Slot → Except Fault Placed
  | [] => .error .malformedArgument
  | top :: _ =>
      match top.child? with
      | none => .error .indexOutOfRange
      | some child => .ok (top.place child)

/-! ### The elements around a slot -/

def before : Slot → List Placed
  | [] => []
  | frame :: outer => before outer ++ flattenAll frame.offset frame.field (frame.children.take frame.index)

def ahead (frame : Frame) : List Placed :=
  flattenAll frame.childOffset frame.field (frame.children.drop frame.index)

def after : Slot → List Placed
  | [] => []
  | frame :: outer => ahead frame.step ++ after outer

/-! ### Walks forward come to an end -/

theorem remaining_settleForward (slot : Slot) : ∀ next, slot.settleForward = some next →
    next.remaining ≤ slot.remaining := by
  fun_induction settleForward slot with
  | case1 => exact fun _ none => by cases none
  | case2 => exact fun _ none => by cases none
  | case3 top used parent rest ih =>
      intro next settled
      have below := ih next settled
      simp only [remaining, pending, Frame.step, List.map_cons, sumOf_cons] at below ⊢
      omega
  | case4 top outer child there rope ih =>
      intro next settled
      have below := ih next settled
      have ahead := weightAll_drop there
      have inner := weight_of_isRope rope
      simp only [remaining, pending, Frame.enter, List.drop_zero, List.map_cons, sumOf_cons] at below ⊢
      omega
  | case5 =>
      intro next settled
      cases settled
      exact Nat.le_refl _

def remainingFrom : Option Slot → Nat
  | none => 0
  | some slot => slot.remaining

@[simp] theorem remainingFrom_none : remainingFrom none = 0 := rfl

@[simp] theorem remainingFrom_some (slot : Slot) : remainingFrom (some slot) = slot.remaining := rfl

/-- Moving forward leaves the weight of an element behind. -/
theorem weight_add_remainingFrom {slot : Slot} {here : Placed} (points : slot.current = .ok here) :
    here.element.weight + remainingFrom slot.advance ≤ slot.remaining := by
  cases slot with
  | nil => cases points
  | cons top outer =>
      cases there : top.child? with
      | none =>
          rw [current, there] at points
          cases points
      | some child =>
          rw [current, there] at points
          cases points
          have ahead := weightAll_drop there
          have below := remaining_settleForward (top.step :: outer)
          simp only [advance]
          cases settled : settleForward (top.step :: outer) with
          | none =>
              simp only [remaining, remainingFrom_none, Frame.place]
              omega
          | some next =>
              have bound := below next settled
              simp only [remaining, remainingFrom_some, Frame.step, Frame.place] at bound ⊢
              omega

/-- Moving forward leaves an element behind. -/
theorem remaining_advance {slot next : Slot} {here : Placed} (points : slot.current = .ok here)
    (advances : slot.advance = some next) : next.remaining < slot.remaining := by
  have passed := weight_add_remainingFrom points
  have positive := here.element.weight_pos
  rw [advances, remainingFrom_some] at passed
  omega

theorem remainingFrom_first (children : List Green.Child) (offset : Nat) :
    remainingFrom (first children offset) ≤ Green.weightAll children := by
  cases settled : first children offset with
  | none => exact Nat.zero_le _
  | some slot => exact remaining_settleForward _ slot settled

/-! ### Walks backward come to an end -/

/-- Moving backward leads to an element whose weight lay behind. -/
theorem weight_add_passed (slot : Slot) : ∀ last here, slot.retreat = .ok (some last) →
    last.current = .ok here → here.element.weight + last.passed ≤ slot.passed := by
  fun_induction retreat slot with
  | case1 => exact fun _ _ none => by cases none
  | case2 frames place field outer ih =>
      intro last here retreats points
      have below := ih last here retreats points
      simp only [passed, List.map_cons, sumOf_cons] at below ⊢
      omega
  | case3 => exact fun _ _ fault => by cases fault
  | case4 frames index place field outer back child there rope ih =>
      intro last here retreats points
      have below := ih last here retreats points
      have behind := weightAll_take there
      have inner := weight_of_isRope rope
      simp only [passed, Frame.enter, List.take_length, List.map_cons, sumOf_cons] at below ⊢
      dsimp only [back, Nat.succ_eq_add_one] at behind below ⊢
      omega
  | case5 frames index place field outer back child there element =>
      intro last here retreats points
      cases retreats
      rw [current, there] at points
      cases points
      have behind := weightAll_take there
      simp only [passed, List.map_cons, sumOf_cons, Frame.place]
      dsimp only [back, Nat.succ_eq_add_one] at behind ⊢
      omega

theorem passed_last (children : List Green.Child) (offset : Nat) :
    passed [⟨children, children.length, offset, none⟩] = Green.weightAll children := by
  simp [passed]

/-! ### Searching forward -/

def weightWithin : Slot → Nat
  | [] => 0
  | top :: _ => Green.weightAll top.children

theorem weight_lt_of_mem {children : List Green.Child} {child : Green.Child} (among : child ∈ children) :
    child.element.weight ≤ Green.weightAll children := by
  obtain ⟨index, inside, same⟩ := List.getElem_of_mem among
  have there := weightAll_take (List.getElem?_eq_some_iff.mpr ⟨inside, same⟩)
  have whole := weightAll_append (children.take (index + 1)) (children.drop (index + 1))
  rw [List.take_append_drop] at whole
  omega

/-- The element that contains an offset, in the innermost frame or in a rope below it, if there is one. -/
def seek (target : Nat) (slot : Slot) : Option Slot :=
  match slot with
  | [] => none
  | top :: outer =>
      if target < top.offset then none
      else
        match Green.childIndexAt? top.children (target - top.offset) with
        | none => none
        | some index =>
            let here : Frame := { top with index }
            if _rope : top.children[index].element.isRope then
              seek target (here.enter top.children[index] 0 :: here :: outer)
            else some (here :: outer)
termination_by slot.weightWithin
decreasing_by
  have inner := weight_of_isRope _rope
  have within := weight_lt_of_mem (List.getElem_mem index.isLt)
  simp only [weightWithin, Frame.enter]
  simp only [Fin.getElem_fin] at inner ⊢
  omega

def atOffset (children : List Green.Child) (offset target : Nat) : Option Slot :=
  seek target [⟨children, 0, offset, none⟩]

end Slot

end IncrementalParsing
