import IncrementalParsing.Proofs.Tree.Lossless
import IncrementalParsing.Tree.Slot

/-!
Slots between elements. Moving forward and moving backward are written apart, but both only cross the
boundaries of ropes until they meet an element. Two slots that are connected by such crossings stand
between the same two elements, whichever way they are crossed: from either of them, the next element is
the one, and the last one is the other.
-/

namespace IncrementalParsing

open Relation (ReflTransGen)

namespace Slot

variable {children : List Green.Child} {offset : Nat}

inductive Leads (children : List Green.Child) (offset : Nat) : Slot → Prop
  | node {index : Nat} : index ≤ children.length → Leads children offset [⟨children, index, offset, none⟩]
  | rope {frame : Frame} {outer : Slot} {child : Green.Child} {index : Nat} :
      Leads children offset (frame :: outer) → frame.child? = some child → child.element.isRope = true →
      index ≤ child.element.children.length → Leads children offset (frame.enter child index :: frame :: outer)

inductive Points (children : List Green.Child) (offset : Nat) : Slot → Prop
  | element {top : Frame} {outer : Slot} {child : Green.Child} : Leads children offset (top :: outer) →
      top.child? = some child → child.element.isRope = false → Points children offset (top :: outer)

/-- One boundary of a rope is crossed forward: the rope that comes next is entered, or one that is used up
is left. -/
inductive Crosses : Slot → Slot → Prop
  | enter {top : Frame} {outer : Slot} {child : Green.Child} : top.child? = some child →
      child.element.isRope = true → Crosses (top :: outer) (top.enter child 0 :: top :: outer)
  | leave {top parent : Frame} {rest : Slot} : top.child? = none →
      Crosses (top :: parent :: rest) (parent.step :: rest)

def behind : Slot → Slot
  | [] => []
  | top :: outer => top.step :: outer

theorem advance_eq (slot : Slot) : slot.advance = slot.behind.settleForward := by
  cases slot <;> rfl

theorem Points.leads {slot : Slot} (points : Points children offset slot) : Leads children offset slot := by
  cases points
  assumption

theorem child?_isSome {frame : Frame} {child : Green.Child} (there : frame.child? = some child) :
    frame.index < frame.children.length := (List.getElem?_eq_some_iff.mp there).1

theorem Leads.step {top : Frame} {outer : Slot} {child : Green.Child} (leads : Leads children offset (top :: outer))
    (there : top.child? = some child) : Leads children offset (top.step :: outer) := by
  have inside := child?_isSome there
  cases leads with
  | node => exact .node inside
  | rope above at_ isRope => exact .rope above at_ isRope inside

theorem Points.leads_behind {slot : Slot} (points : Points children offset slot) :
    Leads children offset slot.behind := by
  cases points with
  | element leads there _ => exact leads.step there

theorem Leads.back {frames : List Green.Child} {index place : Nat} {field : Option FieldId} {outer : Slot}
    (leads : Leads children offset (⟨frames, index + 1, place, field⟩ :: outer)) :
    Leads children offset (⟨frames, index, place, field⟩ :: outer) ∧ index < frames.length := by
  cases leads with
  | node inside => exact ⟨.node (Nat.le_of_succ_le inside), inside⟩
  | rope above at_ isRope inside => exact ⟨.rope above at_ isRope (Nat.le_of_succ_le inside), inside⟩

theorem Leads.crosses {slot next : Slot} (leads : Leads children offset slot) (crosses : Crosses slot next) :
    Leads children offset next := by
  cases crosses with
  | enter there isRope => exact .rope leads there isRope (Nat.zero_le _)
  | leave used =>
      cases leads with
      | rope above there _ _ => exact above.step there

theorem Leads.connected {slot next : Slot} (leads : Leads children offset slot)
    (connected : ReflTransGen Crosses slot next) : Leads children offset next := by
  induction connected with
  | refl => exact leads
  | tail _ crosses ih => exact ih.crosses crosses

/-! ### Forward -/

theorem settleForward_enter {top : Frame} {outer : Slot} {child : Green.Child} (there : top.child? = some child)
    (isRope : child.element.isRope = true) :
    settleForward (top :: outer) = settleForward (top.enter child 0 :: top :: outer) := by
  rw [settleForward.eq_def (top :: outer)]
  dsimp only
  split
  · rename_i used
    cases used.symm.trans there
  · rename_i found at_
    cases at_.symm.trans there
    rw [dif_pos isRope]

theorem settleForward_leave {top parent : Frame} {rest : Slot} (used : top.child? = none) :
    settleForward (top :: parent :: rest) = settleForward (parent.step :: rest) := by
  rw [settleForward.eq_def (top :: parent :: rest)]
  dsimp only
  split
  · rfl
  · rename_i found at_
    cases at_.symm.trans used

theorem Points.settleForward_eq {slot : Slot} (points : Points children offset slot) :
    slot.settleForward = some slot := by
  cases points with
  | element _ there isElement =>
      rw [settleForward.eq_def]
      dsimp only
      split
      · rename_i used
        cases used.symm.trans there
      · rename_i found at_
        cases at_.symm.trans there
        rw [dif_neg (by rw [isElement]; exact Bool.false_ne_true)]

theorem settleForward_connected {slot next : Slot} (connected : ReflTransGen Crosses slot next) :
    slot.settleForward = next.settleForward := by
  induction connected with
  | refl => rfl
  | tail _ crosses ih =>
      refine ih.trans ?_
      cases crosses with
      | enter there isRope => exact settleForward_enter there isRope
      | leave used => exact settleForward_leave used

def start (children : List Green.Child) (offset : Nat) : Slot := [⟨children, 0, offset, none⟩]

def stop (children : List Green.Child) (offset : Nat) : Slot := [⟨children, children.length, offset, none⟩]

theorem leads_start : Leads children offset (start children offset) := .node (Nat.zero_le _)

/-- Moving forward only crosses boundaries, up to an element or to the end. -/
theorem settleForward_cases {slot : Slot} : Leads children offset slot →
    (slot.settleForward = none ∧ ReflTransGen Crosses slot (stop children offset)) ∨
      ∃ next, slot.settleForward = some next ∧ Points children offset next ∧ ReflTransGen Crosses slot next := by
  fun_induction settleForward slot with
  | case1 => exact fun impossible => by cases impossible
  | case2 top used =>
      intro leads
      cases leads with
      | node inside =>
          have whole := Nat.le_antisymm inside (List.getElem?_eq_none_iff.mp used)
          exact Or.inl ⟨rfl, by rw [stop, ← whole]⟩
  | case3 top used parent rest ih =>
      intro leads
      have crosses : Crosses (top :: parent :: rest) (parent.step :: rest) := .leave used
      rcases ih (leads.crosses crosses) with ⟨none, connected⟩ | ⟨next, settled, points, connected⟩
      · exact Or.inl ⟨none, .head crosses connected⟩
      · exact Or.inr ⟨next, settled, points, .head crosses connected⟩
  | case4 top outer child there isRope ih =>
      intro leads
      have crosses : Crosses (top :: outer) (top.enter child 0 :: top :: outer) := .enter there isRope
      rcases ih (leads.crosses crosses) with ⟨none, connected⟩ | ⟨next, settled, points, connected⟩
      · exact Or.inl ⟨none, .head crosses connected⟩
      · exact Or.inr ⟨next, settled, points, .head crosses connected⟩
  | case5 top outer child there isElement =>
      intro leads
      exact Or.inr ⟨_, rfl, .element leads there (Bool.not_eq_true _ ▸ isElement), .refl⟩

/-! ### Backward -/

theorem retreat_leave {frames : List Green.Child} {place : Nat} {field : Option FieldId} {outer : Slot} :
    retreat (⟨frames, 0, place, field⟩ :: outer) = retreat outer := by
  rw [retreat]

theorem retreat_enter {top : Frame} {outer : Slot} {child : Green.Child} (there : top.child? = some child)
    (isRope : child.element.isRope = true) : retreat (top.step :: outer) =
      retreat (top.enter child child.element.children.length :: top :: outer) := by
  obtain ⟨frames, index, place, field⟩ := top
  change retreat (⟨frames, index + 1, place, field⟩ :: outer) = _
  rw [retreat]
  split
  · rename_i used
    cases used.symm.trans there
  · rename_i found at_
    cases at_.symm.trans there
    rw [dif_pos isRope]

theorem Points.retreat_behind {slot : Slot} (points : Points children offset slot) :
    slot.behind.retreat = .ok (some slot) := by
  cases points with
  | @element top outer child _ there isElement =>
      obtain ⟨frames, index, place, field⟩ := top
      change retreat (⟨frames, index + 1, place, field⟩ :: outer) = _
      rw [retreat]
      split
      · rename_i used
        cases used.symm.trans there
      · rename_i found at_
        cases at_.symm.trans there
        rw [dif_neg (by rw [isElement]; exact Bool.false_ne_true)]

theorem retreat_connected {slot next : Slot} (leads : Leads children offset slot)
    (connected : ReflTransGen Crosses slot next) : slot.retreat = next.retreat := by
  induction connected with
  | refl => rfl
  | tail earlier crosses ih =>
      refine ih.trans ?_
      have here := leads.connected earlier
      cases crosses with
      | enter there isRope => exact retreat_leave.symm
      | leave used =>
          cases here with
          | @rope frame _ child index _ there isRope inside =>
              have whole : index = child.element.children.length :=
                Nat.le_antisymm inside (List.getElem?_eq_none_iff.mp used)
              rw [whole]
              exact (retreat_enter there isRope).symm

/-- Moving backward only crosses boundaries, down to an element or to the beginning. -/
theorem retreat_cases {slot : Slot} : Leads children offset slot →
    (slot.retreat = .ok none ∧ ReflTransGen Crosses (start children offset) slot) ∨
      ∃ last, slot.retreat = .ok (some last) ∧ Points children offset last ∧
        ReflTransGen Crosses last.behind slot := by
  fun_induction retreat slot with
  | case1 => exact fun impossible => by cases impossible
  | case2 frames place field outer ih =>
      intro leads
      cases leads with
      | node => exact Or.inl ⟨by rw [retreat], .refl⟩
      | rope above there isRope =>
          have crosses := fun rest => @Crosses.enter _ rest _ there isRope
          rcases ih above with ⟨none, connected⟩ | ⟨last, found, points, connected⟩
          · exact Or.inl ⟨none, .tail connected (crosses _)⟩
          · exact Or.inr ⟨last, found, points, .tail connected (crosses _)⟩
  | case3 frames index place field outer back missing =>
      intro leads
      obtain ⟨_, inside⟩ := leads.back
      exact absurd missing (by rw [Frame.child?, List.getElem?_eq_getElem inside]; simp)
  | case4 frames index place field outer back child there isRope ih =>
      intro leads
      have crosses : Crosses (back.enter child child.element.children.length :: back :: outer)
          (⟨frames, index + 1, place, field⟩ :: outer) :=
        .leave (List.getElem?_eq_none (Nat.le_refl _))
      rcases ih (.rope leads.back.1 there isRope (Nat.le_refl _)) with
        ⟨none, connected⟩ | ⟨last, found, points, connected⟩
      · exact Or.inl ⟨none, .tail connected crosses⟩
      · exact Or.inr ⟨last, found, points, .tail connected crosses⟩
  | case5 frames index place field outer back child there isElement =>
      intro leads
      exact Or.inr ⟨_, rfl, .element leads.back.1 there (Bool.not_eq_true _ ▸ isElement), .refl⟩

/-! ### The same elements both ways -/

theorem advance_iff_retreat {slot next : Slot} (points : Points children offset slot)
    (pointsNext : Points children offset next) : slot.advance = some next ↔ next.retreat = .ok (some slot) := by
  have leads := points.leads_behind
  rw [advance_eq]
  constructor
  · intro advances
    rcases settleForward_cases leads with ⟨none, _⟩ | ⟨found, settled, _, connected⟩
    · cases advances.symm.trans none
    · cases advances.symm.trans settled
      rw [← retreat_connected leads connected]
      exact points.retreat_behind
  · intro retreats
    rcases retreat_cases pointsNext.leads with ⟨none, _⟩ | ⟨found, retreated, _, connected⟩
    · cases retreats.symm.trans none
    · cases retreats.symm.trans retreated
      rw [settleForward_connected connected]
      exact pointsNext.settleForward_eq

/-! ### The elements on either side -/

def onward : Slot → List Placed
  | [] => []
  | top :: outer => ahead top ++ after outer

theorem onward_behind (slot : Slot) : slot.behind.onward = slot.after := by
  cases slot <;> rfl

theorem childOffset_step {frame : Frame} {child : Green.Child} (there : frame.child? = some child) :
    frame.step.childOffset = frame.childOffset + child.element.textLength := by
  change frame.offset + Green.lengthOf (frame.children.take (frame.index + 1)) = _
  rw [List.take_add_one, show frame.children[frame.index]? = some child from there, Green.lengthOf_append,
    ← Nat.add_assoc]
  rfl

theorem ahead_of_child {frame : Frame} {child : Green.Child} (there : frame.child? = some child) :
    ahead frame = flatten frame.childOffset (child.field.or frame.field) child.element ++ ahead frame.step := by
  obtain ⟨inside, same⟩ := List.getElem?_eq_some_iff.mp there
  unfold ahead
  rw [List.drop_eq_getElem_cons inside, same, flattenAll, childOffset_step there]
  rfl

theorem ahead_of_used {frame : Frame} (used : frame.child? = none) : ahead frame = [] := by
  unfold ahead
  rw [List.drop_eq_nil_of_le (List.getElem?_eq_none_iff.mp used), flattenAll]

theorem flatten_of_rope {element : Green.Element} (isRope : element.isRope = true) (place : Nat)
    (field : Option FieldId) : flatten place field element = flattenAll place field element.children := by
  cases element with
  | token => cases isRope
  | node head children =>
      rw [flatten, if_neg (by simpa [Green.Element.isRope] using isRope)]
      rfl

theorem flatten_of_element {element : Green.Element} (isElement : element.isRope = false) (place : Nat)
    (field : Option FieldId) : flatten place field element = [⟨element, place, field⟩] := by
  cases element with
  | token => rw [flatten]
  | node head children => rw [flatten, if_pos (by simpa [Green.Element.isRope] using isElement)]

theorem ahead_enter (top : Frame) (child : Green.Child) : ahead (top.enter child 0) =
    flattenAll top.childOffset (child.field.or top.field) child.element.children := rfl

/-- The same elements lie ahead on both sides of a boundary. -/
theorem onward_connected {slot next : Slot} (connected : ReflTransGen Crosses slot next) :
    slot.onward = next.onward := by
  induction connected with
  | refl => rfl
  | tail _ crosses ih =>
      refine ih.trans ?_
      cases crosses with
      | @enter top outer child there isRope =>
          change ahead top ++ after outer = ahead (top.enter child 0) ++ (ahead top.step ++ after outer)
          rw [ahead_of_child there, flatten_of_rope isRope, ahead_enter, List.append_assoc]
      | @leave top parent rest used =>
          change ahead top ++ (ahead parent.step ++ after rest) = ahead parent.step ++ after rest
          rw [ahead_of_used used, List.nil_append]

theorem Leads.before_append_onward {slot : Slot} (leads : Leads children offset slot) :
    slot.before ++ slot.onward = flattenAll offset none children := by
  induction leads with
  | @node index inside =>
      change (before [] ++ flattenAll offset none (children.take index)) ++
        (flattenAll (offset + Green.lengthOf (children.take index)) none (children.drop index) ++ after []) = _
      rw [before, after, List.nil_append, List.append_nil, ← flattenAll_append, List.take_append_drop]
  | @rope frame outer child index above there isRope inside ih =>
      have split : flattenAll frame.childOffset (child.field.or frame.field) (child.element.children.take index) ++
          ahead (frame.enter child index) =
          flatten frame.childOffset (child.field.or frame.field) child.element := by
        change _ ++ flattenAll (frame.childOffset + Green.lengthOf (child.element.children.take index))
          (child.field.or frame.field) (child.element.children.drop index) = _
        rw [← flattenAll_append, List.take_append_drop, flatten_of_rope isRope]
      rw [← ih]
      change (before (frame :: outer) ++ flattenAll frame.childOffset (child.field.or frame.field)
        (child.element.children.take index)) ++ (ahead (frame.enter child index) ++ after (frame :: outer)) =
        before (frame :: outer) ++ (ahead frame ++ after outer)
      rw [ahead_of_child there, ← split]
      simp only [List.append_assoc]
      rfl

theorem Points.exists_current {slot : Slot} (points : Points children offset slot) :
    ∃ here, slot.current = .ok here ∧ slot.onward = here :: slot.after := by
  cases points with
  | @element top outer child _ there isElement =>
      refine ⟨top.place child, by rw [current, there], ?_⟩
      change ahead top ++ after outer = top.place child :: (ahead top.step ++ after outer)
      rw [ahead_of_child there, flatten_of_element isElement]
      rfl

theorem before_start : before (start children offset) = [] := by
  change before [] ++ flattenAll offset none (children.take 0) = []
  rw [List.take_zero, flattenAll, before, List.append_nil]

theorem onward_stop : onward (stop children offset) = [] := by
  change ahead _ ++ after [] = []
  rw [ahead_of_used (List.getElem?_eq_none (Nat.le_refl _))]
  rfl

theorem before_of_connected {slot : Slot} (connected : ReflTransGen Crosses (start children offset) slot) :
    slot.before = [] ∧ slot.onward = flattenAll offset none children := by
  have whole := (@leads_start children offset).before_append_onward
  have both := (leads_start.connected connected).before_append_onward
  rw [before_start, List.nil_append, onward_connected connected] at whole
  rw [whole] at both
  exact ⟨List.append_left_eq_self.mp both, whole⟩

/-! ### What a move does -/

theorem first_cases : (first children offset = none ∧ flattenAll offset none children = [] ∧
      last children offset = .ok none) ∨
    ∃ slot, first children offset = some slot ∧ Points children offset slot ∧ slot.retreat = .ok none ∧
      slot.before = [] ∧ slot.onward = flattenAll offset none children := by
  have begins : (start children offset).retreat = .ok none := by
    rw [start, retreat_leave, retreat]
  rcases settleForward_cases (@leads_start children offset) with
    ⟨none, connected⟩ | ⟨slot, settled, points, connected⟩
  · refine Or.inl ⟨none, ?_, (retreat_connected leads_start connected).symm.trans begins⟩
    rw [← (before_of_connected connected).2, onward_stop]
  · exact Or.inr ⟨slot, settled, points, (retreat_connected leads_start connected).symm.trans begins,
      before_of_connected connected⟩

/-- Moving forward leaves one element behind. Where there is no further one, this is the last. -/
theorem Points.advance_cases {slot : Slot} (points : Points children offset slot) {here : Placed}
    (current : slot.current = .ok here) :
    (slot.advance = none ∧ slot.after = [] ∧ last children offset = .ok (some slot)) ∨
      ∃ next, slot.advance = some next ∧ Points children offset next ∧
        next.before = slot.before ++ [here] ∧ slot.after = next.onward := by
  have leads := points.leads_behind
  obtain ⟨other, found, onwards⟩ := points.exists_current
  cases current.symm.trans found
  rw [advance_eq, ← onward_behind]
  rcases settleForward_cases leads with ⟨none, connected⟩ | ⟨next, settled, pointsNext, connected⟩
  · refine Or.inl ⟨none, ?_, (retreat_connected leads connected).symm.trans points.retreat_behind⟩
    rw [onward_connected connected, onward_stop]
  · refine Or.inr ⟨next, settled, pointsNext, ?_, onward_connected connected⟩
    have both := points.leads.before_append_onward
    have bothNext := pointsNext.leads.before_append_onward
    rw [onwards, ← onward_behind, onward_connected connected] at both
    rw [← both, List.append_cons] at bothNext
    exact List.append_cancel_right bothNext

/-- Moving backward leads to the element from which moving forward leads here, unless this is the first. -/
theorem Points.retreat_cases {slot : Slot} (points : Points children offset slot) :
    (slot.retreat = .ok none ∧ slot.before = []) ∨
      ∃ last, slot.retreat = .ok (some last) ∧ Points children offset last ∧ last.advance = some slot := by
  rcases Slot.retreat_cases points.leads with ⟨none, connected⟩ | ⟨last, found, pointsLast, _⟩
  · exact Or.inl ⟨none, (before_of_connected connected).1⟩
  · exact Or.inr ⟨last, found, pointsLast, (advance_iff_retreat pointsLast points).mpr found⟩

end Slot

end IncrementalParsing
