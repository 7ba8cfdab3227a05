import IncrementalParsing.Parsing.Reuse
import IncrementalParsing.Proofs.Parsing.Reduction

/-!
What a reuse cursor offers. The elements still to come lie within the old text; an element on offer
begins at the old offset that was asked for, was not affected by the change, and therefore lies within
the new text when it is moved to where it would go.
-/

namespace IncrementalParsing

open Green

namespace Green

def Element.IsEnd (element : Element) : Prop :=
  ∃ leaf, element = .token leaf ∧ leaf.kind = .endOfInput ∧ triviaLength leaf.leading = leaf.textLength ∧
    0 < leaf.textLength

/-- The root of a tree over a text of `size` bytes: sound children, and possibly the end of the input
after them. -/
structure Node.IsRoot (table : Table) (size : Nat) (root : Node) : Prop where
  made : root.IsMade
  children : ∃ inner last, root.children = inner ++ last ∧
    (∀ child, child ∈ inner → child.element.Sound table) ∧
    (last = [] ∨ ∃ child, last = [child] ∧ child.element.IsEnd)
  length_eq : root.textLength = size

/-- A node is as long as its children. -/
def Element.Spans : Element → Prop
  | .token _ => True
  | .node head children => head.textLength = lengthOf children

theorem Element.length_children {element : Element} (spans : element.Everywhere Element.Spans)
    (node : element.isToken = false) : element.textLength = lengthOf element.children := by
  cases element with
  | token leaf => cases node
  | node head children => exact spans.here

def Element.Made : Element → Prop
  | .token _ => True
  | .node head children => (Node.mk head children).IsMade

theorem Element.Sound.made {table : Table} {element : Element} (sound : element.Sound table) :
    element.Everywhere Element.Made := by
  refine sound.mono (fun other proper => ?_)
  cases other with
  | token leaf => exact trivial
  | node head children => exact proper.1

theorem Element.spans_of_made {element : Element} (made : element.Everywhere Element.Made) :
    element.Everywhere Element.Spans := by
  refine made.mono (fun other here => ?_)
  cases other with
  | token leaf => exact trivial
  | node head children => exact here.textLength

theorem Element.Sound.spans {table : Table} {element : Element} (sound : element.Sound table) :
    element.Everywhere Element.Spans :=
  spans_of_made sound.made

theorem Node.IsRoot.everywhere_made {table : Table} {size : Nat} {root : Node} (isRoot : root.IsRoot table size) :
    root.element.Everywhere Element.Made := by
  obtain ⟨inner, last, shape, sound, ending⟩ := isRoot.children
  refine .node isRoot.made (fun child member => ?_)
  rw [shape] at member
  rcases List.mem_append.mp member with inside | final
  · exact (sound child inside).made
  · rcases ending with none | ⟨only, same, leaf, isToken, _⟩
    · exact absurd (none ▸ final) List.not_mem_nil
    · rw [same] at final
      rw [List.mem_singleton.mp final, isToken]
      exact .token trivial

theorem Node.IsRoot.spans {table : Table} {size : Nat} {root : Node} (isRoot : root.IsRoot table size) :
    root.element.Everywhere Element.Spans :=
  Element.spans_of_made isRoot.everywhere_made

mutual

theorem firstToken?_sound {table : Table} : ∀ {element : Element}, element.Sound table →
    ∀ {leaf : Token}, element.firstToken? = some leaf → (Element.token leaf).Sound table
  | .token _, sound, leaf, first => by
      unfold Element.firstToken? at first
      cases first
      exact sound
  | .node head children, sound, leaf, first => by
      unfold Element.firstToken? at first
      exact firstTokenOf?_sound (fun child member => sound.inside child member) first

theorem firstTokenOf?_sound {table : Table} : ∀ {children : List Child},
    (∀ child, child ∈ children → child.element.Sound table) →
    ∀ {leaf : Token}, firstTokenOf? children = some leaf → (Element.token leaf).Sound table
  | [], _, leaf, first => by
      unfold firstTokenOf? at first
      cases first
  | ⟨field, element⟩ :: rest, sound, leaf, first => by
      unfold firstTokenOf? at first
      split at first
      · rename_i found here
        cases first
        exact firstToken?_sound (sound ⟨field, element⟩ List.mem_cons_self) here
      · exact firstTokenOf?_sound (fun child member => sound child (List.mem_cons_of_mem _ member)) first

end

end Green

namespace Change

structure Between (change : Change) (oldSize newSize : Nat) : Prop where
  start_le_old : change.start ≤ change.oldEnd
  start_le_new : change.start ≤ change.newEnd
  old_le : change.oldEnd ≤ oldSize
  new_le : change.newEnd ≤ newSize
  sizes : oldSize + change.newEnd = newSize + change.oldEnd

theorem commonForward_le (old new : Array UInt8) :
    ∀ (count start : Nat), commonForward old new start count ≤ count
  | 0, _ => Nat.le_refl 0
  | count + 1, start => by
      unfold commonForward
      have rest := commonForward_le old new count (start + 1)
      split <;> omega

theorem commonBackward_le (old new : Array UInt8) :
    ∀ (count oldEnd newEnd : Nat), commonBackward old new oldEnd newEnd count ≤ count
  | 0, _, _ => Nat.le_refl 0
  | count + 1, oldEnd, newEnd => by
      unfold commonBackward
      have rest := commonBackward_le old new count (oldEnd - 1) (newEnd - 1)
      split <;> omega

end Change

private theorem refused {Reason α β : Type} {reason : Reason} {answer : β}
    (next : α → Except (Failure Reason) β) : (refuse reason >>= next) ≠ .ok answer := by
  intro done
  obtain ⟨_, impossible, _⟩ := bind_ok.mp done
  exact refuse_ne_ok impossible

theorem InputEdit.validate_ok {edit : InputEdit} {oldLength newLength : Nat}
    (valid : edit.validate oldLength newLength = .ok ()) :
    edit.start ≤ edit.oldEnd ∧ edit.start ≤ edit.newEnd ∧ edit.oldEnd ≤ oldLength ∧
      edit.newEnd ≤ newLength ∧ oldLength - edit.oldEnd + edit.newEnd = newLength := by
  unfold InputEdit.validate at valid
  dsimp only at valid
  split at valid
  · exact absurd valid (refused _)
  · split at valid
    · exact absurd valid (refused _)
    · split at valid
      · exact absurd valid (refused _)
      · split at valid
        · exact absurd valid (refused _)
        · obtain ⟨expected, checked, valid⟩ := bind_ok.mp valid
          have same := (checkedOffset_ok.mp (lift_ok.mp checked)).2
          split at valid
          · exact absurd valid refuse_ne_ok
          · omega

theorem Change.narrow_between {edit : InputEdit} {old new : Array UInt8}
    (valid : edit.validate old.size new.size = .ok ()) :
    (Change.narrow edit old new).Between old.size new.size := by
  obtain ⟨startOld, startNew, oldIn, newIn, sizes⟩ := InputEdit.validate_ok valid
  have forward := commonForward_le old new (min edit.oldEnd edit.newEnd - edit.start) edit.start
  have backward := commonBackward_le old new (min edit.oldEnd edit.newEnd - (edit.start +
    commonForward old new edit.start (min edit.oldEnd edit.newEnd - edit.start))) edit.oldEnd edit.newEnd
  unfold Change.narrow
  constructor <;> dsimp only <;> omega

/-- An element of an old tree in its place: sound, or the end of the input. -/
structure OldElement.Fits (table : Table) (size : Nat) (old : OldElement) : Prop where
  element : old.element.Sound table ∨ old.element.IsEnd
  stop_le : old.stop ≤ size

theorem OldElement.ofChildren_fits {table : Table} {size : Nat} :
    ∀ (children : List Child) (start : Nat),
      (∀ child, child ∈ children → child.element.Sound table ∨ child.element.IsEnd) →
      start + lengthOf children ≤ size →
      ∀ old, old ∈ OldElement.ofChildren start children → old.Fits table size
  | [], _, _, _, _, member => nomatch member
  | child :: rest, start, sound, within, old, member => by
      rw [lengthOf_cons] at within
      rcases List.mem_cons.mp member with first | others
      · subst first
        refine ⟨sound child List.mem_cons_self, ?_⟩
        change start + child.element.textLength ≤ size
        omega
      · exact ofChildren_fits rest (start + child.element.textLength)
          (fun child member => sound child (List.mem_cons_of_mem _ member)) (by omega) old others

theorem OldElement.Fits.inside {table : Table} {size start : Nat} {head : Head} {children : List Child}
    (fits : OldElement.Fits table size ⟨start, .node head children⟩) :
    ∀ old, old ∈ OldElement.ofChildren start children → old.Fits table size := by
  rcases fits.element with sound | ⟨leaf, impossible, _⟩
  · refine OldElement.ofChildren_fits children start (fun child member => Or.inl (sound.inside child member)) ?_
    have stop := fits.stop_le
    change start + head.textLength ≤ size at stop
    rwa [← textLength_of_sound sound]
  · cases impossible

namespace ReuseCursor

structure Fits (table : Table) (oldSize newSize : Nat) (cursor : ReuseCursor) : Prop where
  pending : ∀ old, old ∈ cursor.pending → old.Fits table oldSize
  change : cursor.change.Between oldSize newSize

variable {table : Table} {oldSize newSize : Nat}

theorem start_fits {root : Node} {change : Change} (isRoot : root.IsRoot table oldSize)
    (between : change.Between oldSize newSize) : (start root change).Fits table oldSize newSize := by
  refine ⟨OldElement.ofChildren_fits root.children 0 ?_ ?_, between⟩
  · obtain ⟨inner, last, shape, sound, ending⟩ := isRoot.children
    intro child member
    rw [shape] at member
    rcases List.mem_append.mp member with inside | final
    · exact Or.inl (sound child inside)
    · rcases ending with none | ⟨only, same, isEnd⟩
      · rw [none] at final
        exact absurd final List.not_mem_nil
      · rw [same] at final
        exact Or.inr (List.mem_singleton.mp final ▸ isEnd)
  · rw [Nat.zero_add, ← isRoot.made.textLength]
    exact Nat.le_of_eq isRoot.length_eq

theorem descend_fits {cursor : ReuseCursor} (fits : cursor.Fits table oldSize newSize) :
    cursor.descend.Fits table oldSize newSize := by
  unfold descend
  split
  · rename_i start head child children rest shape
    refine ⟨?_, fits.change⟩
    intro old member
    rcases List.mem_append.mp member with inside | others
    · exact (fits.pending ⟨start, .node head (child :: children)⟩
        (by rw [shape]; exact List.mem_cons_self)).inside old inside
    · exact fits.pending old (by rw [shape]; exact List.mem_cons_of_mem _ others)
  · exact fits

/-- What a search finds is reusable, begins where it was looked for and comes next. -/
theorem seek_fits (change : Change) (target : Nat) (pending : List OldElement)
    (fits : ∀ old, old ∈ pending → old.Fits table oldSize) :
    (∀ old, old ∈ (seek change target pending).2 → old.Fits table oldSize) ∧
      ∀ element, (seek change target pending).1 = some element →
        isReusable change ⟨target, element⟩ = true ∧ OldElement.Fits table oldSize ⟨target, element⟩ ∧
        (seek change target pending).2.head? = some ⟨target, element⟩ := by
  fun_induction seek change target pending with
  | case1 => exact ⟨fits, fun _ none => by cases none⟩
  | case2 old rest behind ih => exact ih (fun other member => fits other (List.mem_cons_of_mem _ member))
  | case3 old rest reached beyond => exact ⟨fits, fun _ none => by cases none⟩
  | case4 old rest reached within found =>
      refine ⟨fits, ?_⟩
      intro element same
      cases same
      have place : (⟨target, old.element⟩ : OldElement) = old := by rw [← found.1]
      rw [place]
      exact ⟨found.2, fits old List.mem_cons_self, rfl⟩
  | case5 old rest reached within missed leaf shape => exact ⟨fits, fun _ none => by cases none⟩
  | case6 old rest reached within missed head children shape ih =>
      refine ih (fun other member => ?_)
      rcases List.mem_append.mp member with inside | others
      · have placed : old = ⟨old.start, .node head children⟩ := by rw [← shape]
        have here := fits old List.mem_cons_self
        rw [placed] at here
        exact here.inside other inside
      · exact fits other (List.mem_cons_of_mem _ others)

theorem candidate_fits {cursor : ReuseCursor} (fits : cursor.Fits table oldSize newSize)
    (position : Nat) :
    (cursor.candidate position).2.Fits table oldSize newSize ∧
      ∀ element, (cursor.candidate position).1 = some element →
        element.Sound table ∧ 0 < element.textLength ∧ position + element.textLength ≤ newSize := by
  unfold candidate
  split
  · exact ⟨fits, fun _ none => by cases none⟩
  · rename_i target old
    obtain ⟨kept, found⟩ := seek_fits cursor.change target cursor.pending fits.pending
    refine ⟨⟨kept, fits.change⟩, ?_⟩
    intro element same
    obtain ⟨reusable, here, _⟩ := found element same
    unfold isReusable at reusable
    simp only [Bool.and_eq_true, decide_eq_true_eq, Bool.not_eq_true', bne_iff_ne] at reusable
    obtain ⟨⟨⟨⟨positive, _⟩, _⟩, notEnd⟩, unaffected⟩ := reusable
    refine ⟨?_, positive, ?_⟩
    · rcases here.element with sound | ⟨leaf, shape, isEnd, _⟩
      · exact sound
      · dsimp only at shape notEnd
        rw [shape] at notEnd
        exact absurd isEnd notEnd
    · have stop := here.stop_le
      have between := fits.change
      have one := between.start_le_old
      have two := between.start_le_new
      have three := between.old_le
      have four := between.new_le
      have five := between.sizes
      change target + element.textLength ≤ oldSize at stop
      unfold Change.affects at unaffected
      change (decide (cursor.change.start < target + element.textLength + element.lookahead) &&
        decide (target < cursor.change.oldEnd)) = false at unaffected
      rw [Bool.and_eq_false_iff, decide_eq_false_iff_not, decide_eq_false_iff_not] at unaffected
      unfold Change.toOld at old
      split at old
      · cases old
        omega
      · split at old
        · cases old
          omega
        · cases old

/-! ### Properties of the old tree -/

def Everywhere (holds : Element → Prop) (cursor : ReuseCursor) : Prop :=
  ∀ old, old ∈ cursor.pending → old.element.Everywhere holds

theorem everywhere_ofChildren {holds : Element → Prop} : ∀ (children : List Child) (start : Nat),
    (∀ child, child ∈ children → child.element.Everywhere holds) →
    ∀ old, old ∈ OldElement.ofChildren start children → old.element.Everywhere holds
  | [], _, _, _, member => absurd member List.not_mem_nil
  | child :: rest, start, everywhere, old, member => by
      unfold OldElement.ofChildren at member
      rcases List.mem_cons.mp member with first | others
      · rw [first]
        exact everywhere child List.mem_cons_self
      · exact everywhere_ofChildren rest _
          (fun other among => everywhere other (List.mem_cons_of_mem _ among)) old others

theorem everywhere_start {holds : Element → Prop} {root : Node} (change : Change)
    (everywhere : root.element.Everywhere holds) : (start root change).Everywhere holds :=
  everywhere_ofChildren root.children 0 everywhere.inside

theorem Everywhere.descend {holds : Element → Prop} {cursor : ReuseCursor}
    (everywhere : cursor.Everywhere holds) : cursor.descend.Everywhere holds := by
  unfold ReuseCursor.descend
  split
  · rename_i start head child children rest shape
    intro old member
    rcases List.mem_append.mp member with inside | others
    · exact everywhere_ofChildren (child :: children) start
        (everywhere ⟨start, .node head (child :: children)⟩
          (by rw [shape]; exact List.mem_cons_self)).inside old inside
    · exact everywhere old (by rw [shape]; exact List.mem_cons_of_mem _ others)
  · exact everywhere

theorem everywhere_seek {holds : Element → Prop} (change : Change) (target : Nat)
    (pending : List OldElement) (everywhere : ∀ old, old ∈ pending → old.element.Everywhere holds) :
    (∀ old, old ∈ (seek change target pending).2 → old.element.Everywhere holds) ∧
      ∀ element, (seek change target pending).1 = some element → element.Everywhere holds := by
  fun_induction seek change target pending with
  | case1 => exact ⟨everywhere, fun _ none => by cases none⟩
  | case2 old rest passed ih =>
      exact ih (fun other member => everywhere other (List.mem_cons_of_mem _ member))
  | case3 => exact ⟨everywhere, fun _ none => by cases none⟩
  | case4 old rest =>
      refine ⟨everywhere, ?_⟩
      intro element same
      cases same
      exact everywhere old List.mem_cons_self
  | case5 => exact ⟨everywhere, fun _ none => by cases none⟩
  | case6 old rest _ _ _ head children shape ih =>
      refine ih ?_
      intro other member
      rcases List.mem_append.mp member with inside | others
      · have here := everywhere old List.mem_cons_self
        rw [shape] at here
        exact everywhere_ofChildren children old.start here.inside other inside
      · exact everywhere other (List.mem_cons_of_mem _ others)

theorem Everywhere.candidate {holds : Element → Prop} {cursor : ReuseCursor}
    (everywhere : cursor.Everywhere holds) (position : Nat) :
    (cursor.candidate position).2.Everywhere holds ∧
      ∀ element, (cursor.candidate position).1 = some element → element.Everywhere holds := by
  unfold ReuseCursor.candidate
  split
  · exact ⟨everywhere, fun _ none => by cases none⟩
  · exact everywhere_seek _ _ _ everywhere

end ReuseCursor

end IncrementalParsing
