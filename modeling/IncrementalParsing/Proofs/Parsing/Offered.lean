import IncrementalParsing.Proofs.Green.Strands
import IncrementalParsing.Proofs.Parsing.Edit
import IncrementalParsing.Proofs.Parsing.Produced

/-!
What a reuse cursor offers over many requests. The elements that are still to come tile the old text
from where the cursor stands, and every element further on that was not entered lies in one of them.
So an element on offer is the outermost one at its place that the change has not affected and that was
not entered before; and where nothing is on offer, there is no such element.
-/

namespace IncrementalParsing

open Green

/-! ### Elements of a tree in their places -/

namespace OldElement

def children (old : OldElement) : List OldElement := ofChildren old.start old.element.children

/-- The element itself, or one that lies in it at some depth. -/
inductive Below : OldElement → OldElement → Prop
  | refl (old : OldElement) : Below old old
  | child {outer inner child : OldElement} : Below outer inner → child ∈ inner.children → Below outer child

theorem Below.trans {first second third : OldElement} (outer : Below first second)
    (inner : Below second third) : Below first third := by
  induction inner with
  | refl => exact outer
  | child _ member ih => exact .child ih member

theorem Below.cases_head {outer inner : OldElement} (below : Below outer inner) :
    inner = outer ∨ ∃ child, child ∈ outer.children ∧ Below child inner := by
  induction below with
  | refl => exact Or.inl rfl
  | @child middle last _ member ih =>
      rcases ih with rfl | ⟨child, among, rest⟩
      · exact Or.inr ⟨last, member, .refl last⟩
      · exact Or.inr ⟨child, among, rest.child member⟩

def Chained : Nat → List OldElement → Prop
  | _, [] => True
  | start, old :: rest => old.start = start ∧ Chained old.stop rest

theorem chained_ofChildren {rest : List OldElement} : ∀ (children : List Child) (start : Nat),
    Chained (start + lengthOf children) rest → Chained start (ofChildren start children ++ rest)
  | [], _, chained => chained
  | child :: others, start, chained => by
      refine ⟨rfl, chained_ofChildren others (start + child.element.textLength) ?_⟩
      rw [lengthOf_cons, ← Nat.add_assoc] at chained
      exact chained

theorem Chained.start_le : ∀ {start : Nat} {pending : List OldElement}, Chained start pending →
    ∀ old, old ∈ pending → start ≤ old.start
  | _, first :: _, chained, old, member => by
      rcases List.mem_cons.mp member with rfl | others
      · exact Nat.le_of_eq chained.1.symm
      · have later := chained.2.start_le old others
        have here := chained.1
        unfold stop at later
        omega

theorem stop_le_of_mem_ofChildren : ∀ (children : List Child) (start : Nat),
    ∀ old, old ∈ ofChildren start children → start ≤ old.start ∧ old.stop ≤ start + lengthOf children
  | child :: rest, start, old, member => by
      rw [lengthOf_cons]
      rcases List.mem_cons.mp member with rfl | others
      · unfold stop
        exact ⟨Nat.le_refl start, by dsimp only; omega⟩
      · obtain ⟨low, high⟩ := stop_le_of_mem_ofChildren rest (start + child.element.textLength) old others
        omega

theorem apart_of_mem_ofChildren : ∀ (children : List Child) (start : Nat),
    ∀ old, old ∈ ofChildren start children → ∀ other, other ∈ ofChildren start children →
      old = other ∨ old.stop ≤ other.start ∨ other.stop ≤ old.start
  | child :: rest, start, old, member, other, among => by
      have beyond := stop_le_of_mem_ofChildren rest (start + child.element.textLength)
      rcases List.mem_cons.mp member with rfl | later <;> rcases List.mem_cons.mp among with rfl | further
      · exact Or.inl rfl
      · exact Or.inr (Or.inl (beyond other further).1)
      · exact Or.inr (Or.inr (beyond old later).1)
      · exact apart_of_mem_ofChildren rest _ old later other further

theorem weight_le_of_mem_ofChildren : ∀ (children : List Child) (start : Nat),
    ∀ old, old ∈ ofChildren start children → old.element.weight ≤ weightAll children
  | ⟨field, element⟩ :: rest, start, old, member => by
      unfold weightAll
      rcases List.mem_cons.mp member with rfl | others
      · exact Nat.le_add_right _ _
      · exact Nat.le_trans (weight_le_of_mem_ofChildren rest _ old others) (Nat.le_add_left _ _)

theorem weight_lt_of_mem_children {old child : OldElement} (member : child ∈ old.children) :
    child.element.weight < old.element.weight := by
  cases shape : old.element with
  | token leaf =>
      unfold children at member
      rw [shape] at member
      exact absurd member List.not_mem_nil
  | node head inner =>
      unfold children at member
      rw [shape] at member
      exact Nat.lt_succ_of_le (weight_le_of_mem_ofChildren inner _ child member)

theorem Below.weight_le {outer inner : OldElement} (below : Below outer inner) :
    inner.element.weight ≤ outer.element.weight := by
  induction below with
  | refl => exact Nat.le_refl _
  | child _ member ih => exact Nat.le_of_lt (Nat.lt_of_lt_of_le (weight_lt_of_mem_children member) ih)

theorem not_below_of_mem_children {old child : OldElement} (member : child ∈ old.children) :
    ¬ Below child old :=
  fun below => Nat.not_lt_of_le below.weight_le (weight_lt_of_mem_children member)

end OldElement

namespace OldElement

theorem everywhere_of_mem_children {holds : Element → Prop} {old child : OldElement}
    (everywhere : old.element.Everywhere holds) (member : child ∈ old.children) :
    child.element.Everywhere holds :=
  ReuseCursor.everywhere_ofChildren _ _ everywhere.inside child member

theorem stop_eq_children {old : OldElement} (spans : old.element.Spans) (isNode : old.element.isToken = false) :
    old.start + lengthOf old.element.children = old.stop := by
  unfold stop
  cases shape : old.element with
  | token leaf =>
      rw [shape] at isNode
      cases isNode
  | node head children =>
      rw [shape] at spans
      exact congrArg (old.start + ·) (show head.textLength = lengthOf children from spans).symm

theorem within_of_mem_children {old child : OldElement} (spans : old.element.Spans)
    (member : child ∈ old.children) : old.start ≤ child.start ∧ child.stop ≤ old.stop := by
  unfold children at member
  have bounds := stop_le_of_mem_ofChildren _ _ child member
  cases isNode : old.element.isToken with
  | true =>
      cases shape : old.element with
      | token leaf =>
          rw [shape] at member
          exact absurd member List.not_mem_nil
      | node head inner =>
          rw [shape] at isNode
          cases isNode
  | false =>
      rw [stop_eq_children spans isNode] at bounds
      exact bounds

theorem Below.within {outer inner : OldElement} (spans : outer.element.Everywhere Element.Spans)
    (below : Below outer inner) :
    inner.element.Everywhere Element.Spans ∧ outer.start ≤ inner.start ∧ inner.stop ≤ outer.stop := by
  induction below with
  | refl => exact ⟨spans, Nat.le_refl _, Nat.le_refl _⟩
  | @child middle last _ member ih =>
      obtain ⟨middleSpans, low, high⟩ := ih
      obtain ⟨lower, higher⟩ := within_of_mem_children middleSpans.here member
      exact ⟨everywhere_of_mem_children middleSpans member, Nat.le_trans low lower, Nat.le_trans higher high⟩

theorem Below.of_within {whole outer inner : OldElement} (spans : whole.element.Everywhere Element.Spans)
    (above : Below whole outer) (below : Below whole inner) (after : outer.start < inner.start)
    (before : inner.start < outer.stop) : Below outer inner := by
  induction above with
  | refl => exact below
  | @child middle last between member ih =>
      have middleSpans := (between.within spans).1
      obtain ⟨low, high⟩ := within_of_mem_children middleSpans.here member
      rcases (ih (by omega) (by omega)).cases_head with rfl | ⟨child, among, inside⟩
      · omega
      · obtain ⟨_, first, final⟩ := inside.within (everywhere_of_mem_children middleSpans among)
        have ordered : inner.start ≤ inner.stop := Nat.le_add_right _ _
        rcases apart_of_mem_ofChildren _ _ last member child among with rfl | apart | apart
        · exact inside
        · omega
        · omega

/-- What may be kept of an old tree: elements that are not empty, without error, not fragile and not the
end of the input, and of which the change has touched neither the text nor what was examined beyond it. -/
structure Reusable (change : Change) (old : OldElement) : Prop where
  positive : 0 < old.element.textLength
  clean : old.element.hasError = false
  solid : old.element.isFragile = false
  proper : old.element.kind ≠ .endOfInput
  unaffected : old.stop + old.element.lookahead ≤ change.start ∨ change.oldEnd ≤ old.start

theorem isReusable_iff {change : Change} {old : OldElement} :
    ReuseCursor.isReusable change old = true ↔ old.Reusable change := by
  unfold ReuseCursor.isReusable Change.affects
  simp only [Bool.and_eq_true, decide_eq_true_eq, Bool.not_eq_true', bne_iff_ne, Bool.and_eq_false_iff,
    decide_eq_false_iff_not, Nat.not_lt]
  constructor
  · rintro ⟨⟨⟨⟨positive, clean⟩, solid⟩, proper⟩, unaffected⟩
    exact ⟨positive, clean, solid, proper, unaffected⟩
  · rintro ⟨positive, clean, solid, proper, unaffected⟩
    exact ⟨⟨⟨⟨positive, clean⟩, solid⟩, proper⟩, unaffected⟩

end OldElement

namespace ReuseCursor

/-! ### A search -/

structure Sought (change : Change) (target : Nat) (pending : List OldElement)
    (found : Option Element) (left : List OldElement) : Prop where
  chained : ∃ start, start ≤ target ∧ OldElement.Chained start left
  among : ∀ old, old ∈ left → ∃ before, before ∈ pending ∧ before.Below old
  keeps : ∀ old : OldElement, old.Reusable change → target ≤ old.start →
    (∃ before, before ∈ pending ∧ before.Below old) → ∃ after, after ∈ left ∧ after.Below old
  offers : ∀ element, found = some element → OldElement.Reusable change ⟨target, element⟩ ∧
    left.head? = some ⟨target, element⟩
  misses : found = none → ∀ old : OldElement, old.Reusable change → old.start = target →
    ¬ ∃ before, before ∈ pending ∧ before.Below old

theorem Sought.skip {change : Change} {target : Nat} {first : OldElement} {rest left : List OldElement}
    {found : Option Element} (sought : Sought change target rest found left)
    (nothing : ∀ old : OldElement, old.Reusable change → target ≤ old.start → ¬ first.Below old) :
    Sought change target (first :: rest) found left where
  chained := sought.chained
  among := by
    intro old member
    obtain ⟨before, among, below⟩ := sought.among old member
    exact ⟨before, List.mem_cons_of_mem _ among, below⟩
  keeps := by
    rintro old reusable ahead ⟨before, among, below⟩
    rcases List.mem_cons.mp among with rfl | others
    · exact absurd below (nothing old reusable ahead)
    · exact sought.keeps old reusable ahead ⟨before, others, below⟩
  offers := sought.offers
  misses := by
    rintro none old reusable here ⟨before, among, below⟩
    rcases List.mem_cons.mp among with rfl | others
    · exact nothing old reusable (Nat.le_of_eq here.symm) below
    · exact sought.misses none old reusable here ⟨before, others, below⟩

theorem Sought.open {change : Change} {target : Nat} {first : OldElement}
    {children rest left : List OldElement} {found : Option Element} (isChildren : first.children = children)
    (sought : Sought change target (children ++ rest) found left)
    (useless : first.Reusable change → ¬ target ≤ first.start) :
    Sought change target (first :: rest) found left := by
  subst isChildren
  have inside : ∀ old : OldElement, old.Reusable change → target ≤ old.start →
      (∃ before, before ∈ first :: rest ∧ before.Below old) →
      ∃ before, before ∈ first.children ++ rest ∧ before.Below old := by
    rintro old reusable ahead ⟨before, among, below⟩
    rcases List.mem_cons.mp among with rfl | others
    · rcases below.cases_head with rfl | ⟨child, member, deeper⟩
      · exact absurd ahead (useless reusable)
      · exact ⟨child, List.mem_append_left _ member, deeper⟩
    · exact ⟨before, List.mem_append_right _ others, below⟩
  refine ⟨sought.chained, ?_, ?_, sought.offers, ?_⟩
  · intro old member
    obtain ⟨before, among, below⟩ := sought.among old member
    rcases List.mem_append.mp among with child | others
    · exact ⟨first, List.mem_cons_self, (OldElement.Below.child (.refl first) child).trans below⟩
    · exact ⟨before, List.mem_cons_of_mem _ others, below⟩
  · intro old reusable ahead among
    exact sought.keeps old reusable ahead (inside old reusable ahead among)
  · intro none old reusable here among
    exact sought.misses none old reusable here (inside old reusable (Nat.le_of_eq here.symm) among)

theorem not_below_rest {target : Nat} {first old : OldElement} {rest : List OldElement}
    (chained : OldElement.Chained first.stop rest) (reached : target < first.stop)
    (spans : ∀ other, other ∈ rest → other.element.Everywhere Element.Spans)
    (here : old.start = target) : ¬ ∃ before, before ∈ rest ∧ before.Below old := by
  rintro ⟨before, among, below⟩
  have later := chained.start_le before among
  have within := (below.within (spans before among)).2.1
  omega

theorem Sought.stay {change : Change} {target : Nat} {first : OldElement} {rest : List OldElement}
    {found : Option Element} (reached : first.start ≤ target)
    (chained : OldElement.Chained first.start (first :: rest))
    (offers : ∀ element, found = some element → OldElement.Reusable change ⟨target, element⟩ ∧
      first = ⟨target, element⟩)
    (misses : found = none → ∀ old : OldElement, old.Reusable change → old.start = target →
      ¬ ∃ before, before ∈ first :: rest ∧ before.Below old) :
    Sought change target (first :: rest) found (first :: rest) where
  chained := ⟨first.start, reached, chained⟩
  among := fun old member => ⟨old, member, .refl old⟩
  keeps := fun _ _ _ among => among
  offers := fun element same => ⟨(offers element same).1, congrArg some (offers element same).2⟩
  misses := misses

/-- A search comes to the outermost reusable element that begins at an offset, if there is one. -/
theorem seek_sought (change : Change) (target : Nat) (pending : List OldElement) :
    ∀ start, start ≤ target → OldElement.Chained start pending →
      (∀ old, old ∈ pending → old.element.Everywhere Element.Spans) →
      Sought change target pending (seek change target pending).1 (seek change target pending).2 := by
  fun_induction seek change target pending with
  | case1 =>
      intro start reached chained _
      refine ⟨⟨start, reached, chained⟩, fun old none => absurd none List.not_mem_nil, fun _ _ _ among => among,
        fun _ same => (by cases same), ?_⟩
      rintro _ old _ _ ⟨before, among, _⟩
      exact absurd among List.not_mem_nil
  | case2 old rest behind ih =>
      intro start reached chained spans
      refine (ih old.stop behind chained.2 (fun other among => spans other (List.mem_cons_of_mem _ among))).skip ?_
      intro other reusable ahead below
      have within := (below.within (spans old List.mem_cons_self)).2.2
      have positive := reusable.positive
      unfold OldElement.stop at within behind
      omega
  | case3 old rest _ beyond =>
      intro start reached chained _
      exact absurd (chained.1 ▸ reached) (Nat.not_le_of_gt beyond)
  | case4 old rest _ beyond found =>
      intro start _ chained _
      refine .stay (Nat.le_of_not_gt beyond) ⟨rfl, chained.2⟩ ?_ (fun none => by cases none)
      intro element same
      cases same
      rw [← found.1]
      exact ⟨OldElement.isReusable_iff.mp found.2, rfl⟩
  | case5 old rest ahead beyond missed leaf shape =>
      intro start _ chained spans
      refine .stay (Nat.le_of_not_gt beyond) ⟨rfl, chained.2⟩ (fun _ none => by cases none) ?_
      rintro _ other reusable here ⟨before, among, below⟩
      rcases List.mem_cons.mp among with rfl | others
      · rcases below.cases_head with rfl | ⟨child, member, _⟩
        · exact missed ⟨here, OldElement.isReusable_iff.mpr reusable⟩
        · unfold OldElement.children at member
          rw [shape] at member
          exact absurd member List.not_mem_nil
      · exact not_below_rest chained.2 (Nat.lt_of_not_ge ahead)
          (fun one member => spans one (List.mem_cons_of_mem _ member)) here ⟨before, others, below⟩
  | case6 old rest ahead beyond missed head children shape ih =>
      intro start reached chained spans
      have isChildren : old.children = OldElement.ofChildren old.start children := by
        unfold OldElement.children
        rw [shape]
        rfl
      have length : old.start + lengthOf children = old.stop := by
        have whole := OldElement.stop_eq_children (spans old List.mem_cons_self).here (by rw [shape]; rfl)
        rwa [shape] at whole
      have sought := ih old.start (Nat.le_of_not_gt beyond)
        (OldElement.chained_ofChildren children old.start (length ▸ chained.2)) ?_
      · refine sought.open isChildren (fun reusable here => missed ⟨?_, OldElement.isReusable_iff.mpr reusable⟩)
        exact Nat.le_antisymm (Nat.le_of_not_gt beyond) here
      · intro other member
        rcases List.mem_append.mp member with inside | others
        · exact OldElement.everywhere_of_mem_children (spans old List.mem_cons_self) (isChildren ▸ inside)
        · exact spans other (List.mem_cons_of_mem _ others)

/-! ### Many requests -/

def entering (cursor : ReuseCursor) : List OldElement :=
  match cursor.pending with
  | ⟨start, .node head (first :: others)⟩ :: _ => [⟨start, .node head (first :: others)⟩]
  | _ => []

/-- Cursors over an old tree that requests at growing positions and entering elements lead to, with the
position of the last request and the elements that were entered. The root is entered from the beginning. -/
inductive Requested (root : Node) (change : Change) : ReuseCursor → Nat → List OldElement → Prop
  | start : Requested root change (.start root change) 0 [⟨0, root.element⟩]
  | candidate {cursor : ReuseCursor} {last : Nat} {entered : List OldElement} (position : Nat) :
      Requested root change cursor last entered → last ≤ position →
      Requested root change (cursor.candidate position).2 position entered
  | descend {cursor : ReuseCursor} {last : Nat} {entered : List OldElement} :
      Requested root change cursor last entered →
      Requested root change cursor.descend last (cursor.entering ++ entered)

/-- What holds of a cursor between requests. The elements still to come tile the old text from where the
last request was, nothing that was entered lies in them, and everything else further on does. -/
structure Stands (root : Node) (change : Change) (cursor : ReuseCursor) (last : Nat)
    (entered : List OldElement) : Prop where
  change_eq : cursor.change = change
  among : ∀ old, old ∈ cursor.pending → OldElement.Below ⟨0, root.element⟩ old
  fresh : ∀ old, old ∈ cursor.pending → ∀ outer, outer ∈ entered → 0 < outer.element.textLength →
    ¬ old.Below outer
  covers : ∃ reached start, start ≤ reached ∧ OldElement.Chained start cursor.pending ∧
    (∀ position target, last ≤ position → change.toOld position = some target → reached ≤ target) ∧
    ∀ old : OldElement, OldElement.Below ⟨0, root.element⟩ old → old.Reusable change → old ∉ entered →
      reached ≤ old.start → ∃ outer, outer ∈ cursor.pending ∧ outer.Below old

variable {root : Node} {change : Change} {cursor : ReuseCursor} {last : Nat} {entered : List OldElement}

theorem start_stands : Stands root change (start root change) 0 [⟨0, root.element⟩] where
  change_eq := rfl
  among := fun _ member => .child (.refl _) member
  fresh := by
    intro old member outer among _ below
    cases List.mem_singleton.mp among
    exact OldElement.not_below_of_mem_children member below
  covers := by
    refine ⟨0, 0, Nat.le_refl 0, ?_, fun _ target _ _ => Nat.zero_le target, ?_⟩
    · have chained := @OldElement.chained_ofChildren [] root.children 0 trivial
      rwa [List.append_nil] at chained
    · intro old below _ other _
      rcases below.cases_head with rfl | found
      · exact absurd List.mem_cons_self other
      · exact found

theorem toOld_mono {oldSize newSize : Nat} (between : change.Between oldSize newSize)
    {earlier later target other : Nat} (order : earlier ≤ later) (first : change.toOld earlier = some target)
    (second : change.toOld later = some other) : target ≤ other := by
  have oldOrder := between.start_le_old
  have newOrder := between.start_le_new
  unfold Change.toOld at first second
  split at first <;> split at second
  · cases first
    cases second
    exact order
  · split at second
    · cases first
      cases second
      omega
    · cases second
  · omega
  · split at first
    · split at second
      · cases first
        cases second
        omega
      · cases second
    · cases first

section Steps

variable (whole : root.element.Everywhere Element.Spans)

include whole

theorem Stands.spans (stands : Stands root change cursor last entered) :
    ∀ old, old ∈ cursor.pending → old.element.Everywhere Element.Spans :=
  fun old member => ((stands.among old member).within whole).1

theorem Stands.candidate {oldSize newSize : Nat} (between : change.Between oldSize newSize)
    (stands : Stands root change cursor last entered) {position : Nat} (order : last ≤ position) :
    Stands root change (cursor.candidate position).2 position entered := by
  obtain ⟨reached, start, before, chained, ahead, covers⟩ := stands.covers
  unfold ReuseCursor.candidate
  rw [stands.change_eq]
  cases place : change.toOld position with
  | none =>
      exact ⟨stands.change_eq, stands.among, stands.fresh, reached, start, before, chained,
        fun later target further => ahead later target (Nat.le_trans order further), covers⟩
  | some target =>
      have here := ahead position target order place
      have sought := seek_sought change target cursor.pending start (Nat.le_trans before here) chained
        (stands.spans whole)
      obtain ⟨first, low, left⟩ := sought.chained
      refine ⟨rfl, ?_, ?_, target, first, low, left, ?_, ?_⟩
      · intro old member
        obtain ⟨outer, among, below⟩ := sought.among old member
        exact (stands.among outer among).trans below
      · intro old member outer seen positive below
        obtain ⟨above, among, deeper⟩ := sought.among old member
        exact stands.fresh above among outer seen positive (deeper.trans below)
      · exact fun later other further found => toOld_mono between further place found
      · intro old below reusable other further
        exact sought.keeps old reusable further (covers old below reusable other (Nat.le_trans here further))

theorem Stands.enter (stands : Stands root change cursor last entered) {next : OldElement}
    {rest : List OldElement} (pending : cursor.pending = next :: rest)
    (isNode : next.element.isToken = false) :
    Stands root change { cursor with pending := next.children ++ rest } last (next :: entered) := by
  obtain ⟨reached, start, before, chained, ahead, covers⟩ := stands.covers
  rw [pending] at chained
  have member : next ∈ cursor.pending := pending ▸ List.mem_cons_self
  have others : ∀ old, old ∈ rest → old ∈ cursor.pending :=
    fun old among => pending ▸ List.mem_cons_of_mem _ among
  have nextSpans := stands.spans whole next member
  refine ⟨stands.change_eq, ?_, ?_, reached, start, before, ?_, ahead, ?_⟩
  · intro old among
    rcases List.mem_append.mp among with child | later
    · exact (stands.among next member).child child
    · exact stands.among old (others old later)
  · intro old among outer seen positive below
    rcases List.mem_append.mp among with child | later
    · rcases List.mem_cons.mp seen with rfl | earlier
      · exact OldElement.not_below_of_mem_children child below
      · exact stands.fresh next member outer earlier positive
          ((OldElement.Below.child (.refl next) child).trans below)
    · rcases List.mem_cons.mp seen with rfl | earlier
      · have low := chained.2.start_le old later
        have within := (below.within (stands.spans whole old (others old later))).2.1
        unfold OldElement.stop at low
        omega
      · exact stands.fresh old (others old later) outer earlier positive below
  · rw [← chained.1]
    exact OldElement.chained_ofChildren _ _
      ((OldElement.stop_eq_children nextSpans.here isNode).symm ▸ chained.2)
  · intro old below reusable other further
    obtain ⟨outer, among, inside⟩ := covers old below reusable
      (fun seen => other (List.mem_cons_of_mem _ seen)) further
    rw [pending] at among
    rcases List.mem_cons.mp among with rfl | later
    · rcases inside.cases_head with rfl | ⟨child, isChild, deeper⟩
      · exact absurd List.mem_cons_self other
      · exact ⟨child, List.mem_append_left _ isChild, deeper⟩
    · exact ⟨outer, List.mem_append_right _ later, inside⟩

theorem Stands.descend (stands : Stands root change cursor last entered) :
    Stands root change cursor.descend last (cursor.entering ++ entered) := by
  unfold ReuseCursor.descend entering
  cases pending : cursor.pending with
  | nil => exact stands
  | cons next rest =>
      obtain ⟨start, element⟩ := next
      cases element with
      | token leaf => exact stands
      | node head children =>
          cases children with
          | nil => exact stands
          | cons first others => exact stands.enter whole pending rfl

theorem Requested.stands {oldSize newSize : Nat} (between : change.Between oldSize newSize)
    (requested : Requested root change cursor last entered) : Stands root change cursor last entered := by
  induction requested with
  | start => exact start_stands
  | candidate position _ order ih => exact ih.candidate whole between order
  | descend _ ih => exact ih.descend whole

end Steps

end ReuseCursor

/-! ### What is on offer -/

theorem OldElement.Reusable.agree {old new : Array UInt8} {change : Change} {position : Nat}
    {place : OldElement} (reusable : place.Reusable change) (between : change.Between old.size new.size)
    (describes : change.Describes old new) (here : change.toOld position = some place.start) :
    ∀ index, index < place.element.textLength + place.element.lookahead →
      (new[position + index]? : Option UInt8) = old[place.start + index]? := by
  intro index inside
  have order := between.start_le_old
  have positive := reusable.positive
  have unaffected := reusable.unaffected
  unfold OldElement.stop at unaffected
  unfold Change.toOld at here
  by_cases before : position < change.start
  · rw [if_pos before] at here
    cases here
    exact (describes.before (place.start + index) (by omega)).symm
  · rw [if_neg before] at here
    by_cases behind : position ≥ change.newEnd
    · rw [if_pos behind] at here
      have start : position - change.newEnd + change.oldEnd = place.start := Option.some.inj here
      have newPlace : position + index = change.newEnd + (position - change.newEnd + index) := by omega
      have oldPlace : place.start + index = change.oldEnd + (position - change.newEnd + index) := by omega
      rw [newPlace, oldPlace]
      exact (describes.after _).symm
    · rw [if_neg behind] at here
      cases here

theorem OldElement.Reusable.toOld_add {change : Change} {oldSize newSize position distance : Nat}
    {place : OldElement} (reusable : place.Reusable change) (between : change.Between oldSize newSize)
    (here : change.toOld position = some place.start) (inside : distance < place.element.textLength) :
    change.toOld (position + distance) = some (place.start + distance) := by
  have order := between.start_le_old
  have unaffected := reusable.unaffected
  unfold OldElement.stop at unaffected
  unfold Change.toOld at here ⊢
  split at here
  · cases here
    rw [if_pos (by omega)]
  · split at here
    · have start := Option.some.inj here
      rw [if_neg (by omega), if_pos (by omega)]
      congr 1
      omega
    · cases here

/-- Elements of an old tree that can be offered at an old offset. -/
structure OldElement.Available (root : Node) (change : Change) (entered : List OldElement) (target : Nat)
    (old : OldElement) : Prop where
  inside : Below ⟨0, root.element⟩ old
  begins : old.start = target
  reusable : old.Reusable change
  fresh : old ∉ entered

theorem ReuseCursor.Stands.answers {root : Node} {change : Change} {cursor : ReuseCursor} {last : Nat}
    {entered : List OldElement} (stands : Stands root change cursor last entered)
    (whole : root.element.Everywhere Element.Spans) {position target : Nat} (order : last ≤ position)
    (place : change.toOld position = some target) :
    (∀ element, (cursor.candidate position).1 = some element →
      OldElement.Available root change entered target ⟨target, element⟩ ∧
      (cursor.candidate position).2.pending.head? = some ⟨target, element⟩ ∧
      ∀ other : OldElement, other.Available root change entered target →
        OldElement.Below ⟨target, element⟩ other) ∧
    ((cursor.candidate position).1 = none →
      ∀ other : OldElement, ¬ other.Available root change entered target) := by
  obtain ⟨reached, start, before, chained, ahead, covers⟩ := stands.covers
  have here := ahead position target order place
  have sought := seek_sought change target cursor.pending start (Nat.le_trans before here) chained
    (stands.spans whole)
  have pending : ∀ other : OldElement, other.Available root change entered target →
      ∃ outer, outer ∈ cursor.pending ∧ outer.Below other :=
    fun other available =>
      covers other available.inside available.reusable available.fresh (available.begins ▸ here)
  unfold ReuseCursor.candidate
  rw [stands.change_eq, place]
  constructor
  · intro element found
    obtain ⟨reusable, first⟩ := sought.offers element found
    obtain ⟨outer, among, outside⟩ := sought.among _ (List.mem_of_mem_head? first)
    have below := (stands.among outer among).trans outside
    refine ⟨⟨below, rfl, reusable, ?_⟩, first, ?_⟩
    · exact fun seen => stands.fresh outer among _ seen reusable.positive outside
    · intro other available
      obtain ⟨holder, member, inside⟩ := sought.keeps other available.reusable
        (Nat.le_of_eq available.begins.symm) (pending other available)
      obtain ⟨rest, shape⟩ := List.head?_eq_some_iff.mp first
      obtain ⟨_, _, tiles⟩ := sought.chained
      change (seek change target cursor.pending).2 = ⟨target, element⟩ :: rest at shape
      rw [shape] at member tiles
      rcases List.mem_cons.mp member with rfl | later
      · exact inside
      · have positive := reusable.positive
        refine absurd ⟨holder, later, inside⟩ (not_below_rest tiles.2 ?_ ?_ available.begins)
        · exact Nat.lt_add_of_pos_right positive
        · intro one oneMember
          obtain ⟨above, aboveMember, deeper⟩ := sought.among one (shape ▸ List.mem_cons_of_mem _ oneMember)
          exact (deeper.within (stands.spans whole above aboveMember)).1
  · intro missed other available
    exact sought.misses missed other available.reusable available.begins (pending other available)

namespace Pairs

def prefixed : Array UInt8 := #[97, 98, 32] ++ text

def prefixing : InputEdit := .ofOffsets 0 0 3

theorem tree_text : tree.text = text := by
  obtain ⟨_, _, _, same, _, _⟩ := Parser.runFrom_ok parse_eq
  exact same

theorem prefixing_valid : prefixing.validate tree.text.size prefixed.size = .ok () := by
  rw [tree_text]
  exact eq_ok_of_toOption (by decide +kernel)

theorem prefixing_describes : prefixing.Describes tree.text prefixed where
  before := fun index inside => absurd inside (Nat.not_lt_zero index)
  after := by
    intro index
    change (tree.text[0 + index]? : Option UInt8) = (#[97, 98, 32] ++ text)[3 + index]?
    rw [tree_text, Nat.zero_add, Array.getElem?_append_right (Nat.le_add_right 3 index)]
    exact congrArg (fun place => (text[place]? : Option UInt8)) (Nat.add_sub_cancel_left 3 index).symm

end Pairs

namespace Doubled

def declaration : Declaration :=
  { Declaration.empty "doubled" with
    rules := #[("s", .choice [.literal "aa", .sequence [.literal "aa", .literal "a"]])] }

def table : Table where
  name := "doubled"
  version := 1
  kinds :=
    ⟨#[⟨"end", true, true, true⟩, ⟨"ERROR", true, true, true⟩, ⟨"aa", false, true, true⟩,
      ⟨"a", false, true, true⟩, ⟨"s", true, true, false⟩], #[]⟩
  terminalCount := 4
  ruleCount := 1
  productions := #[⟨⟨4⟩, [.terminal ⟨2⟩], [none], .plain⟩, ⟨⟨4⟩, [.terminal ⟨2⟩, .terminal ⟨3⟩], [none, none], .plain⟩]
  actions :=
    #[.error, .error, .shift ⟨2⟩, .error,
      .accept, .error, .error, .error,
      .reduce ⟨0⟩, .error, .error, .shift ⟨3⟩,
      .reduce ⟨1⟩, .error, .error, .error]
  gotos := #[some ⟨1⟩, none, none, none]
  stateModes := #[⟨1⟩, ⟨2⟩, ⟨3⟩, ⟨2⟩]
  lexModes := #[.ofList [⟨0⟩, ⟨2⟩, ⟨3⟩], .ofList [⟨2⟩], .ofList [⟨0⟩], .ofList [⟨0⟩, ⟨3⟩]]
  lexical := ⟨#[("aa", ⟨2⟩), ("a", ⟨3⟩)], #[], #[], none⟩
  conflicts := 0

def lexer : Lexer := .ofLiterals table Pairs.scanner [([97, 97], ⟨2⟩), ([97], ⟨3⟩)]

def parser : Parser := .ofLanguage ⟨lexer⟩

def text : Array UInt8 := #[97, 97]

theorem evaluates : declaration.compile.toOption = some table ∧
    (table.lexical.literals.toList.mapM (Lexer.markLiteral table Pairs.scanner)).toOption =
      some [([97, 97], ⟨2⟩, false), ([97], ⟨3⟩, false)] ∧
    (parser.parseWithin 100 text).toOption.isSome = true := by
  decide +kernel

theorem make_eq : Lexer.make table Pairs.scanner = .ok lexer :=
  Lexer.make_ofLiterals rfl rfl rfl rfl (eq_ok_of_toOption evaluates.2.1)

theorem accepted : parser.language.Accepted :=
  ⟨declaration, Pairs.scanner, ClassScanner.toScanner_throughCursor _,
    bind_ok.mpr ⟨table, eq_ok_of_toOption evaluates.1, bind_ok.mpr ⟨lexer, make_eq, rfl⟩⟩⟩

def longer : Array UInt8 := #[97, 97, 97]

def insertion : InputEdit := .ofOffsets 1 1 2

def tree : ParsedTree := (parser.parseWithin 100 text).toOption.get evaluates.2.2

theorem produced : tree.Produced := .parsed accepted (eq_ok_get evaluates.2.2)

theorem tree_text : tree.text = text := by
  obtain ⟨_, _, _, same, _, _⟩ := Parser.runFrom_ok (eq_ok_get evaluates.2.2)
  exact same

theorem describes : insertion.Describes tree.text longer where
  before := by
    intro index inside
    have first : index = 0 := Nat.lt_one_iff.mp inside
    rw [tree_text, first]
    rfl
  after := by
    intro index
    change (tree.text[1 + index]? : Option UInt8) = longer[2 + index]?
    rw [tree_text, show text = #[97] ++ #[97] from rfl, show longer = #[97, 97] ++ #[97] from rfl,
      Array.getElem?_append_right (Nat.le_add_right 1 index),
      Array.getElem?_append_right (Nat.le_add_right 2 index)]
    exact congrArg (fun place => (#[97][place]? : Option UInt8))
      ((Nat.add_sub_cancel_left 1 index).trans (Nat.add_sub_cancel_left 2 index).symm)

end Doubled

end IncrementalParsing
