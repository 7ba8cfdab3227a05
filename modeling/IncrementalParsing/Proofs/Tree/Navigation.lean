import IncrementalParsing.Proofs.Tree.Slots
import IncrementalParsing.Tree.Handle

/-!
Navigation from handles. From outside no rope is seen: the children of a node are found in text order with
their offsets and fields, siblings lead through them in both directions, and a handle moves as the location
of its element does.
-/

namespace IncrementalParsing

namespace Handle

/-! ### Handles in a tree -/

def Sits (parent handle : Handle) : Prop :=
  ∃ slot, Slot.Points parent.here.element.children parent.here.offset slot ∧ parent.elementAt slot = .ok handle

/-- The handles of the elements of a tree. -/
inductive Stands (tree : Tree) : Handle → Prop
  | root : Stands tree (.root tree)
  | child {parent handle : Handle} : Stands tree parent → parent.Sits handle → Stands tree handle

/-- The handles that a move leads through, one after another, until it leads nowhere. -/
inductive Visits (move : Handle → Except Fault (Option Handle)) : Option Handle → List Handle → Prop
  | ended : Visits move none []
  | visit {handle : Handle} {next : Option Handle} {rest : List Handle} :
      move handle = .ok next → Visits move next rest → Visits move (some handle) (handle :: rest)

section Moves

variable {parent handle other : Handle} {slot : Slot}

theorem elementAt?_some (found : parent.elementAt slot = .ok handle) :
    parent.elementAt? (some slot) = .ok (some handle) := by
  rw [elementAt?, found]
  rfl

theorem siblings_eq (found : parent.elementAt slot = .ok handle) :
    handle.nextSiblingOrToken? = parent.elementAt? slot.advance ∧
      handle.prevSiblingOrToken? = (do parent.elementAt? (← slot.retreat)) := by
  obtain ⟨here, _, rfl⟩ := elementAt_ok.mp found
  exact ⟨rfl, rfl⟩

theorem exists_elementAt (points : Slot.Points parent.here.element.children parent.here.offset slot) :
    ∃ handle, parent.elementAt slot = .ok handle ∧ parent.Sits handle := by
  obtain ⟨here, current, _⟩ := points.exists_current
  have found : parent.elementAt slot = .ok (parent.seated slot here) := elementAt_ok.mpr ⟨here, current, rfl⟩
  exact ⟨_, found, slot, points, found⟩

/-! ### Children -/

theorem childrenFrom_last (found : parent.elementAt slot = .ok handle) (ended : slot.advance = none) :
    parent.childrenFrom slot = .ok [handle] := by
  rw [childrenFrom]
  split
  · rename_i fault fails
    cases found.symm.trans fails
  · rename_i again at_
    cases found.symm.trans at_
    split
    · rfl
    · rename_i next advances
      cases ended.symm.trans advances

theorem childrenFrom_more {next : Slot} {rest : List Handle} (found : parent.elementAt slot = .ok handle)
    (advances : slot.advance = some next) (later : parent.childrenFrom next = .ok rest) :
    parent.childrenFrom slot = .ok (handle :: rest) := by
  rw [childrenFrom]
  split
  · rename_i fault fails
    cases found.symm.trans fails
  · rename_i again at_
    cases found.symm.trans at_
    split
    · rename_i ended
      cases ended.symm.trans advances
    · rename_i further there
      cases advances.symm.trans there
      rw [later]
      rfl

theorem childrenFrom_spec (points : Slot.Points parent.here.element.children parent.here.offset slot) :
    ∃ handle rest, parent.elementAt slot = .ok handle ∧ parent.childrenFrom slot = .ok (handle :: rest) ∧
      Visits nextSiblingOrToken? (some handle) (handle :: rest) ∧
      (handle :: rest).map (·.here) = slot.onward ∧
      (∀ kid, kid ∈ handle :: rest → parent.Sits kid) ∧
      (handle :: rest).map location =
        Location.spread parent.here parent.location.path slot.before.reverse slot.onward := by
  induction size : slot.remaining using Nat.strongRecOn generalizing slot with
  | ind count ih =>
      obtain ⟨here, current, onwards⟩ := points.exists_current
      have found : parent.elementAt slot = .ok (parent.seated slot here) := elementAt_ok.mpr ⟨here, current, rfl⟩
      have sits : parent.Sits (parent.seated slot here) := ⟨slot, points, found⟩
      have siblings := (siblings_eq found).1
      rcases points.advance_cases current with ⟨ended, nothing, _⟩ | ⟨next, advances, pointsNext, before, after⟩
      · rw [ended] at siblings
        refine ⟨_, [], found, childrenFrom_last found ended, .visit siblings .ended, ?_, ?_, ?_⟩
        · rw [onwards, nothing]
          rfl
        · intro kid member
          cases List.mem_singleton.mp member
          exact sits
        · rw [onwards, nothing, Location.spread, Location.spread, ← nothing]
          rfl
      · have fewer : next.remaining < count := size ▸ Slot.remaining_advance current advances
        obtain ⟨sibling, rest, at_, later, visits, same, sit, spread⟩ := ih next.remaining fewer pointsNext rfl
        rw [advances, elementAt?_some at_] at siblings
        refine ⟨_, sibling :: rest, found, childrenFrom_more found advances later, .visit siblings visits, ?_, ?_, ?_⟩
        · rw [onwards, after, ← same]
          rfl
        · intro kid member
          rcases List.mem_cons.mp member with rfl | among
          · exact sits
          · exact sit kid among
        · rw [onwards, Location.spread, after, List.map_cons, spread, before, List.reverse_append]
          rw [← after]
          rfl

/-! ### Siblings -/

theorem Sits.prev_of_next (sits : parent.Sits handle) (next : handle.nextSiblingOrToken? = .ok (some other)) :
    parent.Sits other ∧ other.prevSiblingOrToken? = .ok (some handle) := by
  obtain ⟨slot, points, found⟩ := sits
  obtain ⟨here, current, _⟩ := elementAt_ok.mp found
  rw [(siblings_eq found).1] at next
  rcases points.advance_cases current with ⟨ended, _⟩ | ⟨after, advances, pointsAfter, _⟩
  · rw [ended] at next
    cases next
  · obtain ⟨sibling, there, sitsToo⟩ := exists_elementAt pointsAfter
    rw [advances, elementAt?_some there] at next
    cases next
    refine ⟨sitsToo, ?_⟩
    rw [(siblings_eq there).2, (Slot.advance_iff_retreat points pointsAfter).mp advances]
    exact elementAt?_some found

theorem Sits.next_of_prev (sits : parent.Sits handle) (prev : handle.prevSiblingOrToken? = .ok (some other)) :
    parent.Sits other ∧ other.nextSiblingOrToken? = .ok (some handle) := by
  obtain ⟨slot, points, found⟩ := sits
  rw [(siblings_eq found).2] at prev
  rcases points.retreat_cases with ⟨ended, _⟩ | ⟨before, retreats, pointsBefore, advances⟩
  · rw [ended] at prev
    cases prev
  · obtain ⟨sibling, there, sitsToo⟩ := exists_elementAt pointsBefore
    rw [retreats, ok_bind, elementAt?_some there] at prev
    cases prev
    refine ⟨sitsToo, ?_⟩
    rw [(siblings_eq there).1, advances]
    exact elementAt?_some found

/-- A handle whose next sibling is asked for has none or another handle of the same parent, and the location
of the one leads to that of the other. -/
theorem Sits.next_spec (sits : parent.Sits handle) : ∃ next, handle.nextSiblingOrToken? = .ok next ∧
    next.map location = handle.location.nextSiblingOrToken? ∧ (next = none →
      parent.lastChildOrToken? = .ok (some handle)) := by
  obtain ⟨slot, points, found⟩ := sits
  obtain ⟨here, current, rfl⟩ := elementAt_ok.mp found
  rw [(siblings_eq found).1]
  change ∃ next, _ ∧ _ = Location.nextSiblingOrToken? ⟨here, ⟨parent.here, slot.before.reverse, slot.after⟩ ::
    parent.location.path⟩ ∧ _
  rcases points.advance_cases current with ⟨ended, nothing, isLast⟩ | ⟨next, advances, pointsNext, before, after⟩
  · refine ⟨none, by rw [ended, elementAt?], by rw [nothing]; rfl, fun _ => ?_⟩
    unfold lastChildOrToken?
    rw [isLast, ok_bind, elementAt?_some found]
  · obtain ⟨there, currentNext, onwards⟩ := pointsNext.exists_current
    have at_ : parent.elementAt next = .ok (parent.seated next there) := elementAt_ok.mpr ⟨there, currentNext, rfl⟩
    refine ⟨some (parent.seated next there), by rw [advances, elementAt?_some at_], ?_, fun none => by cases none⟩
    rw [after, onwards]
    change some (Location.mk there (⟨parent.here, next.before.reverse, next.after⟩ :: parent.location.path)) = _
    rw [before, List.reverse_append]
    rfl

theorem Sits.prev_spec (sits : parent.Sits handle) : ∃ prev, handle.prevSiblingOrToken? = .ok prev ∧
    prev.map location = handle.location.prevSiblingOrToken? := by
  obtain ⟨slot, points, found⟩ := sits
  obtain ⟨here, current, rfl⟩ := elementAt_ok.mp found
  rw [(siblings_eq found).2]
  change ∃ prev, _ ∧ _ = Location.prevSiblingOrToken? ⟨here, ⟨parent.here, slot.before.reverse, slot.after⟩ ::
    parent.location.path⟩
  rcases points.retreat_cases with ⟨ended, nothing⟩ | ⟨last, retreats, pointsLast, advances⟩
  · exact ⟨none, by rw [ended]; rfl, by rw [nothing]; rfl⟩
  · obtain ⟨there, currentLast, _⟩ := pointsLast.exists_current
    have at_ : parent.elementAt last = .ok (parent.seated last there) := elementAt_ok.mpr ⟨there, currentLast, rfl⟩
    refine ⟨some (parent.seated last there), by rw [retreats, ok_bind, elementAt?_some at_], ?_⟩
    rcases pointsLast.advance_cases currentLast with ⟨ended, _⟩ | ⟨next, found, _, before, after⟩
    · cases ended.symm.trans advances
    · cases found.symm.trans advances
      obtain ⟨again, same, onwards⟩ := points.exists_current
      cases current.symm.trans same
      rw [before, List.reverse_append]
      change some (Location.mk there (⟨parent.here, last.before.reverse, last.after⟩ :: parent.location.path)) = _
      rw [after, onwards]
      rfl

/-! ### All children -/

theorem Visits.last {move : Handle → Except Fault (Option Handle)} {start : Option Handle} {handles : List Handle}
    (visits : Visits move start handles) : ∀ last, handles.getLast? = some last → move last = .ok none := by
  induction visits with
  | ended => exact fun _ none => by cases none
  | @visit handle next rest moved later ih =>
      intro last isLast
      cases later with
      | ended =>
          cases isLast
          exact moved
      | visit => exact ih last (by rwa [List.getLast?_cons_cons] at isLast)

theorem Visits.reverse {move back : Handle → Except Fault (Option Handle)} {start : Option Handle}
    {handles : List Handle} (visits : Visits move start handles)
    (undoes : ∀ handle, handle ∈ handles → ∀ next, move handle = .ok (some next) → back next = .ok (some handle)) :
    ∀ {previous : Option Handle} {seen : List Handle}, Visits back previous seen →
      (∀ first, start = some first → back first = .ok previous) →
      Visits back (handles.getLast?.or previous) (handles.reverse ++ seen) := by
  induction visits with
  | ended => exact fun visited _ => visited
  | @visit handle next rest moved later ih =>
      intro previous seen visited begins
      have further := ih (fun other member => undoes other (List.mem_cons_of_mem _ member))
        (.visit (begins handle rfl) visited)
        (fun first same => undoes handle List.mem_cons_self first (by rw [moved, same]))
      rw [List.reverse_cons, List.append_assoc]
      cases rest with
      | nil => exact further
      | cons sibling rest =>
          rw [List.getLast?_cons, Option.some_or] at further
          rw [List.getLast?_cons_cons, List.getLast?_cons, Option.some_or]
          exact further

end Moves

/-- The children of a node: they are those that are seen from outside, in text order; from the first, siblings
lead forward through all of them, and from the last, siblings lead backward. -/
theorem children_spec (parent : Handle) : ∃ kids, parent.childrenWithTokens = .ok kids ∧
    kids.map (·.here) = parent.here.children ∧ (∀ kid, kid ∈ kids → parent.Sits kid) ∧
    parent.firstChildOrToken? = .ok kids.head? ∧ Visits nextSiblingOrToken? kids.head? kids ∧
    parent.lastChildOrToken? = .ok kids.getLast? ∧ Visits prevSiblingOrToken? kids.getLast? kids.reverse ∧
    kids.map location = parent.location.childrenWithTokens := by
  unfold childrenWithTokens firstChildOrToken?
  rcases @Slot.first_cases parent.here.element.children parent.here.offset with
    ⟨none, nothing, noLast⟩ | ⟨slot, first, points, begins, before, onwards⟩
  · have blank : parent.here.children = [] := nothing
    rw [none]
    refine ⟨[], rfl, blank.symm, fun _ impossible => absurd impossible List.not_mem_nil, rfl, .ended, ?_, .ended, ?_⟩
    · unfold lastChildOrToken?
      rw [noLast]
      rfl
    · change [] = Location.spread parent.here parent.location.path [] parent.here.children
      rw [blank, Location.spread]
  · obtain ⟨handle, rest, found, done, visits, same, sits, spread⟩ := childrenFrom_spec points
    rw [first]
    have backward : handle.prevSiblingOrToken? = .ok none := by
      rw [(siblings_eq found).2, begins]
      rfl
    have reversed := visits.reverse (fun kid member next moved => (sits kid member).prev_of_next moved |>.2)
      .ended (fun kid same => by cases same; exact backward)
    rw [Option.or_none, List.append_nil] at reversed
    refine ⟨handle :: rest, done, same.trans onwards, sits, elementAt?_some found, visits, ?_, reversed, ?_⟩
    · have isLast : (handle :: rest).getLast? = some (rest.getLast?.getD handle) := List.getLast?_cons
      rw [isLast]
      obtain ⟨next, moved, _, ends⟩ := (sits _ (List.mem_of_getLast? isLast)).next_spec
      exact ends (Except.ok.inj (moved.symm.trans (visits.last _ isLast)))
    · rw [spread, before, onwards]
      rfl

/-! ### Trees -/

section Trees

variable {tree : Tree} {handle other : Handle}

theorem Stands.siblings (stands : Stands tree handle) :
    (∃ next, handle.nextSiblingOrToken? = .ok next ∧ next.map location = handle.location.nextSiblingOrToken?) ∧
      ∃ prev, handle.prevSiblingOrToken? = .ok prev ∧ prev.map location = handle.location.prevSiblingOrToken? := by
  cases stands with
  | root => exact ⟨⟨none, rfl, rfl⟩, ⟨none, rfl, rfl⟩⟩
  | child _ sits =>
      obtain ⟨next, moved, same, _⟩ := sits.next_spec
      exact ⟨⟨next, moved, same⟩, sits.prev_spec⟩

theorem Stands.next_iff_prev (stands : Stands tree handle) (standsToo : Stands tree other) :
    handle.nextSiblingOrToken? = .ok (some other) ↔ other.prevSiblingOrToken? = .ok (some handle) := by
  constructor
  · intro next
    cases stands with
    | root => cases next
    | child _ sits => exact (sits.prev_of_next next).2
  · intro prev
    cases standsToo with
    | root => cases prev
    | child _ sits => exact (sits.next_of_prev prev).2

theorem Sits.parent?_eq {parent : Handle} (sits : parent.Sits handle) : handle.parent? = some parent := by
  obtain ⟨slot, _, found⟩ := sits
  obtain ⟨here, _, rfl⟩ := elementAt_ok.mp found
  rfl

theorem Stands.stays (stands : Stands tree handle) :
    (handle.parent? = some other ∨ handle.firstChildOrToken? = .ok (some other) ∨
      handle.lastChildOrToken? = .ok (some other) ∨ handle.nextSiblingOrToken? = .ok (some other) ∨
      handle.prevSiblingOrToken? = .ok (some other)) → Stands tree other := by
  obtain ⟨kids, _, _, sits, first, _, last, _⟩ := handle.children_spec
  rintro (up | down | down | beside | beside)
  · cases stands with
    | root => cases up
    | child above here =>
        cases here.parent?_eq.symm.trans up
        exact above
  · exact .child stands (sits other (List.mem_of_head? (Except.ok.inj (first.symm.trans down))))
  · exact .child stands (sits other (List.mem_of_getLast? (Except.ok.inj (last.symm.trans down))))
  · cases stands with
    | root => cases beside
    | child above here => exact .child above (here.prev_of_next beside).1
  · cases stands with
    | root => cases beside
    | child above here => exact .child above (here.next_of_prev beside).1

/-! ### Handles and locations -/

theorem getLast?_spread (parent : Placed) (path : List Crumb) (last : Placed) (items : List Placed) :
    ∀ before, (Location.spread parent path before (items ++ [last])).getLast? =
      some ⟨last, ⟨parent, items.reverse ++ before, []⟩ :: path⟩ := by
  induction items with
  | nil => exact fun _ => rfl
  | cons first rest ih =>
      intro before
      have later := ih (first :: before)
      cases shape : rest ++ [last] with
      | nil => simp at shape
      | cons next others =>
          rw [shape, Location.spread] at later
          rw [List.cons_append, shape, Location.spread, Location.spread, List.getLast?_cons_cons, later,
            List.reverse_cons, List.append_assoc, List.singleton_append]

theorem firstChildOrToken?_location (location : Location) :
    location.firstChildOrToken? = location.childrenWithTokens.head? := by
  unfold Location.firstChildOrToken? Location.childrenWithTokens
  cases location.here.children with
  | nil => rfl
  | cons first rest => rfl

theorem lastChildOrToken?_location (location : Location) :
    location.lastChildOrToken? = location.childrenWithTokens.getLast? := by
  unfold Location.lastChildOrToken? Location.childrenWithTokens
  rcases List.eq_nil_or_concat location.here.children with empty | ⟨items, last, same⟩
  · rw [empty]
    rfl
  · rw [same, List.concat_eq_append, getLast?_spread, List.reverse_append, List.append_nil]
    rfl

theorem Stands.moves (stands : Stands tree handle) :
    handle.parent?.map location = handle.location.parent? ∧
      (∃ kids, handle.childrenWithTokens = .ok kids ∧ kids.map location = handle.location.childrenWithTokens) ∧
      (∃ first, handle.firstChildOrToken? = .ok first ∧
        first.map location = handle.location.firstChildOrToken?) ∧
      (∃ last, handle.lastChildOrToken? = .ok last ∧ last.map location = handle.location.lastChildOrToken?) ∧
      (∃ next, handle.nextSiblingOrToken? = .ok next ∧
        next.map location = handle.location.nextSiblingOrToken?) ∧
      ∃ prev, handle.prevSiblingOrToken? = .ok prev ∧
        prev.map location = handle.location.prevSiblingOrToken? := by
  obtain ⟨kids, done, _, _, first, _, last, _, same⟩ := handle.children_spec
  refine ⟨?_, ⟨kids, done, same⟩, ⟨_, first, ?_⟩, ⟨_, last, ?_⟩, stands.siblings⟩
  · obtain ⟨here, path⟩ := handle
    cases path <;> rfl
  · rw [firstChildOrToken?_location, ← same, List.head?_map]
  · rw [lastChildOrToken?_location, ← same, List.getLast?_map]

/-- Ropes are not seen. The children of an element are those that are left when every rope is replaced by its
own children, with their offsets and fields; from the last of them, siblings lead backward through all of
them; and one element is the next sibling of another just where that is the previous sibling of the one. -/
theorem ropes_invisible (stands : Stands tree handle) :
    (∃ kids, handle.childrenWithTokens = .ok kids ∧
      kids.map (·.here) = flattenAll handle.here.offset none handle.here.element.children ∧
      (∀ kid, kid ∈ kids → Stands tree kid ∧ kid.parent? = some handle) ∧
      ∃ last, handle.lastChildOrToken? = .ok last ∧ Visits prevSiblingOrToken? last kids.reverse) ∧
    (∃ next, handle.nextSiblingOrToken? = .ok next) ∧ (∃ prev, handle.prevSiblingOrToken? = .ok prev) ∧
    ∀ other, Stands tree other →
      (handle.nextSiblingOrToken? = .ok (some other) ↔ other.prevSiblingOrToken? = .ok (some handle)) := by
  obtain ⟨kids, done, same, sits, _, _, last, backward, _⟩ := handle.children_spec
  obtain ⟨⟨next, moved, _⟩, prev, back, _⟩ := stands.siblings
  exact ⟨⟨kids, done, same, fun kid member => ⟨.child stands (sits kid member), (sits kid member).parent?_eq⟩,
    _, last, backward⟩, ⟨next, moved⟩, ⟨prev, back⟩, fun other standsToo => stands.next_iff_prev standsToo⟩

end Trees

/-! A node with ropes in ropes, some of them empty, and an empty node. -/

namespace Nested

def leaf (serial length : Nat) : Green.Element := .token ⟨serial, ⟨2⟩, [], length, ⟨1⟩, 0⟩

def node (height : Nat) (children : List Green.Child) : Green.Element :=
  (Green.Node.make 0 ⟨3⟩ children { Green.Origin.blank with ropeHeight := height }).element

def children : List Green.Child :=
  [⟨none, node 1 []⟩, ⟨none, leaf 1 1⟩, ⟨some ⟨0⟩, node 2 [⟨none, node 1 []⟩, ⟨none, node 1 [⟨none, leaf 2 2⟩]⟩]⟩,
    ⟨none, node 0 []⟩, ⟨none, node 1 []⟩]

def tree : Tree := ⟨Green.Node.make 0 ⟨3⟩ children Green.Origin.blank, #[97, 97, 97], ⟨#[], #[]⟩⟩

end Nested

theorem ropes_invisible_nested : Stands Nested.tree (root Nested.tree) ∧
    ∃ kids, (root Nested.tree).childrenWithTokens = .ok kids ∧
      kids.map (fun kid => (kid.here.element.serial, kid.here.offset, kid.here.field)) =
        [(1, 0, none), (2, 1, some ⟨0⟩), (0, 3, none)] ∧
      ∃ last, (root Nested.tree).lastChildOrToken? = .ok last ∧ Visits prevSiblingOrToken? last kids.reverse := by
  obtain ⟨⟨kids, done, same, _, backward⟩, _⟩ := ropes_invisible (.root : Stands Nested.tree (root Nested.tree))
  refine ⟨.root, kids, done, ?_, backward⟩
  have seen := congrArg (List.map fun placed => (placed.element.serial, placed.offset, placed.field)) same
  rw [List.map_map] at seen
  refine seen.trans ?_
  decide +kernel

end Handle

end IncrementalParsing
