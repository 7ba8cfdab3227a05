import IncrementalParsing.Proofs.Tree.Navigation
import IncrementalParsing.Proofs.Tree.Tokens
import IncrementalParsing.Tree.Links

/-!
What lies below an element. The children of an element can always be asked for, and from them everything
below it is found, each element once; the tokens among them come in text order.
-/

namespace IncrementalParsing.Handle

/-- The children of an element. -/
def kids (handle : Handle) : List Handle := handle.childrenWithTokens.toOption.getD []

/-- An element and everything below it. -/
inductive Below (top : Handle) : Handle → Prop
  | self : Below top top
  | child {parent handle : Handle} : Below top parent → parent.Sits handle → Below top handle

variable {top parent handle other kid : Handle}

theorem kids_spec (parent : Handle) : parent.childrenWithTokens = .ok parent.kids ∧
    parent.kids.map (·.here) = parent.here.children ∧ (∀ kid, kid ∈ parent.kids → parent.Sits kid) ∧
    parent.firstChildOrToken? = .ok parent.kids.head? ∧
    Visits nextSiblingOrToken? parent.kids.head? parent.kids ∧
    parent.lastChildOrToken? = .ok parent.kids.getLast? ∧
    Visits prevSiblingOrToken? parent.kids.getLast? parent.kids.reverse := by
  obtain ⟨kids, done, same, sits, first, forward, last, backward, _⟩ := parent.children_spec
  have isKids : parent.kids = kids := by
    rw [Handle.kids, done]
    rfl
  rw [isKids]
  exact ⟨done, same, sits, first, forward, last, backward⟩

/-! ### Children -/

theorem Visits.onward {move : Handle → Except Fault (Option Handle)} {later : List Handle} :
    ∀ {start : Option Handle} {earlier : List Handle}, Visits move start (earlier ++ handle :: later) →
      ∃ next, move handle = .ok next ∧ Visits move next later
  | _, [], .visit moved rest => ⟨_, moved, rest⟩
  | _, _ :: _, .visit _ rest => rest.onward

theorem Visits.start_eq {move : Handle → Except Fault (Option Handle)} {start : Option Handle}
    {handles : List Handle} (visits : Visits move start handles) : start = handles.head? := by
  cases visits <;> rfl

/-- From a child, siblings lead to the children behind it and to those before it. -/
theorem siblings_of_kids {before after : List Handle} (shape : parent.kids = before ++ kid :: after) :
    (kid.nextSiblingOrToken? = .ok after.head? ∧ Visits nextSiblingOrToken? after.head? after) ∧
      kid.prevSiblingOrToken? = .ok before.getLast? ∧
      Visits prevSiblingOrToken? before.getLast? before.reverse := by
  obtain ⟨_, _, _, _, forward, _, backward⟩ := parent.kids_spec
  rw [shape] at forward backward
  obtain ⟨next, moved, visits⟩ := forward.onward
  rw [List.reverse_append, List.reverse_cons, List.append_assoc, List.singleton_append] at backward
  obtain ⟨previous, back, visitsBack⟩ := backward.onward
  have isNext := visits.start_eq
  have isPrevious := visitsBack.start_eq
  rw [List.head?_reverse] at isPrevious
  subst isNext isPrevious
  exact ⟨⟨moved, visits⟩, back, visitsBack⟩

theorem Sits.first_of_prev (sits : parent.Sits kid) (none : kid.prevSiblingOrToken? = .ok none) :
    parent.kids.head? = some kid := by
  obtain ⟨slot, points, found⟩ := sits
  rw [(siblings_eq found).2] at none
  rcases Slot.retreat_cases points.leads with ⟨_, connected⟩ | ⟨last, retreats, pointsLast, _⟩
  · have first : Slot.first parent.here.element.children parent.here.offset = some slot :=
      (Slot.settleForward_connected connected).trans points.settleForward_eq
    obtain ⟨_, _, _, isFirst, _⟩ := parent.kids_spec
    rw [firstChildOrToken?, first, elementAt?_some found] at isFirst
    exact (Except.ok.inj isFirst).symm
  · obtain ⟨sibling, there, _⟩ := exists_elementAt pointsLast
    rw [retreats, ok_bind, elementAt?_some there] at none
    cases none

theorem mem_kids : kid ∈ parent.kids ↔ parent.Sits kid := by
  constructor
  · exact parent.kids_spec.2.2.1 kid
  · intro sits
    induction size : kid.weightBefore using Nat.strongRecOn generalizing kid with
    | ind count ih =>
        obtain ⟨previous, back, _⟩ := sits.prev_spec
        cases previous with
        | none => exact List.mem_of_mem_head? (sits.first_of_prev back)
        | some previous =>
            obtain ⟨sitsToo, moved⟩ := sits.next_of_prev back
            have among := ih previous.weightBefore (size ▸ weightBefore_prev back) sitsToo rfl
            obtain ⟨before, after, shape⟩ := List.append_of_mem among
            have isNext := moved.symm.trans (siblings_of_kids shape).1.1
            rw [shape]
            exact List.mem_append_right _ (List.mem_cons_of_mem _ (List.mem_of_mem_head? (Except.ok.inj isNext).symm))

theorem Visits.decreasing {start : Option Handle} {handles : List Handle}
    (visits : Visits nextSiblingOrToken? start handles) :
    handles.Pairwise (fun earlier later => later.weightAfter < earlier.weightAfter) := by
  induction visits with
  | ended => exact .nil
  | @visit handle next rest moved later ih =>
      refine .cons (fun sibling among => ?_) ih
      cases later with
      | ended => exact absurd among List.not_mem_nil
      | visit =>
          have lower := weightAfter_next moved
          rcases List.mem_cons.mp among with rfl | further
          · exact lower
          · exact Nat.lt_trans ((List.pairwise_cons.mp ih).1 sibling further) lower

theorem nodup_kids (parent : Handle) : parent.kids.Nodup := by
  apply parent.kids_spec.2.2.2.2.1.decreasing.imp
  intro earlier later lower same
  exact absurd lower (same ▸ Nat.lt_irrefl _)

theorem weight_of_mem_kids (among : kid ∈ parent.kids) :
    kid.here.element.weight < parent.here.element.weight := by
  have member := List.mem_map_of_mem (f := (·.here)) among
  rw [parent.kids_spec.2.1] at member
  have whole := parent.here.weight_children
  have within : kid.here.element.weight ≤ placedWeight parent.here.children := by
    obtain ⟨before, after, shape⟩ := List.append_of_mem member
    rw [shape, placedWeight_append, placedWeight_cons]
    omega
  omega

theorem kids_of_isToken (token : parent.isToken = true) : parent.kids = [] := by
  have none := parent.kids_spec.2.1
  rw [Placed.children_of_isToken token] at none
  exact List.map_eq_nil_iff.mp none

theorem induct {motive : Handle → Prop}
    (step : ∀ handle, (∀ kid, kid ∈ handle.kids → motive kid) → motive handle) (handle : Handle) :
    motive handle := by
  induction size : handle.here.element.weight using Nat.strongRecOn generalizing handle with
  | ind count ih =>
      exact step handle fun kid among => ih _ (size ▸ weight_of_mem_kids among) kid rfl

/-! ### Below an element -/

theorem Below.trans {middle : Handle} (below : top.Below middle) (further : middle.Below handle) :
    top.Below handle := by
  induction further with
  | self => exact below
  | child _ sits ih => exact .child ih sits

theorem below_of_mem_kids (among : kid ∈ parent.kids) (below : kid.Below handle) : parent.Below handle :=
  .trans (.child .self (mem_kids.mp among)) below

theorem Below.cases_head (below : top.Below handle) :
    handle = top ∨ ∃ kid, kid ∈ top.kids ∧ kid.Below handle := by
  induction below with
  | self => exact .inl rfl
  | @child parent handle _ sits ih =>
      right
      rcases ih with rfl | ⟨kid, among, below⟩
      · exact ⟨handle, mem_kids.mpr sits, .self⟩
      · exact ⟨kid, among, .child below sits⟩

theorem Below.eq_of_no_kids (below : top.Below handle) (noKids : top.kids = []) : handle = top := by
  rcases below.cases_head with same | ⟨kid, among, _⟩
  · exact same
  · rw [noKids] at among
    exact absurd among List.not_mem_nil

theorem stands_iff_below {tree : Tree} : Stands tree handle ↔ (root tree).Below handle := by
  constructor
  · intro stands
    induction stands with
    | root => exact .self
    | child _ sits ih => exact .child ih sits
  · intro below
    induction below with
    | self => exact .root
    | child _ sits ih => exact .child ih sits

theorem Stands.of_below {tree : Tree} (stands : Stands tree top) (below : top.Below handle) :
    Stands tree handle :=
  stands_iff_below.mpr ((stands_iff_below.mp stands).trans below)

theorem Sits.path_eq (sits : parent.Sits kid) :
    ∃ slot, kid.path = ⟨parent.here, slot⟩ :: parent.path ∧ slot.current = .ok kid.here := by
  obtain ⟨slot, _, found⟩ := sits
  obtain ⟨here, current, rfl⟩ := elementAt_ok.mp found
  exact ⟨slot, rfl, current⟩

theorem Below.path_suffix (below : top.Below handle) : top.path <:+ handle.path := by
  induction below with
  | self => exact List.suffix_refl _
  | child _ sits ih =>
      obtain ⟨slot, path, _⟩ := sits.path_eq
      rw [path]
      exact ih.trans (List.suffix_cons _ _)

theorem Below.eq_or_depth (below : top.Below handle) : handle = top ∨ top.depth < handle.depth := by
  cases below with
  | self => exact .inl rfl
  | child below sits =>
      obtain ⟨slot, path, _⟩ := sits.path_eq
      right
      rw [depth, depth, path, List.length_cons]
      exact Nat.lt_succ_of_le below.path_suffix.length_le

theorem Below.weight_le (below : top.Below handle) :
    handle = top ∨ handle.here.element.weight < top.here.element.weight := by
  induction below with
  | self => exact .inl rfl
  | child _ sits ih =>
      have less := weight_of_mem_kids (mem_kids.mpr sits)
      right
      rcases ih with rfl | below
      · exact less
      · exact Nat.lt_trans less below

theorem eq_of_below_kids (among : kid ∈ parent.kids) (amongToo : other ∈ parent.kids)
    (below : kid.Below handle) (belowToo : other.Below handle) : kid = other := by
  obtain ⟨slot, path, current⟩ := (mem_kids.mp among).path_eq
  obtain ⟨slotToo, pathToo, currentToo⟩ := (mem_kids.mp amongToo).path_eq
  have equalLength : kid.path.length = other.path.length := by rw [path, pathToo]; rfl
  have samePath : kid.path = other.path :=
    (List.suffix_of_suffix_length_le below.path_suffix belowToo.path_suffix
      (Nat.le_of_eq equalLength)).eq_of_length equalLength
  have sameSlot : slot = slotToo := by
    rw [path, pathToo] at samePath
    cases samePath
    rfl
  subst sameSlot
  obtain ⟨here, _⟩ := kid
  obtain ⟨hereToo, _⟩ := other
  cases samePath
  cases current.symm.trans currentToo
  rfl

/-! ### Tokens -/

def tokens (handle : Handle) : List Handle :=
  if handle.isToken then [handle] else handle.kids.attach.flatMap fun kid => tokens kid.1
termination_by handle.here.element.weight
decreasing_by exact weight_of_mem_kids kid.2

theorem tokens_token (token : handle.isToken = true) : handle.tokens = [handle] := by
  rw [tokens, if_pos token]

theorem tokens_node (node : handle.isToken = false) : handle.tokens = handle.kids.flatMap tokens := by
  rw [tokens, if_neg (Bool.eq_false_iff.mp node), List.flatMap_subtype (fun _ _ => rfl),
    List.unattach_attach]

theorem mem_tokens {token : Handle} :
    token ∈ handle.tokens ↔ handle.Below token ∧ token.isToken = true := by
  induction handle using induct with
  | step handle ih =>
      cases isToken : handle.isToken with
      | true =>
          rw [tokens_token isToken, List.mem_singleton]
          constructor
          · rintro rfl
            exact ⟨.self, isToken⟩
          · rintro ⟨below, _⟩
            exact below.eq_of_no_kids (kids_of_isToken isToken)
      | false =>
          rw [tokens_node isToken, List.mem_flatMap]
          constructor
          · rintro ⟨kid, among, member⟩
            obtain ⟨below, leaf⟩ := (ih kid among).mp member
            exact ⟨below_of_mem_kids among below, leaf⟩
          · rintro ⟨below, leaf⟩
            rcases below.cases_head with rfl | ⟨kid, among, below⟩
            · rw [isToken] at leaf
              cases leaf
            · exact ⟨kid, among, (ih kid among).mpr ⟨below, leaf⟩⟩

theorem nodup_tokens (handle : Handle) : handle.tokens.Nodup := by
  induction handle using induct with
  | step handle ih =>
      cases isToken : handle.isToken with
      | true =>
          rw [tokens_token isToken]
          exact List.nodup_singleton _
      | false =>
          rw [tokens_node isToken, List.nodup_flatMap]
          refine ⟨ih, handle.nodup_kids.imp_of_mem fun among amongToo different => ?_⟩
          intro token member memberToo
          exact different (eq_of_below_kids among amongToo (mem_tokens.mp member).1 (mem_tokens.mp memberToo).1)

structure Nested.Kids (first second blank : Handle) : Prop where
  kids : (root tree).kids = [first, second, blank]
  isFirst : first.isToken = true ∧ first.here.range = ⟨0, 1⟩
  isSecond : second.isToken = true ∧ second.here.range = ⟨1, 3⟩
  isBlank : blank.isToken = false ∧ blank.here.range = ⟨3, 3⟩
  noKids : blank.kids = []

theorem Nested.exists_kids : ∃ first second blank, Nested.Kids first second blank := by
  have seen : (root tree).kids.map (fun kid => (kid.here.children.length, kid.isToken, kid.here.range)) =
      [(0, true, ⟨0, 1⟩), (0, true, ⟨1, 3⟩), (0, false, ⟨3, 3⟩)] := by
    have same := congrArg (List.map fun placed => (placed.children.length, placed.isToken, placed.range))
      (root tree).kids_spec.2.1
    rw [List.map_map] at same
    refine same.trans ?_
    decide +kernel
  obtain ⟨first, _, kids, isFirst, others⟩ := List.map_eq_cons_iff.mp seen
  obtain ⟨second, _, rfl, isSecond, others⟩ := List.map_eq_cons_iff.mp others
  obtain ⟨blank, _, rfl, isBlank, others⟩ := List.map_eq_cons_iff.mp others
  cases List.map_eq_nil_iff.mp others
  simp only [Prod.mk.injEq] at isFirst isSecond isBlank
  have noKids := blank.kids_spec.2.1
  rw [List.length_eq_zero_iff.mp isBlank.1] at noKids
  exact ⟨first, second, blank, kids, isFirst.2, isSecond.2, isBlank.2, List.map_eq_nil_iff.mp noKids⟩

theorem Nested.Kids.below {first second blank : Handle} (nested : Nested.Kids first second blank) :
    ∀ handle, (root Nested.tree).Below handle →
      handle = root Nested.tree ∨ handle = first ∨ handle = second ∨ handle = blank := by
  intro handle below
  rcases below.cases_head with same | ⟨kid, among, further⟩
  · exact .inl same
  · rw [nested.kids] at among
    simp only [List.mem_cons, List.not_mem_nil, or_false] at among
    right
    rcases among with rfl | rfl | rfl
    · exact .inl (further.eq_of_no_kids (kids_of_isToken nested.isFirst.1))
    · exact .inr (.inl (further.eq_of_no_kids (kids_of_isToken nested.isSecond.1)))
    · exact .inr (.inr (further.eq_of_no_kids nested.noKids))

end IncrementalParsing.Handle
