import IncrementalParsing.Proofs.Tree.Subtree

/-!
Walks in preorder. The events of an element are given by recursion over what lies below it, ropes looked
through. A walk recites them one after another. A skip drops what is left of the innermost open node, and
whoever is not told about tokens hears the other events in the same order.
-/

namespace IncrementalParsing

namespace WalkEvent

def token? : WalkEvent → Option Handle
  | .token leaf => some leaf
  | .enter _ => none
  | .leave _ => none

def isOfNode (event : WalkEvent) : Bool := event.token?.isNone

def subject : WalkEvent → Handle
  | .token leaf => leaf
  | .enter node => node
  | .leave node => node

end WalkEvent

/-! ### The events of an element -/

namespace Handle

/-- A node is entered before everything below it and left after that. -/
def events (handle : Handle) : List WalkEvent :=
  if handle.isToken then [.token handle]
  else .enter handle :: (handle.kids.attach.flatMap (fun kid => events kid.1) ++ [.leave handle])
termination_by handle.here.element.weight
decreasing_by exact weight_of_mem_kids kid.2

variable {top handle kid : Handle}

theorem events_token (token : handle.isToken = true) : handle.events = [.token handle] := by
  rw [events, if_pos token]

theorem events_node (node : handle.isToken = false) :
    handle.events = .enter handle :: (handle.kids.flatMap events ++ [.leave handle]) := by
  rw [events, if_neg (Bool.eq_false_iff.mp node), List.flatMap_subtype (fun _ _ => rfl),
    List.unattach_attach]

theorem tokens_eq_events (handle : Handle) : handle.tokens = handle.events.filterMap WalkEvent.token? := by
  induction handle using induct with
  | step handle ih =>
      cases isToken : handle.isToken with
      | true =>
          rw [tokens_token isToken, events_token isToken]
          rfl
      | false =>
          rw [tokens_node isToken, events_node isToken, List.filterMap_cons_none rfl, List.filterMap_append,
            List.filterMap_cons_none rfl, List.filterMap_nil, List.append_nil, List.filterMap_flatMap]
          exact List.flatMap_congr ih

theorem below_of_mem_events {event : WalkEvent} (among : event ∈ handle.events) :
    handle.Below event.subject := by
  induction handle using induct with
  | step handle ih =>
      cases isToken : handle.isToken with
      | true =>
          rw [events_token isToken, List.mem_singleton] at among
          subst among
          exact .self
      | false =>
          rw [events_node isToken, List.mem_cons, List.mem_append, List.mem_singleton, List.mem_flatMap] at among
          rcases among with rfl | ⟨kid, inside, among⟩ | rfl
          · exact .self
          · exact below_of_mem_kids inside (ih kid inside among)
          · exact .self

theorem not_below_of_mem_kids (among : kid ∈ handle.kids) : ¬ kid.Below handle := by
  intro below
  have less := weight_of_mem_kids among
  rcases below.weight_le with same | lower
  · rw [same] at less
    exact Nat.lt_irrefl _ less
  · exact Nat.lt_asymm less lower

theorem nodup_events (handle : Handle) : handle.events.Nodup := by
  induction handle using induct with
  | step handle ih =>
      cases isToken : handle.isToken with
      | true =>
          rw [events_token isToken]
          exact List.nodup_singleton _
      | false =>
          have inner : (handle.kids.flatMap events).Nodup := by
            rw [List.nodup_flatMap]
            refine ⟨ih, handle.nodup_kids.imp_of_mem fun among amongToo different => ?_⟩
            intro event member memberToo
            exact different
              (eq_of_below_kids among amongToo (below_of_mem_events member) (below_of_mem_events memberToo))
          have apart : ∀ event : WalkEvent, event.subject = handle → event ∉ handle.kids.flatMap events := by
            rintro event rfl member
            obtain ⟨kid, inside, among⟩ := List.mem_flatMap.mp member
            exact not_below_of_mem_kids inside (below_of_mem_events among)
          rw [events_node isToken, List.nodup_cons, List.mem_append, List.mem_singleton, not_or]
          refine ⟨⟨apart _ rfl, WalkEvent.noConfusion⟩, inner.append (List.nodup_singleton _) ?_⟩
          rw [List.disjoint_singleton]
          exact apart _ rfl

theorem events_of_mem_kids (among : kid ∈ handle.kids) : ∃ before after,
    handle.events = before ++ (kid.events ++ after) := by
  cases isToken : handle.isToken with
  | true =>
      rw [kids_of_isToken isToken] at among
      exact absurd among List.not_mem_nil
  | false =>
      obtain ⟨earlier, later, shape⟩ := List.append_of_mem among
      refine ⟨.enter handle :: earlier.flatMap events, later.flatMap events ++ [.leave handle], ?_⟩
      rw [events_node isToken, shape]
      simp

theorem Below.events_split (below : top.Below handle) : ∃ before after,
    top.events = before ++ (handle.events ++ after) := by
  induction below with
  | self => exact ⟨[], [], by simp⟩
  | child _ sits ih =>
      obtain ⟨before, after, outer⟩ := ih
      obtain ⟨front, back, inner⟩ := events_of_mem_kids (mem_kids.mpr sits)
      refine ⟨before ++ front, back ++ after, ?_⟩
      rw [outer, inner]
      simp

end Handle

/-! ### Reciting a list of events -/

/-- What is behind the first leave whose node was entered before the list begins. `depth` nodes were
entered since. -/
def afterLeaving : Nat → List WalkEvent → Option (List WalkEvent)
  | _, [] => none
  | depth, .token _ :: later => afterLeaving depth later
  | depth, .enter _ :: later => afterLeaving (depth + 1) later
  | 0, .leave _ :: later => some later
  | depth + 1, .leave _ :: later => afterLeaving depth later

structure Recital where
  whole : List WalkEvent
  left : List WalkEvent

/-- What is asked of a walk. -/
inductive WalkCall where
  | next
  | skipSubtree
  | restart

namespace Recital

def of (whole : List WalkEvent) : Recital := ⟨whole, whole⟩

def next (recital : Recital) : Option WalkEvent × Recital :=
  (recital.left.head?, { recital with left := recital.left.tail })

def skipSubtree (recital : Recital) : Except Fault Recital :=
  match afterLeaving 0 recital.left with
  | none => .error .malformedArgument
  | some later => .ok { recital with left := later }

def restart (recital : Recital) : Recital := { recital with left := recital.whole }

/-- What the calls for the next event answer. -/
def answers (recital : Recital) : List WalkCall → Except Fault (List (Option WalkEvent))
  | [] => .ok []
  | .next :: script => do return recital.next.1 :: (← recital.next.2.answers script)
  | .skipSubtree :: script => do (← recital.skipSubtree).answers script
  | .restart :: script => recital.restart.answers script

end Recital

def Walk.answers (move : Walk → Except Fault (Option WalkEvent × Walk)) (walk : Walk) :
    List WalkCall → Except Fault (List (Option WalkEvent))
  | [] => .ok []
  | .next :: script => do
      let (event, after) ← move walk
      return event :: (← after.answers move script)
  | .skipSubtree :: script => do (← walk.skipSubtree).answers move script
  | .restart :: script => walk.restart.answers move script

/-! ### Skipping -/

theorem afterLeaving_flatMap {kids : List Handle} {depth : Nat}
    (balanced : ∀ kid, kid ∈ kids → ∀ later, afterLeaving depth (kid.events ++ later) = afterLeaving depth later)
    (later : List WalkEvent) :
    afterLeaving depth (kids.flatMap Handle.events ++ later) = afterLeaving depth later := by
  induction kids with
  | nil => rfl
  | cons kid kids ih =>
      rw [List.flatMap_cons, List.append_assoc, balanced kid List.mem_cons_self]
      exact ih fun other among => balanced other (List.mem_cons_of_mem _ among)

/-- Whatever is entered in the events of an element is left again. -/
theorem afterLeaving_events (handle : Handle) : ∀ (depth : Nat) (later : List WalkEvent),
    afterLeaving depth (handle.events ++ later) = afterLeaving depth later := by
  induction handle using Handle.induct with
  | step handle ih =>
      intro depth later
      cases isToken : handle.isToken with
      | true =>
          rw [Handle.events_token isToken]
          rfl
      | false =>
          rw [Handle.events_node isToken, List.cons_append, List.append_assoc]
          exact afterLeaving_flatMap (fun kid among => ih kid among (depth + 1)) _

theorem afterLeaving_filter (depth : Nat) (events : List WalkEvent) :
    afterLeaving depth (events.filter (·.isOfNode)) =
      (afterLeaving depth events).map (List.filter (·.isOfNode)) := by
  induction events generalizing depth with
  | nil => rfl
  | cons event later ih =>
      cases event with
      | token => exact ih depth
      | enter => exact ih (depth + 1)
      | leave =>
          cases depth with
          | zero => rfl
          | succ depth => exact ih depth

/-! ### What a walk has yet to say -/

inductive Handle.Comes (parent : Handle) : Option Slot → List Handle → Prop
  | ended : Comes parent none []
  | kid {slot : Slot} {kid : Handle} {later : List Handle} : parent.elementAt slot = .ok kid →
      Comes parent slot.advance later → Comes parent (some slot) (kid :: later)

theorem Handle.comes_of_childrenFrom {parent : Handle} {slot : Slot} {kids : List Handle}
    (found : parent.childrenFrom slot = .ok kids) : parent.Comes (some slot) kids := by
  fun_induction childrenFrom parent slot generalizing kids with
  | case1 => cases found
  | case2 slot handle points ended =>
      cases found
      refine .kid points ?_
      rw [ended]
      exact .ended
  | case3 slot handle points next advances ih =>
      obtain ⟨later, further, rfl⟩ := map_ok.mp found
      refine .kid points ?_
      rw [advances]
      exact ih further

theorem Handle.comes_first (parent : Handle) :
    parent.Comes (Slot.first parent.here.element.children parent.here.offset) parent.kids := by
  have found := parent.kids_spec.1
  unfold childrenWithTokens at found
  split at found
  · rename_i none
    rw [none, ← Except.ok.inj found]
    exact .ended
  · rename_i slot first
    rw [first]
    exact comes_of_childrenFrom found

namespace Walk

/-- What open nodes have yet to say: each the events of the children that come, and that it is left. -/
inductive Owed : List OpenNode → List WalkEvent → Prop
  | none : Owed [] []
  | node {node : Handle} {rest : Option Slot} {kids : List Handle} {outer : List OpenNode}
      {later : List WalkEvent} : node.Comes rest kids → Owed outer later →
      Owed (⟨node, rest⟩ :: outer) (kids.flatMap Handle.events ++ .leave node :: later)

inductive Due (start : Handle) : Walk → List WalkEvent → Prop
  | fresh : Due start ⟨start, [], true⟩ start.events
  | begun {opened : List OpenNode} {left : List WalkEvent} : Owed opened left →
      Due start ⟨start, opened, false⟩ left

variable {start : Handle} {walk : Walk} {left : List WalkEvent}

theorem Owed.opening (node : Handle) {outer : List OpenNode} {later : List WalkEvent} (owed : Owed outer later) :
    Owed (Walk.opening node :: outer) (node.kids.flatMap Handle.events ++ .leave node :: later) :=
  .node node.comes_first owed

theorem Due.next (isNode : start.isToken = false) (due : Due start walk left) :
    ∃ after, walk.next = .ok (left.head?, after) ∧ Due start after left.tail := by
  cases due with
  | fresh =>
      rw [Handle.events_node isNode]
      exact ⟨_, rfl, .begun (.opening start .none)⟩
  | begun owed =>
      cases owed with
      | none => exact ⟨_, rfl, .begun .none⟩
      | @node node rest kids outer later comes owed =>
          cases comes with
          | ended => exact ⟨_, rfl, .begun owed⟩
          | @kid slot kid later found comes =>
              simp only [Walk.next, found]
              cases isToken : kid.isToken with
              | true =>
                  rw [List.flatMap_cons, Handle.events_token isToken]
                  exact ⟨_, rfl, .begun (.node comes owed)⟩
              | false =>
                  rw [List.flatMap_cons, Handle.events_node isToken]
                  simp only [List.cons_append, List.append_assoc, List.nil_append]
                  exact ⟨_, rfl, .begun (.opening kid (.node comes owed))⟩

theorem Due.skipSubtree (due : Due start walk left) :
    match afterLeaving 0 left with
    | none => walk.skipSubtree = .error .malformedArgument
    | some later => ∃ after, walk.skipSubtree = .ok after ∧ Due start after later := by
  cases due with
  | fresh =>
      have whole := afterLeaving_events start 0 []
      rw [List.append_nil] at whole
      rw [whole]
      rfl
  | begun owed =>
      cases owed with
      | none => rfl
      | node comes owed =>
          rw [afterLeaving_flatMap fun kid _ => afterLeaving_events kid 0]
          exact ⟨_, rfl, .begun owed⟩

theorem Due.restart (due : Due start walk left) : Due start walk.restart start.events := by
  cases due <;> exact .fresh

/-! ### Tokens passed over -/

theorem nextNode_token {token : Handle} {after : Walk} (moves : walk.next = .ok (some (.token token), after)) :
    walk.nextNode = after.nextNode := by
  rw [nextNode]
  split
  · rename_i fails
    cases moves.symm.trans fails
  · rename_i finds
    cases moves.symm.trans finds
    rfl
  · rename_i other finds
    cases moves.symm.trans finds
    exact absurd rfl (other token)

theorem nextNode_other {event? : Option WalkEvent} {after : Walk} (moves : walk.next = .ok (event?, after))
    (other : ∀ token, event? ≠ some (.token token)) : walk.nextNode = .ok (event?, after) := by
  rw [nextNode]
  split
  · rename_i fails
    cases moves.symm.trans fails
  · rename_i token _ finds
    cases moves.symm.trans finds
    exact absurd rfl (other token)
  · rename_i finds
    cases moves.symm.trans finds
    rfl

theorem Due.nextNode (isNode : start.isToken = false) (due : Due start walk left) : ∃ after later,
    walk.nextNode = .ok ((left.filter (·.isOfNode)).head?, after) ∧ Due start after later ∧
      later.filter (·.isOfNode) = (left.filter (·.isOfNode)).tail := by
  induction left generalizing walk with
  | nil =>
      obtain ⟨after, moves, dueAfter⟩ := due.next isNode
      exact ⟨after, [], nextNode_other moves (fun _ same => by cases same), dueAfter, rfl⟩
  | cons event later ih =>
      obtain ⟨after, moves, dueAfter⟩ := due.next isNode
      cases event with
      | token token =>
          rw [nextNode_token moves]
          exact ih dueAfter
      | enter => exact ⟨after, later, nextNode_other moves (fun _ same => by cases same), dueAfter, rfl⟩
      | leave => exact ⟨after, later, nextNode_other moves (fun _ same => by cases same), dueAfter, rfl⟩

/-! ### Scripts -/

structure Recites (start : Handle) (move : Walk → Except Fault (Option WalkEvent × Walk))
    (view : List WalkEvent → List WalkEvent) : Prop where
  finds : ∀ (walk : Walk) (left : List WalkEvent), Due start walk left → ∃ after later,
    move walk = .ok ((view left).head?, after) ∧ Due start after later ∧ view later = (view left).tail
  skips : ∀ left, afterLeaving 0 (view left) = (afterLeaving 0 left).map view

theorem Recites.answers {move : Walk → Except Fault (Option WalkEvent × Walk)}
    {view : List WalkEvent → List WalkEvent} (recites : Recites start move view) (script : List WalkCall) :
    ∀ {walk : Walk} {left : List WalkEvent}, Due start walk left →
      walk.answers move script = Recital.answers ⟨view start.events, view left⟩ script := by
  induction script with
  | nil => exact fun _ => rfl
  | cons call script ih =>
      intro walk left due
      cases call with
      | next =>
          obtain ⟨after, later, moves, dueAfter, same⟩ := recites.finds walk left due
          rw [Walk.answers, Recital.answers, moves, ok_bind]
          simp only [Recital.next]
          rw [ih dueAfter, same]
      | skipSubtree =>
          have skipped := due.skipSubtree
          rw [Walk.answers, Recital.answers, Recital.skipSubtree, recites.skips]
          cases later? : afterLeaving 0 left with
          | none =>
              rw [later?] at skipped
              rw [skipped]
              rfl
          | some later =>
              rw [later?] at skipped
              obtain ⟨after, same, dueAfter⟩ := skipped
              rw [same]
              exact ih dueAfter
      | restart => exact ih due.restart

theorem recites_next (isNode : start.isToken = false) : Recites start Walk.next id where
  finds walk left due := by
    obtain ⟨after, moves, dueAfter⟩ := due.next isNode
    exact ⟨after, left.tail, moves, dueAfter, rfl⟩
  skips left := by simp

theorem recites_nextNode (isNode : start.isToken = false) :
    Recites start Walk.nextNode (List.filter (·.isOfNode)) where
  finds _ _ due := due.nextNode isNode
  skips := afterLeaving_filter 0

end Walk

namespace Recital

theorem answers_replicate (count : Nat) : ∀ recital : Recital,
    recital.answers (List.replicate count .next) = .ok ((List.range count).map (recital.left[·]?)) := by
  induction count with
  | zero => exact fun _ => rfl
  | succ count ih =>
      intro recital
      rw [List.replicate_succ, answers, ih, List.range_succ_eq_map, List.map_cons, List.map_map,
        ← List.head?_eq_getElem?]
      simp only [next, Function.comp_def, List.getElem?_tail]
      rfl

theorem answers_next {recital : Recital} {script : List WalkCall} {others : List (Option WalkEvent)}
    (further : recital.next.2.answers script = .ok others) :
    recital.answers (.next :: script) = .ok (recital.next.1 :: others) := by
  rw [answers, further]
  rfl

/-- The script without the calls that were answered by a token. -/
def withoutTokens : List WalkCall → List (Option WalkEvent) → List WalkCall
  | .next :: script, answer :: answers =>
      if answer.all (·.isOfNode) then .next :: withoutTokens script answers else withoutTokens script answers
  | call :: script, answers => call :: withoutTokens script answers
  | [], _ => []

theorem answers_withoutTokens {whole : List WalkEvent} (script : List WalkCall) :
    ∀ left answers, Recital.answers ⟨whole, left⟩ script = .ok answers →
      Recital.answers ⟨whole.filter (·.isOfNode), left.filter (·.isOfNode)⟩ (withoutTokens script answers) =
        .ok (answers.filter (·.all (·.isOfNode))) := by
  induction script with
  | nil =>
      intro left answers said
      cases said
      rfl
  | cons call script ih =>
      intro left answers said
      cases call with
      | next =>
          obtain ⟨others, further, same⟩ := bind_ok.mp said
          cases pure_ok.mp same
          cases left with
          | nil => exact answers_next (ih [] others further)
          | cons event later =>
              cases event with
              | token => exact ih later others further
              | enter => exact answers_next (ih later others further)
              | leave => exact answers_next (ih later others further)
      | skipSubtree =>
          obtain ⟨skipped, found, further⟩ := bind_ok.mp said
          rw [skipSubtree] at found
          cases later? : afterLeaving 0 left with
          | none =>
              rw [later?] at found
              cases found
          | some later =>
              rw [later?] at found
              cases found
              have shorter := afterLeaving_filter 0 left
              rw [later?] at shorter
              rw [withoutTokens, Recital.answers, skipSubtree, shorter]
              · exact ih later answers further
              · simp
      | restart => exact ih whole answers said

end Recital

/-! ### Walks -/

namespace Handle

variable {inner : Handle}

/-- A node below an element is entered once and left once, and its children come between. A skip amid the
children leads behind the leave. -/
theorem Below.events_around {top : Handle} (below : top.Below inner) (node : inner.isToken = false) :
    ∃ before after, top.events = before ++ .enter inner :: (inner.kids.flatMap events ++ .leave inner :: after) ∧
      ∀ done due, inner.kids = done ++ due →
        afterLeaving 0 (due.flatMap events ++ .leave inner :: after) = some after := by
  obtain ⟨before, after, shape⟩ := below.events_split
  refine ⟨before, after, ?_, fun done due _ => ?_⟩
  · rw [shape, events_node node]
    simp
  · rw [afterLeaving_flatMap fun kid _ => afterLeaving_events kid 0]
    rfl

/-- A walk with tokens and one without, under every script. Without skips the events of the node come one
after another, then none. No event comes twice; a node is entered before and left after all its children,
and a skip amid its children leads behind its leave. A walk without tokens recites the events that are
left when the tokens are taken out, and it answers the same to a script without the calls that a walk
with tokens answers by a token. -/
theorem walk_recites_preorder (node : Handle) (isNode : node.isToken = false) :
    (∀ script, (Walk.of node).answers Walk.next script = (Recital.of node.events).answers script) ∧
      (∀ count, (Walk.of node).answers Walk.next (List.replicate count .next) =
        .ok ((List.range count).map (node.events[·]?))) ∧
      node.events.Nodup ∧
      (∀ inner, node.Below inner → inner.childrenWithTokens = .ok inner.kids ∧
        inner.kids.map (·.here) = flattenAll inner.here.offset none inner.here.element.children) ∧
      (∀ inner, node.Below inner → inner.isToken = false → ∃ before after,
        node.events = before ++ .enter inner :: (inner.kids.flatMap events ++ .leave inner :: after) ∧
        ∀ done due, inner.kids = done ++ due →
          afterLeaving 0 (due.flatMap events ++ .leave inner :: after) = some after) ∧
      (∀ script, (Walk.of node).answers Walk.nextNode script =
        (Recital.of (node.events.filter (·.isOfNode))).answers script) ∧
      ∀ script answers, (Walk.of node).answers Walk.next script = .ok answers →
        (Walk.of node).answers Walk.nextNode (Recital.withoutTokens script answers) =
          .ok (answers.filter (·.all (·.isOfNode))) := by
  have withTokens : ∀ script, (Walk.of node).answers Walk.next script = (Recital.of node.events).answers script :=
    fun script => (Walk.recites_next isNode).answers script .fresh
  have without : ∀ script, (Walk.of node).answers Walk.nextNode script =
      (Recital.of (node.events.filter (·.isOfNode))).answers script :=
    fun script => (Walk.recites_nextNode isNode).answers script .fresh
  refine ⟨withTokens, fun count => ?_, node.nodup_events, fun inner _ => ⟨inner.kids_spec.1, inner.kids_spec.2.1⟩,
    fun _ below isInner => below.events_around isInner, without, fun script answers said => ?_⟩
  · rw [withTokens]
    exact Recital.answers_replicate count _
  · rw [withTokens] at said
    rw [without]
    exact Recital.answers_withoutTokens script _ _ said

/-- Two tokens in ropes and an empty node: a skip behind a token and one behind the empty node's enter. -/
theorem walk_recites_preorder_nested : (root Nested.tree).isToken = false ∧ ∃ first second blank,
    (root Nested.tree).kids = [first, second, blank] ∧
    (Walk.of (root Nested.tree)).answers Walk.next [.next, .next, .next, .next, .skipSubtree, .next, .next] =
      .ok [some (.enter (root Nested.tree)), some (.token first), some (.token second), some (.enter blank),
        some (.leave (root Nested.tree)), none] ∧
    (Walk.of (root Nested.tree)).answers Walk.nextNode [.next, .next, .skipSubtree, .skipSubtree, .restart, .next] =
      .ok [some (.enter (root Nested.tree)), some (.enter blank), some (.enter (root Nested.tree))] := by
  obtain ⟨withTokens, _, _, _, _, without, _⟩ := walk_recites_preorder (root Nested.tree) rfl
  obtain ⟨first, second, blank, kids, ⟨isFirst, _⟩, ⟨isSecond, _⟩, ⟨isBlank, _⟩, noKids⟩ :=
    Nested.exists_kids
  have events : (root Nested.tree).events = [.enter (root Nested.tree), .token first, .token second, .enter blank,
      .leave blank, .leave (root Nested.tree)] := by
    rw [events_node rfl, kids, List.flatMap_cons, List.flatMap_cons, List.flatMap_cons,
      events_token isFirst, events_token isSecond, events_node isBlank, noKids]
    rfl
  refine ⟨rfl, first, second, blank, kids, ?_, ?_⟩
  · rw [withTokens, events]
    rfl
  · rw [without, events]
    rfl

end Handle

end IncrementalParsing
