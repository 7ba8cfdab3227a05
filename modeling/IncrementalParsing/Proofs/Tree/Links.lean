import IncrementalParsing.Proofs.Tree.Traversal

/-!
Links between tokens. Whatever empty nodes lie between, the first and the last token of a node are those of
the list of its tokens, and the links from a token lead to its neighbours in the list of the whole tree.
-/

namespace IncrementalParsing

open Green

/-! ### The first token of a walk -/

namespace Walk

variable {start : Handle} {walk after : Walk} {left : List WalkEvent}

theorem nextToken?_none (moves : walk.next = .ok (none, after)) : walk.nextToken? = .ok none := by
  rw [nextToken?]
  split <;> rename_i found <;> cases moves.symm.trans found
  rfl

theorem nextToken?_token {token : Handle} (moves : walk.next = .ok (some (.token token), after)) :
    walk.nextToken? = .ok (some token) := by
  rw [nextToken?]
  split <;> rename_i found <;> cases moves.symm.trans found
  rfl

theorem nextToken?_other {event : WalkEvent} (moves : walk.next = .ok (some event, after))
    (other : event.token? = none) : walk.nextToken? = after.nextToken? := by
  rw [nextToken?]
  split <;> rename_i found <;> cases moves.symm.trans found
  · cases other
  · rfl
  · rfl

theorem Due.nextToken?_eq (isNode : start.isToken = false) (due : Due start walk left) :
    walk.nextToken? = .ok (left.filterMap WalkEvent.token?).head? := by
  induction left generalizing walk with
  | nil =>
      obtain ⟨after, moves, _⟩ := due.next isNode
      exact nextToken?_none moves
  | cons event later ih =>
      obtain ⟨after, moves, dueAfter⟩ := due.next isNode
      cases event with
      | token token => exact nextToken?_token moves
      | enter node => exact (nextToken?_other moves rfl).trans (ih dueAfter)
      | leave node => exact (nextToken?_other moves rfl).trans (ih dueAfter)

end Walk

namespace Handle

variable {tree : Tree} {top parent handle kid : Handle}

/-! ### The ends of a node -/

theorem firstToken?_eq (isNode : handle.isToken = false) : handle.firstToken? = .ok handle.tokens.head? := by
  have due : Walk.Due handle (Walk.of handle) handle.events := .fresh
  rw [firstToken?, due.nextToken?_eq isNode, tokens_eq_events]

theorem firstTokenFrom?_node (isNode : handle.isToken = false) {next : Option Handle}
    (moved : handle.nextSiblingOrToken? = .ok next) : firstTokenFrom? (some handle) = (do
      match ← handle.firstToken? with
      | some token => return some token
      | none => firstTokenFrom? next) := by
  rw [firstTokenFrom?, isNode, if_neg Bool.false_ne_true]
  cases handle.firstToken? with
  | error fault => rfl
  | ok token? =>
      cases token? with
      | some token => rfl
      | none =>
          rw [ok_bind, ok_bind]
          dsimp only
          split <;> rename_i found <;> cases moved.symm.trans found
          · rw [firstTokenFrom?]
          · rfl

theorem lastTokenFrom?_node (isNode : handle.isToken = false) {previous : Option Handle}
    (moved : handle.prevSiblingOrToken? = .ok previous) : lastTokenFrom? (some handle) = (do
      match ← handle.lastToken? with
      | some token => return some token
      | none => lastTokenFrom? previous) := by
  rw [lastTokenFrom?, isNode, if_neg Bool.false_ne_true]
  cases handle.lastToken? with
  | error fault => rfl
  | ok token? =>
      cases token? with
      | some token => rfl
      | none =>
          rw [ok_bind, ok_bind]
          dsimp only
          split <;> rename_i found <;> cases moved.symm.trans found
          · rw [lastTokenFrom?]
          · rfl

theorem firstTokenFrom?_eq {start : Option Handle} {handles : List Handle}
    (visits : Visits nextSiblingOrToken? start handles) :
    firstTokenFrom? start = .ok (handles.flatMap tokens).head? := by
  induction visits with
  | ended =>
      rw [firstTokenFrom?]
      rfl
  | @visit handle next rest moved later ih =>
      rw [List.flatMap_cons, List.head?_append]
      cases isToken : handle.isToken with
      | true =>
          rw [firstTokenFrom?, isToken, if_pos rfl, tokens_token isToken]
          rfl
      | false =>
          rw [firstTokenFrom?_node isToken moved, firstToken?_eq isToken, ok_bind, ih]
          cases handle.tokens.head? <;> rfl

theorem lastTokenFrom?_eq {start : Option Handle} {handles : List Handle}
    (visits : Visits prevSiblingOrToken? start handles)
    (each : ∀ handle, handle ∈ handles → handle.isToken = false → handle.lastToken? = .ok handle.tokens.getLast?) :
    lastTokenFrom? start = .ok (handles.reverse.flatMap tokens).getLast? := by
  induction visits with
  | ended =>
      rw [lastTokenFrom?]
      rfl
  | @visit handle previous rest moved later ih =>
      rw [List.reverse_cons, List.flatMap_append, List.flatMap_singleton, List.getLast?_append]
      cases isToken : handle.isToken with
      | true =>
          rw [lastTokenFrom?, isToken, if_pos rfl, tokens_token isToken]
          rfl
      | false =>
          rw [lastTokenFrom?_node isToken moved, each handle List.mem_cons_self isToken, ok_bind,
            ih fun other among => each other (List.mem_cons_of_mem _ among)]
          cases handle.tokens.getLast? <;> rfl

theorem lastToken?_from {last : Option Handle} (isLast : handle.lastChildOrToken? = .ok last) :
    handle.lastToken? = lastTokenFrom? last := by
  rw [lastToken?]
  split <;> rename_i found <;> cases isLast.symm.trans found
  · rw [lastTokenFrom?]
  · rfl

theorem lastToken?_eq (handle : Handle) :
    handle.isToken = false → handle.lastToken? = .ok handle.tokens.getLast? := by
  induction handle using induct with
  | step handle ih =>
      intro isNode
      obtain ⟨_, _, _, _, _, isLast, backward⟩ := handle.kids_spec
      have among := lastTokenFrom?_eq backward fun kid inside => ih kid (List.mem_reverse.mp inside)
      rw [List.reverse_reverse] at among
      rw [tokens_node isNode, ← among, lastToken?_from isLast]

/-! ### The links of a token -/

theorem nextToken?_root (tree : Tree) : (root tree).nextToken? = .ok none := by
  have moved : (root tree).nextSiblingOrToken? = .ok none := rfl
  rw [nextToken?, moved, ok_bind, firstTokenFrom?, ok_bind]
  dsimp only
  split <;> rename_i up
  · rfl
  · cases up

theorem prevToken?_root (tree : Tree) : (root tree).prevToken? = .ok none := by
  have moved : (root tree).prevSiblingOrToken? = .ok none := rfl
  rw [prevToken?, moved, ok_bind, lastTokenFrom?, ok_bind]
  dsimp only
  split <;> rename_i up
  · rfl
  · cases up

/-- Behind a child come the tokens of its later siblings, then those behind its parent. -/
theorem nextToken?_kid {before after : List Handle} (shape : parent.kids = before ++ kid :: after)
    {beyond : Option Handle} (outer : parent.nextToken? = .ok beyond) :
    kid.nextToken? = .ok ((after.flatMap tokens).head?.or beyond) := by
  have sits : parent.Sits kid := mem_kids.mp (shape ▸ List.mem_append_right _ List.mem_cons_self)
  obtain ⟨⟨moved, visits⟩, _⟩ := siblings_of_kids shape
  rw [nextToken?, moved, ok_bind, firstTokenFrom?_eq visits, ok_bind]
  cases (after.flatMap tokens).head? with
  | some token => rfl
  | none =>
      dsimp only
      split <;> rename_i up <;> cases sits.parent?_eq.symm.trans up
      exact outer

theorem prevToken?_kid {before after : List Handle} (shape : parent.kids = before ++ kid :: after)
    {beyond : Option Handle} (outer : parent.prevToken? = .ok beyond) :
    kid.prevToken? = .ok ((before.flatMap tokens).getLast?.or beyond) := by
  have sits : parent.Sits kid := mem_kids.mp (shape ▸ List.mem_append_right _ List.mem_cons_self)
  obtain ⟨_, moved, visits⟩ := siblings_of_kids shape
  have among := lastTokenFrom?_eq visits fun handle _ => handle.lastToken?_eq
  rw [List.reverse_reverse] at among
  rw [prevToken?, moved, ok_bind, among, ok_bind]
  cases (before.flatMap tokens).getLast? with
  | some token => rfl
  | none =>
      dsimp only
      split <;> rename_i up <;> cases sits.parent?_eq.symm.trans up
      exact outer

/-- The tokens of an element stand together among those of an element above it, and its links lead to those on
either side, or beyond the element above. -/
theorem Below.tokens_around (below : top.Below handle) {next previous : Option Handle}
    (forward : top.nextToken? = .ok next) (backward : top.prevToken? = .ok previous) :
    ∃ front back, top.tokens = front ++ (handle.tokens ++ back) ∧
      handle.nextToken? = .ok (back.head?.or next) ∧ handle.prevToken? = .ok (front.getLast?.or previous) := by
  induction below with
  | self => exact ⟨[], [], by simp, forward, backward⟩
  | @child parent handle _ sits ih =>
      obtain ⟨front, back, outer, ahead, behind⟩ := ih
      obtain ⟨before, after, shape⟩ := List.append_of_mem (mem_kids.mpr sits)
      have isNode : parent.isToken = false := by
        cases isToken : parent.isToken with
        | false => rfl
        | true => simp [kids_of_isToken isToken] at shape
      refine ⟨front ++ before.flatMap tokens, after.flatMap tokens ++ back, ?_, ?_, ?_⟩
      · rw [outer, tokens_node isNode, shape]
        simp
      · rw [nextToken?_kid shape ahead, List.head?_append, Option.or_assoc]
      · rw [prevToken?_kid shape behind, List.getLast?_append, Option.or_assoc]

theorem tokens_around_of_stands (stands : Stands tree handle) : ∃ front back,
    (root tree).tokens = front ++ (handle.tokens ++ back) ∧ handle.nextToken? = .ok back.head? ∧
      handle.prevToken? = .ok front.getLast? := by
  have around := (stands_iff_below.mp stands).tokens_around (nextToken?_root tree) (prevToken?_root tree)
  simpa only [Option.or_none] using around

theorem mem_root_tokens {token : Handle} :
    token ∈ (root tree).tokens ↔ Stands tree token ∧ token.isToken = true := by
  rw [mem_tokens, stands_iff_below]

theorem links_of_tokens {front back : List Handle} {token : Handle}
    (shape : (root tree).tokens = front ++ token :: back) :
    token.nextToken? = .ok back.head? ∧ token.prevToken? = .ok front.getLast? := by
  have among : token ∈ (root tree).tokens := shape ▸ List.mem_append_right _ List.mem_cons_self
  obtain ⟨stands, isToken⟩ := mem_root_tokens.mp among
  obtain ⟨before, after, around, forward, backward⟩ := tokens_around_of_stands stands
  have once := (root tree).nodup_tokens
  rw [tokens_token isToken, List.singleton_append] at around
  rw [around, List.nodup_middle, List.nodup_cons, List.mem_append, not_or] at once
  obtain ⟨rfl, _, rfl⟩ := (List.append_cons_inj_of_notMem once.1.1 once.1.2).mp (around.symm.trans shape)
  exact ⟨forward, backward⟩

theorem visits_tokens : ∀ {front back : List Handle}, (root tree).tokens = front ++ back →
    Visits nextToken? back.head? back
  | _, [], _ => .ended
  | front, token :: back, shape =>
      .visit (links_of_tokens shape).1 (visits_tokens ((List.append_cons front token back).symm ▸ shape))

theorem nextToken?_iff {token other : Handle} (stands : Stands tree token) (isToken : token.isToken = true)
    (standsToo : Stands tree other) (isTokenToo : other.isToken = true) :
    token.nextToken? = .ok (some other) ↔ other.prevToken? = .ok (some token) := by
  constructor
  · intro next
    obtain ⟨front, back, shape⟩ := List.append_of_mem (mem_root_tokens.mpr ⟨stands, isToken⟩)
    have isNext := (links_of_tokens shape).1.symm.trans next
    cases back with
    | nil => cases isNext
    | cons second back =>
        cases isNext
        rw [List.append_cons] at shape
        rw [(links_of_tokens shape).2, List.getLast?_concat]
  · intro previous
    obtain ⟨front, back, shape⟩ := List.append_of_mem (mem_root_tokens.mpr ⟨standsToo, isTokenToo⟩)
    have isPrevious := Except.ok.inj ((links_of_tokens shape).2.symm.trans previous)
    obtain ⟨front, rfl⟩ := List.getLast?_eq_some_iff.mp isPrevious
    rw [← List.append_cons] at shape
    exact (links_of_tokens shape).1

/-! ### Text order -/

theorem Below.everywhere {holds : Element → Prop} (below : top.Below handle)
    (everywhere : top.here.element.Everywhere holds) : handle.here.element.Everywhere holds := by
  induction below with
  | self => exact everywhere
  | @child parent handle _ sits ih =>
      have among := List.mem_map_of_mem (f := (·.here)) (mem_kids.mpr sits)
      rw [parent.kids_spec.2.1] at among
      exact flattenAll_everywhere _ _ _ ih.inside _ among

theorem tile_flatMap {kids : List Handle} {start stop : Nat} (tile : Placed.Tile start (kids.map (·.here)) stop)
    (each : ∀ kid, kid ∈ kids → Placed.Tile kid.here.range.start (kid.tokens.map (·.here)) kid.here.range.stop) :
    Placed.Tile start ((kids.flatMap tokens).map (·.here)) stop := by
  induction kids generalizing start with
  | nil => exact tile
  | cons kid kids ih =>
      cases tile with
      | cons begins tile =>
          rw [List.flatMap_cons, List.map_append]
          have first := each kid List.mem_cons_self
          rw [begins] at first
          exact first.append (ih tile fun other among => each other (List.mem_cons_of_mem _ among))

/-- Where nodes are as long as their children, the tokens of an element stand one after another. -/
theorem tokens_tile (handle : Handle) : handle.here.element.Everywhere Element.Spans →
    Placed.Tile handle.here.range.start (handle.tokens.map (·.here)) handle.here.range.stop := by
  induction handle using induct with
  | step handle ih =>
      intro spans
      cases isToken : handle.isToken with
      | true =>
          rw [tokens_token isToken]
          exact .cons rfl .nil
      | false =>
          have tile := Placed.tile_children spans isToken
          rw [← handle.kids_spec.2.1] at tile
          rw [tokens_node isToken]
          exact tile_flatMap tile fun kid among =>
            ih kid among ((Below.child .self (mem_kids.mp among)).everywhere spans)

/-- The links enumerate the leaves. The first and the last token of a node are the ends of the list of the tokens
below it, ropes looked through; from the first token of the tree its links lead through all tokens, each once,
and then nowhere; and one token is behind another just where that is before the one. Where nodes are as long as
their children, the list is in text order. -/
theorem token_links_enumerate (tree : Tree) :
    (∀ node, Stands tree node → node.isToken = false →
      node.firstToken? = .ok node.tokens.head? ∧ node.lastToken? = .ok node.tokens.getLast? ∧
        node.tokens = node.kids.flatMap tokens ∧
        ∀ token, token ∈ node.tokens ↔ node.Below token ∧ token.isToken = true) ∧
      (∀ handle, Stands tree handle → handle.childrenWithTokens = .ok handle.kids ∧
        handle.kids.map (·.here) = flattenAll handle.here.offset none handle.here.element.children ∧
        (handle.isToken = true → handle.tokens = [handle])) ∧
      (tree.root.element.Everywhere Element.Spans → ∀ node, Stands tree node →
        Placed.Tile node.here.range.start (node.tokens.map (·.here)) node.here.range.stop) ∧
      (∃ first, (root tree).firstToken? = .ok first ∧ Visits nextToken? first (root tree).tokens) ∧
      (root tree).tokens.Nodup ∧
      (∀ token, token ∈ (root tree).tokens ↔ Stands tree token ∧ token.isToken = true) ∧
      (∀ token, Stands tree token → token.isToken = true →
        (∃ next, token.nextToken? = .ok next) ∧ ∃ previous, token.prevToken? = .ok previous) ∧
      ∀ token other, Stands tree token → token.isToken = true → Stands tree other → other.isToken = true →
        (token.nextToken? = .ok (some other) ↔ other.prevToken? = .ok (some token)) := by
  refine ⟨fun node _ isNode => ?_, fun handle _ => ?_, fun spans node stands => ?_, ?_, (root tree).nodup_tokens,
    fun token => mem_root_tokens, fun token stands _ => ?_, fun token other stands isToken standsToo isTokenToo =>
    nextToken?_iff stands isToken standsToo isTokenToo⟩
  · exact ⟨firstToken?_eq isNode, node.lastToken?_eq isNode, tokens_node isNode, fun token => mem_tokens⟩
  · exact ⟨handle.kids_spec.1, handle.kids_spec.2.1, tokens_token⟩
  · exact node.tokens_tile ((stands_iff_below.mp stands).everywhere spans)
  · exact ⟨_, firstToken?_eq rfl, visits_tokens (List.nil_append _).symm⟩
  · obtain ⟨_, _, _, forward, backward⟩ := tokens_around_of_stands stands
    exact ⟨⟨_, forward⟩, _, backward⟩

theorem Nested.spans : Nested.tree.root.element.Everywhere Element.Spans := by
  have ofToken : ∀ serial length, (Nested.leaf serial length).Everywhere Element.Spans := fun _ _ => .token trivial
  have ofNode : ∀ height children, (∀ child, child ∈ children → child.element.Everywhere Element.Spans) →
      (Nested.node height children).Everywhere Element.Spans := fun _ _ below => .node rfl below
  refine .node rfl ?_
  simp [tree, Node.make, Nested.children, ofToken, ofNode]

/-- A link leads from one rope into another, and over the empty node out of the tree. -/
theorem token_links_enumerate_nested : ∃ first second, Nested.tree.root.element.Everywhere Element.Spans ∧
    (root Nested.tree).tokens = [first, second] ∧
    Placed.Tile 0 [first.here, second.here] 3 ∧
    (root Nested.tree).firstToken? = .ok (some first) ∧ (root Nested.tree).lastToken? = .ok (some second) ∧
    Visits nextToken? (some first) [first, second] ∧ second.prevToken? = .ok (some first) := by
  obtain ⟨ends, _, ordered, ⟨start, isStart, visits⟩, _, within, _, inverse⟩ := token_links_enumerate Nested.tree
  obtain ⟨first, second, blank, kids, ⟨isFirst, _⟩, ⟨isSecond, _⟩, ⟨isBlank, _⟩, noKids⟩ :=
    Nested.exists_kids
  have tokens : (root Nested.tree).tokens = [first, second] := by
    rw [tokens_node rfl, kids, List.flatMap_cons, List.flatMap_cons, List.flatMap_cons, tokens_token isFirst,
      tokens_token isSecond, tokens_node isBlank, noKids]
    rfl
  have spans : Nested.tree.root.element.Everywhere Element.Spans := Nested.spans
  obtain ⟨isHead, isLast, _⟩ := ends _ .root rfl
  have tile := ordered spans _ .root
  rw [tokens] at isHead isLast visits tile within
  cases isStart.symm.trans isHead
  have stands := ((within first).mp List.mem_cons_self).1
  have standsToo := ((within second).mp (List.mem_cons_of_mem _ List.mem_cons_self)).1
  refine ⟨first, second, spans, tokens, tile, isHead, isLast, visits, ?_⟩
  rw [← inverse first second stands isFirst standsToo isSecond]
  cases visits with
  | visit moved later => rw [moved, later.start_eq]; rfl

end Handle

end IncrementalParsing
