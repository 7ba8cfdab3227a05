import IncrementalParsing.Proofs.Parsing.Produced
import IncrementalParsing.Proofs.Tree.Links
import IncrementalParsing.Tree.Offset

/-!
Queries by offset. The search from a node down finds the one token that contains an offset; its link leads to
the token that ends there; and the way up from it passes every element that covers a range.
-/

namespace IncrementalParsing

open Green

/-! ### Search among children -/

namespace Green

variable {children : List Child} {offset : Nat}

theorem stopOfChild_le {index later : Nat} (order : index ≤ later) :
    stopOfChild children index ≤ stopOfChild children later := by
  have parts := lengthOf_append ((children.take (later + 1)).take (index + 1))
    ((children.take (later + 1)).drop (index + 1))
  rw [List.take_append_drop, List.take_take, Nat.min_eq_left (Nat.succ_le_succ order)] at parts
  rw [stopOfChild, stopOfChild, parts]
  exact Nat.le_add_right _ _

/-- An offset within the children is found in the child whose range contains it. -/
theorem childIndexAt?_spec (inside : offset < lengthOf children) : ∃ index,
    childIndexAt? children offset = some index ∧ lengthOf (children.take index) ≤ offset ∧
      offset < lengthOf (children.take (index + 1)) := by
  obtain ⟨below, above⟩ := partitionPoint_spec (fun index => stopOfChild children index ≤ offset)
    (fun index later order holds => decide_eq_true (Nat.le_trans (stopOfChild_le order) (of_decide_eq_true holds)))
    0 children.length
  unfold childIndexAt?
  generalize partitionPoint (fun index => stopOfChild children index ≤ offset) 0 children.length = point
    at below above ⊢
  have within : point < children.length := by
    apply Nat.lt_of_not_le
    intro beyond
    cases size : children.length with
    | zero =>
        rw [List.length_eq_zero_iff.mp size] at inside
        cases inside
    | succ last =>
        have holds := of_decide_eq_true (below last (Nat.zero_le _) (by omega))
        rw [stopOfChild, ← size, List.take_length] at holds
        exact Nat.not_lt.mpr holds inside
  refine ⟨⟨point, within⟩, dif_pos within, ?_, Nat.lt_of_not_le (of_decide_eq_false (above within))⟩
  cases point with
  | zero => exact Nat.zero_le _
  | succ last => exact of_decide_eq_true (below last (Nat.zero_le _) (Nat.lt_succ_self _))

end Green

namespace Slot

variable {children : List Child} {offset target : Nat}

theorem Leads.at {top : Frame} {outer : Slot} (leads : Leads children offset (top :: outer)) {index : Nat}
    (inside : index ≤ top.children.length) : Leads children offset ({ top with index } :: outer) := by
  cases leads with
  | node => exact .node inside
  | rope above there isRope => exact .rope above there isRope inside

/-- The innermost frame holds the target, and its ropes are as long as their children. -/
structure Within (target : Nat) (top : Frame) : Prop where
  spans : ∀ child, child ∈ top.children → child.element.Everywhere Element.Spans
  low : top.offset ≤ target
  high : target < top.offset + lengthOf top.children

theorem Within.located {top : Frame} (within : Within target top) : ∃ index child,
    childIndexAt? top.children (target - top.offset) = some index ∧
      ({ top with index } : Frame).child? = some child ∧ ({ top with index } : Frame).childOffset ≤ target ∧
      target < ({ top with index } : Frame).childOffset + child.element.textLength := by
  have low := within.low
  have high := within.high
  obtain ⟨index, located, above, below⟩ := childIndexAt?_spec (Nat.sub_lt_left_of_lt_add low high)
  rw [List.take_succ_eq_append_getElem index.isLt, lengthOf_append, lengthOf_cons, lengthOf_nil] at below
  refine ⟨index, _, located, List.getElem?_eq_getElem index.isLt, ?_, ?_⟩
  · simp only [Frame.childOffset]
    omega
  · simp only [Frame.childOffset]
    omega

theorem isToken_of_isRope {element : Element} (rope : element.isRope = true) : element.isToken = false := by
  cases element with
  | token leaf => cases rope
  | node head children => rfl

theorem Within.enter {top : Frame} (within : Within target top) {index : Nat} {child : Child}
    (there : ({ top with index } : Frame).child? = some child) (isRope : child.element.isRope = true)
    (low : ({ top with index } : Frame).childOffset ≤ target)
    (high : target < ({ top with index } : Frame).childOffset + child.element.textLength) :
    Within target (({ top with index } : Frame).enter child 0) := by
  have spans := within.spans child (List.mem_of_getElem? there)
  refine ⟨spans.inside, low, ?_⟩
  simp only [Frame.enter]
  rwa [← Element.length_children spans (isToken_of_isRope isRope)]

/-- Where ropes are as long as their children, the search ends at an element that contains the target. -/
theorem seek_spec {top : Frame} {outer : Slot} (leads : Leads children offset (top :: outer))
    (within : Within target top) : ∃ found here, seek target (top :: outer) = some found ∧
      Points children offset found ∧ found.current = .ok here ∧
        here.range.start ≤ target ∧ target < here.range.stop := by
  induction size : Green.weightAll top.children using Nat.strongRecOn generalizing top outer with
  | ind count ih =>
      obtain ⟨index, child, located, there, low, high⟩ := within.located
      have leadsTo := leads.at (Nat.le_of_lt index.isLt)
      cases (List.getElem?_eq_getElem index.isLt).symm.trans there
      rw [seek, if_neg (Nat.not_lt.mpr within.low), located]
      dsimp only
      cases isRope : top.children[index].element.isRope with
      | true =>
          have inner := weight_of_isRope isRope
          have inside := weight_lt_of_mem (List.getElem_mem index.isLt)
          simp only [Fin.getElem_fin] at inner
          rw [dif_pos rfl]
          exact ih _ (by simp only [Frame.enter, Fin.getElem_fin]; omega)
            (.rope leadsTo there isRope (Nat.zero_le _)) (within.enter there isRope low high) rfl
      | false =>
          rw [dif_neg Bool.false_ne_true]
          refine ⟨_, ({ top with index } : Frame).place top.children[index], rfl, .element leadsTo there isRope, ?_,
            low, high⟩
          rw [current, there]
          rfl

end Slot

/-! ### The token that contains an offset -/

namespace Handle

variable {tree : Tree} {node token other : Handle} {offset : Nat}

def Holds (handle : Handle) (offset : Nat) : Prop :=
  handle.here.range.start ≤ offset ∧ offset < handle.here.range.stop

theorem atOffset_spec (spans : node.here.element.Everywhere Element.Spans) (isNode : node.isToken = false)
    (holds : node.Holds offset) : ∃ slot kid,
      Slot.atOffset node.here.element.children node.here.offset offset = some slot ∧
        node.elementAt slot = .ok kid ∧ kid ∈ node.kids ∧ kid.Holds offset := by
  have within : Slot.Within offset ⟨node.here.element.children, 0, node.here.offset, none⟩ := by
    refine ⟨spans.inside, holds.1, ?_⟩
    rw [← Element.length_children spans isNode]
    exact holds.2
  obtain ⟨slot, here, found, points, current, low, high⟩ := Slot.seek_spec (.node (Nat.zero_le _)) within
  have isKid : node.elementAt slot = .ok (node.seated slot here) := elementAt_ok.mpr ⟨here, current, rfl⟩
  exact ⟨slot, _, found, isKid, mem_kids.mpr ⟨slot, points, isKid⟩, low, high⟩

theorem tokenContaining?_spec (node : Handle) : node.here.element.Everywhere Element.Spans →
    node.isToken = false → node.Holds offset →
    ∃ token, node.tokenContaining? offset = .ok (some token) ∧ token ∈ node.tokens ∧ token.Holds offset := by
  induction node using induct with
  | step node ih =>
      intro spans isNode holds
      obtain ⟨slot, kid, found, isKid, among, holdsKid⟩ := atOffset_spec spans isNode holds
      have below : node.Below kid := .child .self (mem_kids.mp among)
      rw [tokenContaining?]
      split <;> rename_i there <;> cases found.symm.trans there
      split <;> rename_i at_ <;> cases isKid.symm.trans at_
      cases isToken : kid.isToken with
      | true => exact ⟨kid, if_pos rfl, mem_tokens.mpr ⟨below, isToken⟩, holdsKid⟩
      | false =>
          obtain ⟨token, done, member, holdsToken⟩ := ih kid among (below.everywhere spans) isToken holdsKid
          rw [mem_tokens] at member
          exact ⟨token, done, mem_tokens.mpr ⟨below.trans member.1, member.2⟩, holdsToken⟩

theorem start_le_of_tile {tokens : List Handle} {start stop : Nat}
    (tile : Placed.Tile start (tokens.map (·.here)) stop) (member : token ∈ tokens) :
    start ≤ token.here.range.start :=
  tile.start_le _ (List.mem_map_of_mem member)

/-- Of elements that stand one after another, one at most contains an offset. -/
theorem eq_of_holds {tokens : List Handle} {start stop : Nat}
    (tile : Placed.Tile start (tokens.map (·.here)) stop) (member : token ∈ tokens) (memberToo : other ∈ tokens)
    (holds : token.Holds offset) (holdsToo : other.Holds offset) : token = other := by
  induction tokens generalizing start with
  | nil => cases member
  | cons first later ih =>
      cases tile with
      | cons begins tile =>
          have apart : ∀ behind, behind ∈ later → first.Holds offset → ¬ behind.Holds offset :=
            fun behind among here there =>
              Nat.not_lt.mpr (Nat.le_trans (start_le_of_tile tile among) there.1) here.2
          rcases List.mem_cons.mp member with rfl | among
          · rcases List.mem_cons.mp memberToo with rfl | amongToo
            · rfl
            · exact absurd holdsToo (apart other amongToo holds)
          · rcases List.mem_cons.mp memberToo with rfl | amongToo
            · exact absurd holds (apart token among holdsToo)
            · exact ih tile among amongToo

/-- The last of elements that stand one after another ends where they end. -/
theorem exists_last_of_tile {tokens : List Handle} {start stop : Nat}
    (tile : Placed.Tile start (tokens.map (·.here)) stop) (long : start < stop) :
    ∃ last, tokens.getLast? = some last ∧ last.here.range.stop = stop := by
  rcases List.eq_nil_or_concat tokens with rfl | ⟨before, last, rfl⟩
  · cases tile
    exact absurd long (Nat.lt_irrefl _)
  · rw [List.concat_eq_append, List.map_append] at tile
    exact ⟨last, by rw [List.concat_eq_append, List.getLast?_concat], tile.stop_eq⟩

/-- The token that a link leads back to, unless the token is the first one of the node: it ends where the token
begins. -/
theorem prevToken?_within (spans : tree.root.element.Everywhere Element.Spans) (stands : Stands tree node)
    (member : token ∈ node.tokens) (inside : node.here.range.start < token.here.range.start) :
    ∃ left, token.prevToken? = .ok (some left) ∧ left ∈ node.tokens ∧
      left.here.range.stop = token.here.range.start := by
  obtain ⟨below, isToken⟩ := mem_tokens.mp member
  obtain ⟨_, _, _, forward, backward⟩ := tokens_around_of_stands stands
  obtain ⟨front, back, around, _, previous⟩ := below.tokens_around forward backward
  have tile := node.tokens_tile ((stands_iff_below.mp stands).everywhere spans)
  rw [tokens_token isToken, List.singleton_append] at around
  rw [around, List.map_append] at tile
  obtain ⟨middle, before, after⟩ := tile.split
  cases after with
  | cons begins _ =>
      obtain ⟨left, isLast, stops⟩ := exists_last_of_tile before (begins ▸ inside)
      refine ⟨left, ?_, ?_, stops.trans begins.symm⟩
      · rw [previous, isLast, Option.some_or]
      · rw [around]
        exact List.mem_append_left _ (List.mem_of_getLast? isLast)

/-! ### The tokens at an offset -/

theorem tokenAtOffset_outside (outside : ¬ node.Holds offset) : node.tokenAtOffset offset = .ok .none := by
  rw [Holds, not_and_or, Nat.not_le, Nat.not_lt] at outside
  rw [tokenAtOffset]
  exact if_pos outside

theorem tokenAtOffset_inside (spans : tree.root.element.Everywhere Element.Spans) (stands : Stands tree node)
    (isNode : node.isToken = false) (holds : node.Holds offset) : ∃ right, right ∈ node.tokens ∧
      right.Holds offset ∧
      ((right.here.range.start = offset ∧ node.here.range.start < offset ∧ ∃ left, left ∈ node.tokens ∧
          left.here.range.stop = offset ∧ node.tokenAtOffset offset = .ok (.between left right)) ∨
        ¬ (right.here.range.start = offset ∧ node.here.range.start < offset) ∧
          node.tokenAtOffset offset = .ok (.single right)) := by
  obtain ⟨right, found, member, holdsRight⟩ :=
    node.tokenContaining?_spec ((stands_iff_below.mp stands).everywhere spans) isNode holds
  have inside : ¬ (offset < node.here.range.start ∨ offset ≥ node.here.range.stop) := by
    rw [not_or]
    exact ⟨Nat.not_lt.mpr holds.1, Nat.not_le.mpr holds.2⟩
  refine ⟨right, member, holdsRight, ?_⟩
  rw [tokenAtOffset]
  simp only [if_neg inside, found, ok_bind]
  by_cases boundary : right.here.range.start = offset ∧ node.here.range.start < offset
  · obtain ⟨begins, behind⟩ := boundary
    obtain ⟨left, linked, amongLeft, stops⟩ := prevToken?_within spans stands member (begins.symm ▸ behind)
    refine .inl ⟨begins, behind, left, amongLeft, stops.trans begins, ?_⟩
    rw [if_pos ⟨begins, behind⟩, linked]
    rfl
  · exact .inr ⟨boundary, if_neg boundary⟩

/-! ### The elements that cover a range -/

variable {top lowest : Handle} {range : TextRange}

theorem contains_iff {outer inner : TextRange} :
    outer.contains inner = true ↔ outer.start ≤ inner.start ∧ inner.stop ≤ outer.stop := by
  simp [TextRange.contains]

theorem Sits.cases_above {parent handle : Handle} (sits : parent.Sits handle) (below : other.Below handle) :
    other = handle ∨ other.Below parent := by
  cases below with
  | self => exact .inl rfl
  | child below sitsToo =>
      cases sits.parent?_eq.symm.trans sitsToo.parent?_eq
      exact .inr below

theorem enclosing_spec {same : Handle → Handle → Bool}
    (alike : ∀ handle : Handle, top.Below handle → same handle top = true → handle.here.element = top.here.element)
    (covers : top.here.range.contains range = true) (below : top.Below lowest) :
    top.Below (enclosing same top range lowest) ∧ (enclosing same top range lowest).Below lowest ∧
      (enclosing same top range lowest).here.range.contains range = true ∧
      ∀ handle : Handle, handle.Below lowest → handle.here.range.contains range = true →
        handle.Below (enclosing same top range lowest) := by
  induction below with
  | self =>
      have ends : (same top top || top.here.range.contains range) = true := by rw [covers, Bool.or_true]
      rw [enclosing, if_pos ends]
      exact ⟨.self, .self, covers, fun _ above _ => above⟩
  | @child parent lowest below sits ih =>
      rw [enclosing]
      by_cases ends : (same lowest top || lowest.here.range.contains range) = true
      · have here : lowest.here.range.contains range = true := by
          rcases Bool.or_eq_true_iff.mp ends with isTop | here
          · have lower := weight_of_mem_kids (mem_kids.mpr sits)
            rw [alike lowest (.child below sits) isTop] at lower
            rcases below.weight_le with rfl | less
            · exact absurd lower (Nat.lt_irrefl _)
            · exact absurd lower (Nat.lt_asymm less)
          · exact here
        rw [if_pos ends]
        exact ⟨.child below sits, .self, here, fun _ above _ => above⟩
      · rw [if_neg ends]
        split <;> rename_i up <;> cases sits.parent?_eq.symm.trans up
        obtain ⟨belowTop, above, contains, deepest⟩ := ih
        refine ⟨belowTop, .child above sits, contains, fun handle further covered => ?_⟩
        rw [Bool.or_eq_true_iff, not_or] at ends
        rcases sits.cases_above further with rfl | further
        · exact absurd covered ends.2
        · exact deepest handle further covered

theorem above_of_holds (spans : node.here.element.Everywhere Element.Spans) (member : token ∈ node.tokens)
    (holds : token.Holds offset) (below : node.Below other) (holdsToo : other.Holds offset) :
    other.Below token := by
  have tile := node.tokens_tile spans
  cases isToken : other.isToken with
  | true =>
      rw [eq_of_holds tile member (mem_tokens.mpr ⟨below, isToken⟩) holds holdsToo]
      exact .self
  | false =>
      obtain ⟨found, _, among, holdsFound⟩ := other.tokenContaining?_spec (below.everywhere spans) isToken holdsToo
      rw [mem_tokens] at among
      rw [eq_of_holds tile member (mem_tokens.mpr ⟨below.trans among.1, among.2⟩) holds holdsFound]
      exact among.1

theorem coveringElement_spec {same : Handle → Handle → Bool}
    (alike : ∀ handle, node.Below handle → same handle node = true → handle.here.element = node.here.element)
    (spans : tree.root.element.Everywhere Element.Spans) (stands : Stands tree node) (isNode : node.isToken = false)
    (covers : node.here.range.contains range = true) (long : range.start < range.stop) :
    ∃ cover, node.coveringElement same range = .ok cover ∧ node.Below cover ∧
      cover.here.range.contains range = true ∧
      ∀ other, node.Below other → other.here.range.contains range = true → other.Below cover := by
  have spansHere := (stands_iff_below.mp stands).everywhere spans
  have holds_start : ∀ {handle : Handle}, handle.here.range.contains range = true → handle.Holds range.start := by
    intro handle contains
    obtain ⟨low, high⟩ := contains_iff.mp contains
    exact ⟨low, Nat.lt_of_lt_of_le long high⟩
  obtain ⟨right, member, holds, found⟩ := tokenAtOffset_inside spans stands isNode (holds_start covers)
  obtain ⟨answer, found, biased⟩ : ∃ answer, node.tokenAtOffset range.start = .ok answer ∧
      answer.rightBiased = some right := by
    rcases found with ⟨_, _, left, _, _, found⟩ | ⟨_, found⟩
    · exact ⟨_, found, rfl⟩
    · exact ⟨_, found, rfl⟩
  rw [coveringElement, if_neg (Nat.not_lt.mpr (Nat.le_of_lt long)), found, ok_bind, biased]
  dsimp only
  obtain ⟨below, isToken⟩ := mem_tokens.mp member
  have above : ∀ other, node.Below other → other.here.range.contains range = true → other.Below right :=
    fun other belowToo contains => above_of_holds spansHere member holds belowToo (holds_start contains)
  by_cases contains : right.here.range.contains range = true
  · rw [if_pos contains]
    exact ⟨right, rfl, below, contains, above⟩
  · rw [if_neg contains]
    cases below with
    | self => exact absurd covers contains
    | @child parent _ below sits =>
        rw [sits.parent?_eq]
        obtain ⟨belowTop, _, covering, deepest⟩ := enclosing_spec alike covers below
        refine ⟨_, rfl, belowTop, covering, fun other belowToo covered => ?_⟩
        rcases sits.cases_above (above other belowToo covered) with rfl | further
        · exact absurd covered contains
        · exact deepest other further covered

end Handle

/-! ### Trees of tokens that are not empty -/

/-- Nodes are as long as their children, and no token is empty. -/
structure Tree.Solid (tree : Tree) : Prop where
  spans : tree.root.element.Everywhere Element.Spans
  long : ∀ token, Handle.Stands tree token → token.isToken = true → 0 < token.here.element.textLength

theorem Handle.Stands.placed_below {tree : Tree} {handle : Handle} (stands : Stands tree handle) :
    tree.placedRoot.Below handle.here := by
  induction stands with
  | root => exact .root
  | @child parent kid _ sits ih =>
      have among := List.mem_map_of_mem (f := (·.here)) (mem_kids.mpr sits)
      rw [parent.kids_spec.2.1] at among
      exact .child ih among

theorem ParsedTree.Produced.solid {tree : ParsedTree} (produced : tree.Produced) : tree.Solid := by
  obtain ⟨language, accepted, identity, _⟩ := produced.exists_language
  have isRoot := produced.isRoot accepted.sound identity
  refine ⟨isRoot.spans, fun token stands isToken => ?_⟩
  exact (Tree.lossless_of_root isRoot).tokens_pos token.here stands.placed_below isToken

namespace Handle

variable {tree : Tree} {node token other : Handle} {offset : Nat}

theorem holds_of_token (spans : node.here.element.Everywhere Element.Spans) (below : node.Below token)
    (isToken : token.isToken = true) (holds : token.Holds offset) : node.Holds offset := by
  have tile := node.tokens_tile spans
  obtain ⟨front, back, shape⟩ := List.append_of_mem (mem_tokens.mpr ⟨below, isToken⟩)
  refine ⟨Nat.le_trans (start_le_of_tile tile (mem_tokens.mpr ⟨below, isToken⟩)) holds.1, ?_⟩
  rw [shape, List.map_append] at tile
  obtain ⟨_, _, after⟩ := tile.split
  cases after with
  | cons _ after => exact Nat.lt_of_lt_of_le holds.2 after.le

def HasToken (node token : Handle) : Prop := node.Below token ∧ token.isToken = true

section Solid

variable (solid : tree.Solid) (stands : Stands tree node)

include solid stands

theorem HasToken.unique (has : node.HasToken token) (hasToo : node.HasToken other) (holds : token.Holds offset)
    (holdsToo : other.Holds offset) : token = other :=
  eq_of_holds (node.tokens_tile ((stands_iff_below.mp stands).everywhere solid.spans)) (mem_tokens.mpr has)
    (mem_tokens.mpr hasToo) holds holdsToo

theorem HasToken.holds_start (has : node.HasToken token) : token.Holds token.here.range.start :=
  ⟨Nat.le_refl _, Nat.lt_add_of_pos_right (solid.long token (.of_below stands has.1) has.2)⟩

theorem HasToken.unique_stop (has : node.HasToken token) (hasToo : node.HasToken other)
    (same : token.here.range.stop = other.here.range.stop) : token = other := by
  have long := (has.holds_start solid stands).2
  have longToo := (hasToo.holds_start solid stands).2
  have holds : token.Holds (token.here.range.stop - 1) := ⟨by omega, by omega⟩
  have holdsToo : other.Holds (token.here.range.stop - 1) := ⟨by omega, by omega⟩
  exact has.unique solid stands hasToo holds holdsToo

end Solid

/-- What the tokens of a node at an offset are: none outside its range, inside it the token that contains the
offset, and where that begins inside the node, the token that ends there as well. -/
structure TokensAt (node : Handle) (offset : Nat) (answer : TokenAtOffset) : Prop where
  none : answer = .none ↔ offset < node.here.range.start ∨ node.here.range.stop ≤ offset
  right : ∀ token, answer.rightBiased = some token ↔ node.HasToken token ∧ token.Holds offset
  between : ∀ left right, answer = .between left right ↔
    node.HasToken right ∧ right.here.range.start = offset ∧ node.here.range.start < offset ∧
      node.HasToken left ∧ left.here.range.stop = offset

section Solid

variable (solid : tree.Solid) (stands : Stands tree node) {left right : Handle}

include solid stands

theorem tokensAt_none (outside : ¬ node.Holds offset) : node.TokensAt offset .none := by
  have spans := (stands_iff_below.mp stands).everywhere solid.spans
  have beyond := outside
  rw [Holds, not_and_or, Nat.not_le, Nat.not_lt] at beyond
  refine ⟨⟨fun _ => beyond, fun _ => rfl⟩, fun token => ?_, fun left right => ?_⟩
  · constructor
    · rintro ⟨⟩
    · intro ⟨has, holds⟩
      exact absurd (holds_of_token spans has.1 has.2 holds) outside
  · constructor
    · rintro ⟨⟩
    · rintro ⟨has, rfl, _⟩
      exact absurd (holds_of_token spans has.1 has.2 (has.holds_start solid stands)) outside

theorem HasToken.right_iff (has : node.HasToken right) (holds : right.Holds offset) (token : Handle) :
    some right = some token ↔ node.HasToken token ∧ token.Holds offset := by
  constructor
  · rintro ⟨⟩
    exact ⟨has, holds⟩
  · intro ⟨hasToo, holdsToo⟩
    rw [has.unique solid stands hasToo holds holdsToo]

theorem HasToken.not_outside (has : node.HasToken right) (holds : right.Holds offset) :
    ¬ (offset < node.here.range.start ∨ node.here.range.stop ≤ offset) := by
  obtain ⟨low, high⟩ := holds_of_token ((stands_iff_below.mp stands).everywhere solid.spans) has.1 has.2 holds
  omega

theorem tokensAt_single (has : node.HasToken right) (holds : right.Holds offset)
    (boundary : ¬ (right.here.range.start = offset ∧ node.here.range.start < offset)) :
    node.TokensAt offset (.single right) := by
  refine ⟨⟨(fun same => nomatch same), fun outside => absurd outside (has.not_outside solid stands holds)⟩,
    has.right_iff solid stands holds, fun first second => ⟨(fun same => nomatch same), ?_⟩⟩
  rintro ⟨hasSecond, rfl, behind, _⟩
  have same := has.unique solid stands hasSecond holds (hasSecond.holds_start solid stands)
  exact absurd ⟨congrArg (·.here.range.start) same, behind⟩ boundary

theorem tokensAt_between (has : node.HasToken right) (begins : right.here.range.start = offset)
    (behind : node.here.range.start < offset) (hasLeft : node.HasToken left) (stops : left.here.range.stop = offset) :
    node.TokensAt offset (.between left right) := by
  have holds : right.Holds offset := begins ▸ has.holds_start solid stands
  refine ⟨⟨(fun same => nomatch same), fun outside => absurd outside (has.not_outside solid stands holds)⟩,
    has.right_iff solid stands holds, fun first second => ⟨?_, ?_⟩⟩
  · rintro ⟨⟩
    exact ⟨has, begins, behind, hasLeft, stops⟩
  · rintro ⟨hasSecond, beginsSecond, _, hasFirst, stopsFirst⟩
    have holdsSecond : second.Holds offset := beginsSecond ▸ hasSecond.holds_start solid stands
    rw [has.unique solid stands hasSecond holds holdsSecond,
      hasLeft.unique_stop solid stands hasFirst (stops.trans stopsFirst.symm)]

theorem tokenAtOffset_spec (isNode : node.isToken = false) (offset : Nat) :
    ∃ answer, node.tokenAtOffset offset = .ok answer ∧ node.TokensAt offset answer := by
  by_cases holds : node.Holds offset
  · obtain ⟨right, member, holdsRight, found⟩ := tokenAtOffset_inside solid.spans stands isNode holds
    have has : node.HasToken right := mem_tokens.mp member
    rcases found with ⟨begins, behind, left, memberLeft, stops, found⟩ | ⟨boundary, found⟩
    · exact ⟨_, found, tokensAt_between solid stands has begins behind (mem_tokens.mp memberLeft) stops⟩
    · exact ⟨_, found, tokensAt_single solid stands has holdsRight boundary⟩
  · exact ⟨_, tokenAtOffset_outside holds, tokensAt_none solid stands holds⟩

end Solid

/-- Queries by offset find the right element: the tokens at an offset, and the parent of the right one of them. A
range with text in it is covered by one element of the node that lies below all others that cover it. This
holds for every test of identity by which no element below the node passes for the node unless their contents
are the same. -/
theorem offsets_find_elements (solid : tree.Solid) (stands : Stands tree node) (isNode : node.isToken = false) :
    (∀ offset, ∃ answer, node.tokenAtOffset offset = .ok answer ∧ node.TokensAt offset answer ∧
      node.nodeAtOffset? offset = .ok (answer.rightBiased.bind parent?) ∧
      ∀ right, answer.rightBiased = some right →
        ∃ parent, right.parent? = some parent ∧ node.Below parent ∧ parent.Sits right) ∧
    ∀ same : Handle → Handle → Bool,
      (∀ handle, node.Below handle → same handle node = true → handle.here.element = node.here.element) →
      ∀ range : TextRange, range.start < range.stop → node.here.range.contains range = true →
        ∃ cover, node.coveringElement same range = .ok cover ∧ node.Below cover ∧
          cover.here.range.contains range = true ∧
          ∀ other, node.Below other → other.here.range.contains range = true →
            other.Below cover ∧ (other = cover ∨ other.depth < cover.depth) := by
  constructor
  · intro offset
    obtain ⟨answer, found, tokensAt⟩ := tokenAtOffset_spec solid stands isNode offset
    refine ⟨answer, found, tokensAt, ?_, fun right isRight => ?_⟩
    · rw [nodeAtOffset?, found]
      rfl
    · obtain ⟨⟨below, isToken⟩, _⟩ := (tokensAt.right right).mp isRight
      cases below with
      | self => cases isNode.symm.trans isToken
      | @child parent _ below sits => exact ⟨parent, sits.parent?_eq, below, sits⟩
  · intro same alike range long covers
    obtain ⟨cover, found, below, contains, deepest⟩ :=
      coveringElement_spec alike solid.spans stands isNode covers long
    refine ⟨cover, found, below, contains, fun other belowToo covered => ?_⟩
    have above := deepest other belowToo covered
    exact ⟨above, above.eq_or_depth.imp_left Eq.symm⟩

/-- Two tokens meet at one offset, and the range of neither covers what spans both. -/
theorem offsets_find_elements_nested : Nested.tree.Solid ∧ ∃ first second,
    (root Nested.tree).tokenAtOffset 1 = .ok (.between first second) ∧
      (root Nested.tree).nodeAtOffset? 1 = .ok (some (root Nested.tree)) ∧
      (root Nested.tree).tokenAtOffset 3 = .ok .none ∧
      (root Nested.tree).coveringElement isSame ⟨1, 3⟩ = .ok second ∧
      (root Nested.tree).coveringElement isSame ⟨0, 2⟩ = .ok (root Nested.tree) := by
  obtain ⟨first, second, blank, nested⟩ := Nested.exists_kids
  have all := nested.below
  obtain ⟨kids, ⟨isFirst, atFirst⟩, ⟨isSecond, atSecond⟩, ⟨isBlank, atBlank⟩, _⟩ := nested
  have belowFirst : (root Nested.tree).Below first := below_of_mem_kids (by simp [kids]) .self
  have belowSecond : (root Nested.tree).Below second := below_of_mem_kids (by simp [kids]) .self
  have solid : Nested.tree.Solid := by
    refine ⟨Nested.spans, fun token stands isToken => ?_⟩
    simp only [Placed.range, TextRange.mk.injEq] at atFirst atSecond
    rcases all token (stands_iff_below.mp stands) with rfl | rfl | rfl | rfl
    · cases isToken
    · omega
    · omega
    · cases isBlank.symm.trans isToken
  have alike : ∀ handle, (root Nested.tree).Below handle → isSame handle (root Nested.tree) = true →
      handle.here.element = (root Nested.tree).here.element := by
    intro handle below same
    rw [isSame, Element.isSame, Bool.and_eq_true, Bool.and_eq_true] at same
    obtain ⟨start, kind, _⟩ := same
    rcases all handle below with rfl | rfl | rfl | rfl
    · rfl
    · cases isFirst.symm.trans (eq_of_beq kind)
    · cases isSecond.symm.trans (eq_of_beq kind)
    · have begins := congrArg TextRange.start atBlank
      cases begins.symm.trans (eq_of_beq start)
  obtain ⟨tokens, covers⟩ := offsets_find_elements solid .root rfl
  obtain ⟨answer, found, tokensAt, atNode, _⟩ := tokens 1
  obtain ⟨nothing, foundNone, outside, _⟩ := tokens 3
  obtain ⟨cover, found13, _, _, deepest⟩ := covers isSame alike ⟨1, 3⟩ (by decide) rfl
  obtain ⟨top, found02, belowTop, contains, _⟩ := covers isSame alike ⟨0, 2⟩ (by decide) rfl
  have isBetween : answer = .between first second := by
    refine (tokensAt.between first second).mpr ⟨⟨belowSecond, isSecond⟩, ?_, Nat.one_pos, ⟨belowFirst, isFirst⟩, ?_⟩
    · rw [atSecond]
    · rw [atFirst]
  have isNone : nothing = .none := outside.none.mpr (.inr (Nat.le_refl 3))
  have isSecondToo : cover = second :=
    (deepest second belowSecond (by rw [atSecond]; rfl)).1.eq_of_no_kids (kids_of_isToken isSecond)
  have isTop : top = root Nested.tree := by
    rcases all top belowTop with same | rfl | rfl | rfl
    · exact same
    · rw [atFirst] at contains
      cases contains
    · rw [atSecond] at contains
      cases contains
    · rw [atBlank] at contains
      cases contains
  subst isBetween isNone isSecondToo isTop
  refine ⟨solid, first, cover, found, ?_, foundNone, found13, found02⟩
  have sits : (root Nested.tree).Sits cover := mem_kids.mp (by simp [kids])
  rw [atNode]
  exact congrArg Except.ok sits.parent?_eq

end Handle

end IncrementalParsing
