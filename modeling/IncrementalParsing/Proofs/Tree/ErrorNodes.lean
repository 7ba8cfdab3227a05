import IncrementalParsing.Diagnostic
import IncrementalParsing.Proofs.Green.Errors
import IncrementalParsing.Proofs.Tree.Lossless
import IncrementalParsing.Proofs.Tree.Tokens
import Mathlib.Data.List.Forall2

/-!
What is reported of a tree. The walk that collects diagnostics passes over whatever lies in an error node and
so comes to exactly the error nodes that lie in no other. It never fails: every token but the end of the input
is of a kind that has a name. What it reports lies within the error nodes, so it stands in text order.
-/

namespace IncrementalParsing

open Green

/-! ### Ranges in text order -/

/-- Ranges that follow one another between `start` and `stop`, with gaps or without. -/
inductive TextRange.Ordered : Nat → List TextRange → Nat → Prop
  | nil {start stop : Nat} : start ≤ stop → Ordered start [] stop
  | cons {start stop : Nat} {first : TextRange} {rest : List TextRange} : start ≤ first.start →
      first.start ≤ first.stop → Ordered first.stop rest stop → Ordered start (first :: rest) stop

namespace TextRange.Ordered

variable {start middle stop : Nat} {left right ranges : List TextRange}

theorem earlier (ordered : Ordered middle ranges stop) (before : start ≤ middle) :
    Ordered start ranges stop := by
  cases ordered with
  | nil within => exact .nil (Nat.le_trans before within)
  | cons here long rest => exact .cons (Nat.le_trans before here) long rest

theorem append (first : Ordered start left middle) (second : Ordered middle right stop) :
    Ordered start (left ++ right) stop := by
  induction first with
  | nil within => exact second.earlier within
  | cons here long _ ih => exact .cons here long (ih second)

theorem start_le (ordered : Ordered start ranges stop) : ∀ range, range ∈ ranges → start ≤ range.start := by
  induction ordered with
  | nil _ => exact fun _ none => absurd none List.not_mem_nil
  | cons here long _ ih =>
      intro range member
      rcases List.mem_cons.mp member with rfl | later
      · exact here
      · exact Nat.le_trans (Nat.le_trans here long) (ih range later)

theorem pairwise (ordered : Ordered start ranges stop) :
    ranges.Pairwise (fun earlier later => earlier.stop ≤ later.start) := by
  induction ordered with
  | nil _ => exact .nil
  | cons _ _ rest ih => exact .cons rest.start_le ih

theorem within {inner : List TextRange} (ordered : Ordered start ranges stop)
    (inside : List.Forall₂ (fun outer range => outer.contains range = true ∧ range.start ≤ range.stop)
      ranges inner) : Ordered start inner stop := by
  induction ordered generalizing inner with
  | nil bound =>
      cases inside
      exact .nil bound
  | cons here _ _ ih =>
      cases inside with
      | cons first others =>
          obtain ⟨contained, long⟩ := first
          unfold TextRange.contains at contained
          rw [Bool.and_eq_true, decide_eq_true_iff, decide_eq_true_iff] at contained
          exact .cons (Nat.le_trans here contained.1) long ((ih others).earlier contained.2)

end TextRange.Ordered

theorem Placed.Below.eq_of_isToken {root placed : Placed} (below : root.Below placed)
    (token : root.isToken = true) : placed = root := by
  induction below with
  | root => rfl
  | child _ among ih =>
      rw [ih, children_of_isToken token] at among
      exact absurd among List.not_mem_nil

/-! ### The outermost error nodes -/

namespace Location

def isOutermostError (location : Location) : Bool :=
  location.here.isError && (above location.path).all (fun outer => !outer.here.isError)

end Location

def Tree.outermostErrors (tree : Tree) : List Location :=
  (Location.root tree).descendants.filter (·.isOutermostError)

/-- What is reported of a tree. -/
structure Tree.Reports (tree : Tree) (diagnostics : List Diagnostic) : Prop where
  collected : Diagnostic.collect tree = .ok diagnostics
  /-- There is one diagnostic for each outermost error node, with a range in that of the node. -/
  each : List.Forall₂ (fun node diagnostic => Diagnostic.ofErrorNode tree.kinds node = .ok diagnostic ∧
    node.here.range.contains diagnostic.range = true ∧ diagnostic.range.start ≤ diagnostic.range.stop)
    tree.outermostErrors diagnostics
  ordered : (diagnostics.map (·.range)).Pairwise (fun earlier later => earlier.stop ≤ later.start)

namespace Diagnostic

open Location

mutual

theorem filter_preorderAt_nil (here : Placed) (path : List Crumb)
    (erroneous : (above path).any (·.here.isError) = true) :
    (preorderAt here path).filter (fun location => location.isNode && location.isOutermostError) = [] := by
  have inner : Location.isOutermostError ⟨here, path⟩ = false := by
    obtain ⟨outer, among, error⟩ := List.any_eq_true.mp erroneous
    unfold Location.isOutermostError
    rw [List.all_eq_false.mpr ⟨outer, among, by simp [error]⟩, Bool.and_false]
  rw [preorderAt, List.filter_cons_of_neg (by simp [inner])]
  refine filter_preorderAmong_nil here path [] here.children ?_
  rw [Bool.or_eq_true]
  exact Or.inr erroneous
termination_by 2 * here.element.weight
decreasing_by
  have := here.weight_children
  omega

theorem filter_preorderAmong_nil (parent : Placed) (path : List Crumb) (before items : List Placed)
    (erroneous : (parent.isError || (above path).any (·.here.isError)) = true) :
    (preorderAmong parent path before items).filter
      (fun location => location.isNode && location.isOutermostError) = [] := by
  match items with
  | [] =>
      rw [preorderAmong]
      rfl
  | first :: after =>
      rw [preorderAmong, List.filter_append, filter_preorderAt_nil first (⟨parent, before, after⟩ :: path) erroneous,
        filter_preorderAmong_nil parent path (first :: before) after erroneous]
      rfl
termination_by 2 * placedWeight items + 1
decreasing_by
  · simp only [placedWeight_cons]
    omega
  · have := first.element.weight_pos
    simp only [placedWeight_cons]
    omega

end

mutual

theorem errorNodesAt_eq (here : Placed) (path : List Crumb)
    (outside : (above path).any (·.here.isError) = false) :
    errorNodesAt here path =
      (preorderAt here path).filter (fun location => location.isNode && location.isOutermostError) := by
  have clean : (above path).all (fun outer => !outer.here.isError) = true := by
    rw [List.all_eq_not_any_not]
    simpa using outside
  have found : Location.isOutermostError ⟨here, path⟩ = here.isError := by
    unfold Location.isOutermostError
    rw [clean, Bool.and_true]
  rw [errorNodesAt, preorderAt]
  cases token : here.isToken with
  | true =>
      rw [if_pos rfl, Placed.children_of_isToken token, preorderAmong]
      rw [List.filter_cons_of_neg (by simp [Location.isNode, token])]
      rfl
  | false =>
      rw [if_neg Bool.false_ne_true]
      cases error : here.isError with
      | true =>
          rw [if_pos rfl, List.filter_cons_of_pos (by simp [Location.isNode, token, found, error]),
            filter_preorderAmong_nil here path [] here.children (by rw [error]; rfl)]
      | false =>
          rw [if_neg Bool.false_ne_true, List.filter_cons_of_neg (by simp [found, error])]
          exact errorNodesAmong_eq here path [] here.children (by rw [error]; exact outside)
termination_by 2 * here.element.weight
decreasing_by
  have := here.weight_children
  omega

theorem errorNodesAmong_eq (parent : Placed) (path : List Crumb) (before items : List Placed)
    (outside : (parent.isError || (above path).any (·.here.isError)) = false) :
    errorNodesAmong parent path before items =
      (preorderAmong parent path before items).filter
        (fun location => location.isNode && location.isOutermostError) := by
  match items with
  | [] =>
      rw [errorNodesAmong, preorderAmong]
      rfl
  | first :: after =>
      rw [errorNodesAmong, preorderAmong, List.filter_append,
        errorNodesAt_eq first (⟨parent, before, after⟩ :: path) outside,
        errorNodesAmong_eq parent path (first :: before) after outside]
termination_by 2 * placedWeight items + 1
decreasing_by
  · simp only [placedWeight_cons]
    omega
  · have := first.element.weight_pos
    simp only [placedWeight_cons]
    omega

end

theorem errorNodesAt_root (tree : Tree) : errorNodesAt tree.placedRoot [] = tree.outermostErrors := by
  rw [errorNodesAt_eq tree.placedRoot [] rfl]
  unfold Tree.outermostErrors Location.descendants
  rw [List.filter_filter]
  refine List.filter_congr (fun location _ => ?_)
  exact Bool.and_comm _ _

mutual

theorem errorNodesAt_ordered (here : Placed) (path : List Crumb) (tiled : here.Tiled) :
    TextRange.Ordered here.range.start ((errorNodesAt here path).map (·.here.range)) here.range.stop := by
  have long : here.range.start ≤ here.range.stop := Nat.le_add_right _ _
  rw [errorNodesAt]
  cases token : here.isToken with
  | true => exact .nil long
  | false =>
      rw [if_neg Bool.false_ne_true]
      cases here.isError with
      | true => exact .cons (Nat.le_refl _) long (.nil (Nat.le_refl _))
      | false =>
          exact errorNodesAmong_ordered here path [] here.children (tiled here .root token)
            (fun child among => tiled.child among)
termination_by 2 * here.element.weight
decreasing_by
  have := here.weight_children
  omega

theorem errorNodesAmong_ordered (parent : Placed) (path : List Crumb) (before items : List Placed)
    {start stop : Nat} (tile : Placed.Tile start items stop) (tiled : ∀ item, item ∈ items → item.Tiled) :
    TextRange.Ordered start ((errorNodesAmong parent path before items).map (·.here.range)) stop := by
  match items, tile with
  | [], .nil =>
      rw [errorNodesAmong]
      exact .nil (Nat.le_refl _)
  | first :: after, .cons here tile =>
      rw [errorNodesAmong, List.map_append]
      have one := errorNodesAt_ordered first (⟨parent, before, after⟩ :: path) (tiled first List.mem_cons_self)
      have others := errorNodesAmong_ordered parent path (first :: before) after tile
        (fun item among => tiled item (List.mem_cons_of_mem _ among))
      exact (here ▸ one).append others
termination_by 2 * placedWeight items + 1
decreasing_by
  · simp only [placedWeight_cons]
    omega
  · have := first.element.weight_pos
    simp only [placedWeight_cons]
    omega

end

end Diagnostic

/-! ### Errors show -/

mutual

theorem any_hasError_flatten (offset : Nat) (field : Option FieldId) : ∀ element : Element,
    element.Everywhere Element.Tells →
    (flatten offset field element).any (·.element.hasError) = element.hasError
  | .token leaf, _ => by
      rw [flatten]
      exact Bool.or_false _
  | .node head children, tells => by
      rw [flatten]
      split
      · exact Bool.or_false _
      · rename_i rope
        have other : head.kind ≠ .error := tells.here.ropeNamed rope
        have made := tells.here.hasError_eq
        rw [beq_eq_false_iff_ne.mpr other, Bool.false_or] at made
        exact (any_hasError_flattenAll offset field children tells.inside).trans made.symm

theorem any_hasError_flattenAll (offset : Nat) (field : Option FieldId) : ∀ children : List Child,
    (∀ child, child ∈ children → child.element.Everywhere Element.Tells) →
    (flattenAll offset field children).any (·.element.hasError) = anyError children
  | [], _ => by
      rw [flattenAll]
      rfl
  | ⟨own, element⟩ :: rest, tell => by
      rw [flattenAll, List.any_append, anyError_cons,
        any_hasError_flatten offset (own.or field) element (tell ⟨own, element⟩ List.mem_cons_self),
        any_hasError_flattenAll (offset + element.textLength) field rest
          (fun child member => tell child (List.mem_cons_of_mem _ member))]

end

mutual

/-- Nothing that is seen of an element is unrecognised input, unless the element is. -/
theorem not_stray_flatten (offset : Nat) (field : Option FieldId) : ∀ element : Element,
    element.Everywhere Element.Tells → ¬ element.IsStray →
    ∀ placed, placed ∈ flatten offset field element → ¬ placed.element.IsStray
  | .token leaf, _, plain, placed, member => by
      rw [flatten] at member
      exact List.mem_singleton.mp member ▸ plain
  | .node head children, tells, plain, placed, member => by
      rw [flatten] at member
      split at member
      · exact List.mem_singleton.mp member ▸ plain
      · rename_i rope
        exact not_stray_flattenAll offset field children tells.inside
          (tells.here.not_stray (tells.here.ropeNamed rope)) placed member

theorem not_stray_flattenAll (offset : Nat) (field : Option FieldId) : ∀ children : List Child,
    (∀ child, child ∈ children → child.element.Everywhere Element.Tells) →
    (∀ child, child ∈ children → ¬ child.element.IsStray) →
    ∀ placed, placed ∈ flattenAll offset field children → ¬ placed.element.IsStray
  | [], _, _, placed, member => by
      rw [flattenAll] at member
      exact absurd member List.not_mem_nil
  | ⟨own, element⟩ :: rest, tell, plain, placed, member => by
      rw [flattenAll] at member
      rcases List.mem_append.mp member with first | others
      · exact not_stray_flatten offset (own.or field) element (tell ⟨own, element⟩ List.mem_cons_self)
          (plain ⟨own, element⟩ List.mem_cons_self) placed first
      · exact not_stray_flattenAll (offset + element.textLength) field rest
          (fun child among => tell child (List.mem_cons_of_mem _ among))
          (fun child among => plain child (List.mem_cons_of_mem _ among)) placed others

end

namespace Diagnostic

mutual

theorem errorNodesAt_eq_nil (here : Placed) (path : List Crumb) (tells : here.element.Everywhere Element.Tells)
    (plain : ¬ here.element.IsStray) : errorNodesAt here path = [] ↔ here.element.hasError = false := by
  rw [errorNodesAt]
  cases shape : here.element with
  | token leaf =>
      rw [shape] at plain
      have token : here.isToken = true := by rw [Placed.isToken, shape, Element.isToken]
      rw [if_pos token]
      exact iff_of_true rfl (Element.hasError_token plain)
  | node head children =>
      rw [shape] at tells
      have node : here.isToken = false := by rw [Placed.isToken, shape, Element.isToken]
      have made : head.info.hasError = (head.kind == .error || anyError children) := tells.here.hasError_eq
      have isError : here.isError = (head.kind == .error) := by rw [Placed.isError, Placed.kind, shape]; rfl
      rw [if_neg (by rw [node]; exact Bool.false_ne_true), isError]
      change _ ↔ head.info.hasError = false
      rw [made]
      cases error : (head.kind == .error) with
      | true => exact iff_of_false (List.cons_ne_nil _ _) (by simp)
      | false =>
          have other : head.kind ≠ .error := beq_eq_false_iff_ne.mp error
          have childrenEq : here.children = flattenAll here.offset none children := by
            rw [Placed.children, shape, Element.children]
          rw [if_neg Bool.false_ne_true, Bool.false_or,
            ← any_hasError_flattenAll here.offset none children tells.inside, ← childrenEq]
          refine errorNodesAmong_eq_nil here path [] here.children ?_ ?_
          · rw [childrenEq]
            exact flattenAll_everywhere here.offset none children tells.inside
          · rw [childrenEq]
            exact not_stray_flattenAll here.offset none children tells.inside (tells.here.not_stray other)
termination_by 2 * here.element.weight
decreasing_by
  have := here.weight_children
  omega

theorem errorNodesAmong_eq_nil (parent : Placed) (path : List Crumb) (before items : List Placed)
    (tell : ∀ item, item ∈ items → item.element.Everywhere Element.Tells)
    (plain : ∀ item, item ∈ items → ¬ item.element.IsStray) :
    errorNodesAmong parent path before items = [] ↔ items.any (·.element.hasError) = false := by
  match items with
  | [] =>
      rw [errorNodesAmong]
      exact iff_of_true rfl rfl
  | first :: after =>
      rw [errorNodesAmong, List.append_eq_nil_iff, List.any_cons, Bool.or_eq_false_iff]
      exact and_congr
        (errorNodesAt_eq_nil first (⟨parent, before, after⟩ :: path) (tell first List.mem_cons_self)
          (plain first List.mem_cons_self))
        (errorNodesAmong_eq_nil parent path (first :: before) after
          (fun item among => tell item (List.mem_cons_of_mem _ among))
          (fun item among => plain item (List.mem_cons_of_mem _ among)))
termination_by 2 * placedWeight items + 1
decreasing_by
  · simp only [placedWeight_cons]
    omega
  · have := first.element.weight_pos
    simp only [placedWeight_cons]
    omega

end

end Diagnostic

/-! ### What is reported of an error node -/

namespace Location

mutual

theorem below_of_mem_preorderAt (here : Placed) (path : List Crumb) (location : Location)
    (member : location ∈ preorderAt here path) : here.Below location.here := by
  rw [preorderAt] at member
  rcases List.mem_cons.mp member with rfl | inside
  · exact .root
  · obtain ⟨child, among, below⟩ := below_of_mem_preorderAmong here path [] here.children location inside
    exact Placed.Below.trans (.child .root among) below
termination_by 2 * here.element.weight
decreasing_by
  have := here.weight_children
  omega

theorem below_of_mem_preorderAmong (parent : Placed) (path : List Crumb) (before items : List Placed)
    (location : Location) (member : location ∈ preorderAmong parent path before items) :
    ∃ item, item ∈ items ∧ item.Below location.here := by
  match items with
  | [] =>
      rw [preorderAmong] at member
      exact absurd member List.not_mem_nil
  | first :: after =>
      rw [preorderAmong] at member
      rcases List.mem_append.mp member with here | others
      · exact ⟨first, List.mem_cons_self, below_of_mem_preorderAt first _ location here⟩
      · obtain ⟨item, among, below⟩ :=
          below_of_mem_preorderAmong parent path (first :: before) after location others
        exact ⟨item, List.mem_cons_of_mem _ among, below⟩
termination_by 2 * placedWeight items + 1
decreasing_by
  · simp only [placedWeight_cons]
    omega
  · have := first.element.weight_pos
    simp only [placedWeight_cons]
    omega

end

theorem below_of_mem_tokensBefore {parent : Placed} {path : List Crumb} {token : Location} :
    ∀ {before after : List Placed}, token ∈ tokensBefore parent path after before →
      token.here.isToken = true ∧ ∃ item, item ∈ before ∧ item.Below token.here
  | [], _, member => absurd member List.not_mem_nil
  | last :: before, after, member => by
      rw [tokensBefore] at member
      rcases List.mem_append.mp member with earlier | final
      · obtain ⟨isToken, item, among, below⟩ := below_of_mem_tokensBefore earlier
        exact ⟨isToken, item, List.mem_cons_of_mem _ among, below⟩
      · obtain ⟨passed, isToken⟩ := List.mem_filter.mp final
        exact ⟨isToken, last, List.mem_cons_self, below_of_mem_preorderAt last _ token passed⟩

theorem tokensAt_tile {here : Placed} (path : List Crumb) (tiled : here.Tiled) :
    Placed.Tile here.range.start ((tokensAt here path).map (·.here)) here.range.stop := by
  have tile := preorderAt_tile here path tiled
  unfold leavesAmong at tile
  rw [List.filter_map] at tile
  exact tile

/-- The tokens of a place that count for its trimmed range: all of them but the end of the input, in front
of which no other place has a token. -/
structure Trims (here : Placed) (path : List Crumb) (inner : List Location) : Prop where
  tokens : tokensAt here path = inner ∨ path = [] ∧ ∃ last, tokensAt here path = inner ++ [last] ∧
    last.here.kind = .endOfInput
  plain : ∀ token, token ∈ inner → token.here.kind ≠ .endOfInput
  leading_le : ∀ token, token ∈ inner → triviaLength token.here.leading ≤ token.here.element.textLength

variable {here : Placed} {path : List Crumb} {inner : List Location}

theorem Trims.tile (trims : Trims here path inner) (tiled : here.Tiled) : ∃ middle,
    Placed.Tile here.range.start (inner.map (·.here)) middle ∧ middle ≤ here.range.stop := by
  have tile := tokensAt_tile path tiled
  rcases trims.tokens with whole | ⟨_, last, whole, _⟩
  · rw [whole] at tile
    exact ⟨_, tile, Nat.le_refl _⟩
  · rw [whole, List.map_append] at tile
    obtain ⟨middle, front, final⟩ := tile.split
    exact ⟨middle, front, final.le⟩

theorem Trims.first_eq (trims : Trims here path inner) :
    (tokensAt here path).head?.filter (fun token => !(token.here.kind == .endOfInput)) = inner.head? := by
  have kept : inner.head?.filter (fun token => !(token.here.kind == .endOfInput)) = inner.head? := by
    cases found : inner.head? with
    | none => rfl
    | some first =>
        have plain := trims.plain first (List.mem_of_mem_head? found)
        simp [Option.filter, plain]
  rcases trims.tokens with whole | ⟨_, last, whole, ended⟩
  · rw [whole, kept]
  · rw [whole]
    cases inner with
    | nil => simp [Option.filter, ended]
    | cons first rest => exact kept

theorem Trims.last_eq (trims : Trims here path inner) (tiled : here.Tiled) :
    (tokensAt here path).getLast?.bind (fun token =>
      if token.here.kind == .endOfInput then
        token.prevToken?.filter (fun previous => here.range.start ≤ previous.here.offset)
      else some token) = inner.getLast? := by
  rcases trims.tokens with whole | ⟨top, last, whole, ended⟩
  · rw [whole]
    cases found : inner.getLast? with
    | none => rfl
    | some last =>
        have plain := trims.plain last (List.mem_of_getLast? found)
        rw [Option.bind_some, if_neg (by simpa using plain)]
  · have before := prevToken?_at here path whole
    rw [top, tokenBefore?, Option.or_none] at before
    rw [whole, List.getLast?_append, List.getLast?_singleton, Option.some_or, Option.bind_some,
      if_pos (by simp [ended]), before]
    cases found : inner.getLast? with
    | none => rfl
    | some previous =>
        obtain ⟨middle, tile, _⟩ := trims.tile tiled
        have behind : here.range.start ≤ previous.here.offset :=
          tile.start_le previous.here (List.mem_map_of_mem (List.mem_of_getLast? found))
        simp [Option.filter, behind]

theorem Trims.trimmedRange_eq (trims : Trims here path inner) (tiled : here.Tiled) :
    trimmedRange ⟨here, path⟩ =
      match inner.head?, inner.getLast? with
      | some first, some last => ⟨first.here.tokenRange.start, last.here.range.stop⟩
      | _, _ => ⟨here.range.start, here.range.start⟩ := by
  rw [← trims.first_eq, ← trims.last_eq tiled, ← firstTokenAt?_eq, ← lastTokenAt?_eq]
  rfl

theorem Trims.trimmedRange_within (trims : Trims here path inner) (tiled : here.Tiled) :
    here.range.contains (trimmedRange ⟨here, path⟩) = true ∧
      (trimmedRange ⟨here, path⟩).start ≤ (trimmedRange ⟨here, path⟩).stop := by
  have long : here.range.start ≤ here.range.stop := Nat.le_add_right _ _
  obtain ⟨middle, tile, bound⟩ := trims.tile tiled
  rw [trims.trimmedRange_eq tiled]
  unfold TextRange.contains
  rw [Bool.and_eq_true, decide_eq_true_iff, decide_eq_true_iff]
  cases shape : inner with
  | nil => exact ⟨⟨Nat.le_refl _, long⟩, Nat.le_refl _⟩
  | cons first rest =>
      obtain ⟨front, last, split⟩ : ∃ front last, inner = front ++ [last] :=
        ⟨_, _, (List.dropLast_append_getLast (by rw [shape]; exact List.cons_ne_nil _ _)).symm⟩
      have final : (first :: rest).getLast? = some last := by
        rw [← shape, split, List.getLast?_append, List.getLast?_singleton, Option.some_or]
      have stop : last.here.range.stop = middle := by
        rw [split, List.map_append] at tile
        exact tile.stop_eq
      have leading := trims.leading_le first (by rw [shape]; exact List.mem_cons_self)
      rw [shape, List.map_cons] at tile
      cases tile with
      | cons begins rest =>
          have reach := rest.le
          rw [List.head?_cons, final]
          change (here.range.start ≤ first.here.offset + _ ∧ last.here.range.stop ≤ here.range.stop) ∧
            first.here.offset + _ ≤ last.here.range.stop
          change first.here.offset = here.range.start at begins
          change first.here.offset + first.here.element.textLength ≤ middle at reach
          omega

section Elements

variable {table : Table}

theorem leading_le_of_sound {placed : Placed} (sound : placed.element.Sound table)
    (token : placed.isToken = true) : triviaLength placed.leading ≤ placed.element.textLength := by
  unfold Placed.leading
  unfold Placed.isToken at token
  cases shape : placed.element with
  | token leaf => exact Nat.le_of_lt (shape ▸ sound).here.1
  | node head children =>
      rw [shape] at token
      cases token

theorem trims_of_sound (path : List Crumb) (sound : here.element.Sound table) :
    Trims here path (tokensAt here path) := by
  have tokens : ∀ token, token ∈ tokensAt here path →
      token.here.element.Sound table ∧ token.here.isToken = true := by
    intro token member
    obtain ⟨passed, isToken⟩ := List.mem_filter.mp member
    exact ⟨(below_of_mem_preorderAt here path token passed).everywhere sound, isToken⟩
  refine ⟨Or.inl rfl, ?_, ?_⟩
  · intro token member
    exact (tokens token member).1.not_end (tokens token member).2
  · intro token member
    exact leading_le_of_sound (tokens token member).1 (tokens token member).2

end Elements

end Location

theorem mapM_done {Ending α β : Type} {holds : α → β → Prop} (operation : α → Except Ending β) :
    ∀ items : List α, (∀ item, item ∈ items → ∃ answer, operation item = .ok answer ∧ holds item answer) →
      ∃ answers, items.mapM operation = .ok answers ∧
        List.Forall₂ (fun item answer => operation item = .ok answer ∧ holds item answer) items answers
  | [], _each => ⟨[], rfl, .nil⟩
  | first :: rest, each => by
      obtain ⟨answer, here, holding⟩ := each first List.mem_cons_self
      obtain ⟨others, done, further⟩ :=
        mapM_done operation rest (fun item member => each item (List.mem_cons_of_mem first member))
      refine ⟨answer :: others, ?_, .cons ⟨here, holding⟩ further⟩
      rw [List.mapM_cons, here, done]
      rfl

section Rooted

open Location

variable {table : Table} {tree : Tree} (isRoot : tree.root.IsRoot table tree.text.size)

include isRoot

/-- In the root all tokens count but the end of the input after them. -/
theorem trims_root : ∃ inner, Trims tree.placedRoot [] inner := by
  obtain ⟨inner, last, shape, sound, ending⟩ := root_children isRoot
  have split := tokensAmong_split tree.placedRoot [] inner.reverse last
  rw [List.reverse_reverse, ← shape, ← tokensAt_node rfl] at split
  have tokens : ∀ token, token ∈ tokensBefore tree.placedRoot [] last inner.reverse →
      token.here.element.Sound table ∧ token.here.isToken = true := by
    intro token member
    obtain ⟨isToken, item, among, below⟩ := below_of_mem_tokensBefore member
    exact ⟨below.everywhere (sound item (List.mem_reverse.mp among)), isToken⟩
  refine ⟨tokensBefore tree.placedRoot [] last inner.reverse, ?_, ?_, ?_⟩
  · rcases ending with none | ⟨placed, only, leaf, isLeaf, kind, _⟩
    · rw [none, tokensAmong_nil, List.append_nil] at split
      exact Or.inl (none ▸ split)
    · subst only
      have token : placed.isToken = true := by
        unfold Placed.isToken
        rw [isLeaf]
        rfl
      rw [tokensAmong_cons, tokensAmong_nil, List.append_nil, tokensAt_token token] at split
      refine Or.inr ⟨rfl, _, split, ?_⟩
      unfold Placed.kind
      rw [isLeaf]
      exact kind
  · intro token member
    exact (tokens token member).1.not_end (tokens token member).2
  · intro token member
    exact leading_le_of_sound (tokens token member).1 (tokens token member).2

theorem node_of_mem_descendants {node : Location} (member : node ∈ (Location.root tree).descendants) :
    node = Location.root tree ∨ node.here.element.Sound table := by
  obtain ⟨passed, isNode⟩ := List.mem_filter.mp member
  unfold descendantsWithTokens Location.root at passed
  rw [preorderAt] at passed
  rcases List.mem_cons.mp passed with top | inside
  · exact Or.inl top
  · right
    obtain ⟨child, among, below⟩ := below_of_mem_preorderAmong _ _ _ _ node inside
    obtain ⟨inner, last, shape, sound, ending⟩ := root_children isRoot
    rw [shape] at among
    rcases List.mem_append.mp among with early | final
    · exact below.everywhere (sound child early)
    · rcases ending with none | ⟨placed, only, leaf, isLeaf, _⟩
      · rw [none] at final
        exact absurd final List.not_mem_nil
      · rw [only, List.mem_singleton] at final
        have token : child.isToken = true := by
          rw [final]
          unfold Placed.isToken
          rw [isLeaf]
          rfl
        unfold Location.isNode at isNode
        rw [below.eq_of_isToken token, token] at isNode
        cases isNode

theorem describe_ok (numbered : table.Numbered) (kinds : tree.kinds = table.kinds) {node : Location}
    (below : tree.placedRoot.Below node.here) :
    ∃ message, Diagnostic.describe tree.kinds node = .ok message := by
  unfold Diagnostic.describe
  dsimp only
  split
  · exact ⟨_, rfl⟩
  · rename_i token found
    have passed := List.mem_of_find?_eq_some found
    have wanted := List.find?_some found
    rw [Bool.and_eq_true, Bool.and_eq_true, bne_iff_ne] at wanted
    obtain ⟨⟨isToken, proper⟩, _⟩ := wanted
    have reached : tree.placedRoot.Below token.here :=
      below.trans (below_of_mem_preorderAt node.here node.path token passed)
    have known : token.here.kind.index < tree.kinds.kinds.size := by
      have terminal : token.here.kind.index < table.terminalCount := by
        cases shape : token.here.element with
        | node head children => simp [Location.isToken, Placed.isToken, shape, Element.isToken] at isToken
        | token leaf =>
            rcases below_stands isRoot reached with top | sound | ⟨other, same, ended, _⟩
            · rw [top] at shape
              cases shape
            · rw [shape] at sound
              unfold Placed.kind
              rw [shape]
              exact of_decide_eq_true sound.here.2.1
            · unfold Placed.kind at proper
              rw [same] at proper
              exact absurd ended proper
      have room := numbered.rules_le
      rw [kinds]
      change token.here.kind.index < table.kinds.size
      omega
    have info := requireAt_of_lt tree.kinds.kinds token.here.kind.index known
    exact ⟨_, bind_ok.mpr ⟨_, info, rfl⟩⟩

theorem ofErrorNode_ok (numbered : table.Numbered) (kinds : tree.kinds = table.kinds) {node : Location}
    (member : node ∈ tree.outermostErrors) : ∃ diagnostic,
      Diagnostic.ofErrorNode tree.kinds node = .ok diagnostic ∧
        node.here.range.contains diagnostic.range = true ∧ diagnostic.range.start ≤ diagnostic.range.stop := by
  have among : node ∈ (Location.root tree).descendants := (List.mem_filter.mp member).1
  have below : tree.placedRoot.Below node.here :=
    below_of_mem_preorderAt _ _ node (List.mem_filter.mp among).1
  have tiled : node.here.Tiled :=
    fun placed further isNode => children_tile isRoot (below.trans further) isNode
  have trims : ∃ inner, Trims node.here node.path inner := by
    rcases node_of_mem_descendants isRoot among with top | sound
    · rw [top]
      exact trims_root isRoot
    · exact ⟨_, trims_of_sound node.path sound⟩
  obtain ⟨inner, trims⟩ := trims
  obtain ⟨message, described⟩ := describe_ok isRoot numbered kinds below
  exact ⟨⟨message, node.trimmedRange⟩, bind_ok.mpr ⟨message, described, rfl⟩, trims.trimmedRange_within tiled⟩

/-- Diagnostics are collected from a tree: one for each outermost error node, within the node and in text
order. -/
theorem collect_reports (numbered : table.Numbered) (kinds : tree.kinds = table.kinds) :
    ∃ diagnostics, tree.Reports diagnostics := by
  obtain ⟨diagnostics, collected, each⟩ := mapM_done (Diagnostic.ofErrorNode tree.kinds) tree.outermostErrors
    (fun node member => ofErrorNode_ok isRoot numbered kinds member)
  refine ⟨diagnostics, ?_, each, ?_⟩
  · unfold Diagnostic.collect
    rw [Diagnostic.errorNodesAt_root]
    exact collected
  · have ordered := Diagnostic.errorNodesAt_ordered tree.placedRoot []
      (fun placed below isNode => children_tile isRoot below isNode)
    rw [Diagnostic.errorNodesAt_root] at ordered
    have inside : List.Forall₂ (fun outer range => TextRange.contains outer range = true ∧ range.start ≤ range.stop)
        (tree.outermostErrors.map (·.here.range)) (diagnostics.map (·.range)) := by
      rw [List.forall₂_map_left_iff, List.forall₂_map_right_iff]
      exact each.imp (fun _ _ reported => reported.2)
    exact (ordered.within inside).pairwise

theorem collect_eq_nil (numbered : table.Numbered) (kinds : tree.kinds = table.kinds) :
    Diagnostic.collect tree = .ok [] ↔ Diagnostic.errorNodesAt tree.placedRoot [] = [] := by
  obtain ⟨diagnostics, collected, each, _⟩ := collect_reports isRoot numbered kinds
  rw [collected, Diagnostic.errorNodesAt_root]
  constructor
  · intro none
    cases none
    exact List.forall₂_nil_right_iff.mp each
  · intro none
    rw [none] at each
    rw [List.forall₂_nil_left_iff.mp each]

end Rooted

end IncrementalParsing
