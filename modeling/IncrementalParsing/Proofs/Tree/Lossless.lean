import IncrementalParsing.Proofs.Parsing.Reuse
import IncrementalParsing.Tree.Dump

/-!
Lossless trees. The children of a node, as they are seen from outside, stand one after another from
the beginning of the node to its end, so the texts of the leaves make up the text of the tree.
-/

namespace IncrementalParsing

open Green

/-- Elements that stand one after another, from `start` to `stop`. -/
inductive Placed.Tile : Nat → List Placed → Nat → Prop
  | nil {start : Nat} : Tile start [] start
  | cons {start stop : Nat} {first : Placed} {rest : List Placed} : first.range.start = start →
      Tile first.range.stop rest stop → Tile start (first :: rest) stop

/-- What is found in a tree by going from nodes to their children. -/
inductive Placed.Below (root : Placed) : Placed → Prop
  | root : Below root root
  | child {parent child : Placed} : Below root parent → child ∈ parent.children → Below root child

def Location.leavesAmong (locations : List Location) : List Placed :=
  (locations.map (·.here)).filter (·.isToken)

/-- The tokens of a tree in text order. -/
def Tree.leaves (tree : Tree) : List Placed :=
  Location.leavesAmong (Location.descendantsWithTokens ⟨tree.placedRoot, []⟩)

/-- Trees that hold their text without gap or overlap. -/
structure Tree.Lossless (tree : Tree) : Prop where
  root_length : tree.root.textLength = tree.text.size
  tiled : ∀ placed, tree.placedRoot.Below placed → placed.isToken = false →
    Placed.Tile placed.range.start placed.children placed.range.stop
  tokens_pos : ∀ placed, tree.placedRoot.Below placed → placed.isToken = true →
    0 < placed.element.textLength
  /-- The end of the input comes last in the root and nowhere else. -/
  end_last : ∀ parent before child after, tree.placedRoot.Below parent →
    parent.children = before ++ child :: after → child.isToken = true → child.kind = .endOfInput →
    parent = tree.placedRoot ∧ after = []
  text_eq : (tree.leaves.map (fun leaf => (tree.textOf leaf).toList)).flatten = tree.text.toList

namespace Placed.Tile

variable {start stop : Nat} {items left right : List Placed}

theorem split : ∀ {left : List Placed} {start : Nat}, Tile start (left ++ right) stop →
    ∃ middle, Tile start left middle ∧ Tile middle right stop
  | [], start, tile => ⟨start, .nil, tile⟩
  | _ :: _, _, .cons here tile => by
      obtain ⟨middle, first, second⟩ := split tile
      exact ⟨middle, .cons here first, second⟩

theorem start_le (tile : Tile start items stop) : ∀ item, item ∈ items → start ≤ item.range.start := by
  induction tile with
  | nil => exact fun _ none => absurd none List.not_mem_nil
  | @cons start stop first rest here _ ih =>
      intro item member
      have long : first.range.start ≤ first.range.stop := Nat.le_add_right _ _
      rcases List.mem_cons.mp member with rfl | later
      · exact Nat.le_of_eq here.symm
      · have after := ih item later
        omega

theorem stop_eq {last : Placed} (tile : Tile start (items ++ [last]) stop) : last.range.stop = stop := by
  obtain ⟨middle, _, final⟩ := tile.split
  cases final with
  | cons _ done =>
      cases done
      rfl

end Placed.Tile

namespace Placed

theorem Tile.append {start middle stop : Nat} {left right : List Placed}
    (first : Tile start left middle) (second : Tile middle right stop) : Tile start (left ++ right) stop := by
  induction first with
  | nil => exact second
  | cons here _ ih => exact .cons here (ih second)

theorem Tile.le {start stop : Nat} {items : List Placed} (tile : Tile start items stop) : start ≤ stop := by
  induction tile with
  | nil => exact Nat.le_refl _
  | @cons start stop first rest here _ ih =>
      have low : first.range.start ≤ first.range.stop := Nat.le_add_right _ _
      omega

/-- The texts of elements that stand one after another make up the text between. -/
theorem Tile.slices (text : Array UInt8) {start stop : Nat} {items : List Placed}
    (tile : Tile start items stop) :
    (items.map (fun item => (item.range.slice text).toList)).flatten =
      (text.extract start stop).toList := by
  induction tile with
  | @nil start => simp
  | @cons start stop first rest here tile ih =>
      have low : first.range.start ≤ first.range.stop := Nat.le_add_right _ _
      have high := tile.le
      rw [List.map_cons, List.flatten_cons, ih]
      unfold TextRange.slice
      rw [← Array.toList_append, Array.extract_append_extract, here, Nat.min_eq_left (here ▸ low),
        Nat.max_eq_right high]

theorem Below.trans {root middle placed : Placed} (below : root.Below middle)
    (further : middle.Below placed) : root.Below placed := by
  induction further with
  | root => exact below
  | child _ among ih => exact .child ih among

def Tiled (root : Placed) : Prop :=
  ∀ placed, root.Below placed → placed.isToken = false →
    Tile placed.range.start placed.children placed.range.stop

theorem Tiled.child {root child : Placed} (tiled : root.Tiled) (among : child ∈ root.children) :
    child.Tiled :=
  fun placed further => tiled placed (Below.trans (.child .root among) further)

end Placed

namespace Location

open Placed

theorem leavesAmong_append (left right : List Location) :
    leavesAmong (left ++ right) = leavesAmong left ++ leavesAmong right := by
  simp [leavesAmong]

mutual

theorem preorderAt_tile (here : Placed) (path : List Crumb) (tiled : here.Tiled) :
    Tile here.range.start (leavesAmong (preorderAt here path)) here.range.stop := by
  rw [preorderAt]
  cases token : here.isToken with
  | true =>
      have none : here.children = [] := by
        cases shape : here.element with
        | token leaf => simp [Placed.children, shape, Element.children, flattenAll]
        | node head children => simp [Placed.isToken, shape, Element.isToken] at token
      rw [none, preorderAmong]
      simp only [leavesAmong, List.map_cons, List.map_nil, List.filter_cons, token, List.filter_nil]
      exact .cons rfl .nil
  | false =>
      have below := preorderAmong_tile here path [] here.children (tiled here .root token)
        (fun child among => tiled.child among)
      simpa [leavesAmong, token] using below
termination_by 2 * here.element.weight
decreasing_by
  have := here.weight_children
  omega

theorem preorderAmong_tile (parent : Placed) (path : List Crumb) (before items : List Placed)
    {start stop : Nat} (tile : Tile start items stop) (tiled : ∀ item, item ∈ items → item.Tiled) :
    Tile start (leavesAmong (preorderAmong parent path before items)) stop := by
  match items, tile with
  | [], .nil =>
      rw [preorderAmong]
      exact .nil
  | first :: after, .cons here tile =>
      rw [preorderAmong, leavesAmong_append]
      have one := preorderAt_tile first (⟨parent, before, after⟩ :: path) (tiled first List.mem_cons_self)
      have others := preorderAmong_tile parent path (first :: before) after tile
        (fun item among => tiled item (List.mem_cons_of_mem _ among))
      exact (here ▸ one).append others
termination_by 2 * placedWeight items + 1
decreasing_by
  · simp only [placedWeight_cons]
    omega
  · have := first.element.weight_pos
    simp only [placedWeight_cons]
    omega

end

end Location

/-! ### The outside view of sound elements -/

/-- Elements that stand in trees: sound ones, and the end of the input. -/
abbrev Green.Element.Stands (table : Table) (element : Element) : Prop :=
  element.Sound table ∨ element.IsEnd

section Outside

variable {table : Table}

mutual

theorem flatten_tile (offset : Nat) (field : Option FieldId) : ∀ element : Element,
    element.Everywhere Element.Spans →
    Placed.Tile offset (flatten offset field element) (offset + element.textLength)
  | .token leaf, _ => by
      rw [flatten]
      exact .cons rfl .nil
  | .node head children, spans => by
      rw [flatten]
      split
      · exact .cons rfl .nil
      · have below := flattenAll_tile offset field children spans.inside
        rw [← show head.textLength = lengthOf children from spans.here] at below
        exact below

theorem flattenAll_tile (offset : Nat) (field : Option FieldId) : ∀ children : List Child,
    (∀ child, child ∈ children → child.element.Everywhere Element.Spans) →
    Placed.Tile offset (flattenAll offset field children) (offset + lengthOf children)
  | [], _ => by
      rw [flattenAll]
      exact .nil
  | ⟨own, element⟩ :: rest, span => by
      rw [flattenAll, lengthOf_cons, ← Nat.add_assoc]
      exact (flatten_tile offset (own.or field) element (span ⟨own, element⟩ List.mem_cons_self)).append
        (flattenAll_tile (offset + element.textLength) field rest
          (fun child member => span child (List.mem_cons_of_mem _ member)))

end

theorem Placed.tile_children {placed : Placed} (spans : placed.element.Everywhere Element.Spans)
    (node : placed.isToken = false) :
    Placed.Tile placed.range.start placed.children placed.range.stop := by
  have tile := flattenAll_tile placed.offset none placed.element.children spans.inside
  rw [← Element.length_children spans node] at tile
  exact tile

mutual

theorem flatten_everywhere {holds : Element → Prop} (offset : Nat) (field : Option FieldId) :
    ∀ element : Element, element.Everywhere holds →
    ∀ placed, placed ∈ flatten offset field element → placed.element.Everywhere holds
  | .token leaf, everywhere, placed, member => by
      rw [flatten] at member
      cases List.mem_singleton.mp member
      exact everywhere
  | .node head children, everywhere, placed, member => by
      rw [flatten] at member
      split at member
      · cases List.mem_singleton.mp member
        exact everywhere
      · exact flattenAll_everywhere offset field children
          (fun child among => everywhere.inside child among) placed member

theorem flattenAll_everywhere {holds : Element → Prop} (offset : Nat) (field : Option FieldId) :
    ∀ children : List Child, (∀ child, child ∈ children → child.element.Everywhere holds) →
    ∀ placed, placed ∈ flattenAll offset field children → placed.element.Everywhere holds
  | [], _, placed, member => by
      rw [flattenAll] at member
      exact absurd member List.not_mem_nil
  | ⟨own, element⟩ :: rest, everywhere, placed, member => by
      rw [flattenAll] at member
      rcases List.mem_append.mp member with first | others
      · exact flatten_everywhere offset (own.or field) element
          (everywhere ⟨own, element⟩ List.mem_cons_self) placed first
      · exact flattenAll_everywhere (offset + element.textLength) field rest
          (fun child among => everywhere child (List.mem_cons_of_mem _ among)) placed others

end

theorem Placed.Below.everywhere {holds : Element → Prop} {root placed : Placed} (below : root.Below placed)
    (everywhere : root.element.Everywhere holds) : placed.element.Everywhere holds := by
  induction below with
  | root => exact everywhere
  | child _ among ih => exact flattenAll_everywhere _ _ _ ih.inside _ among

theorem flattenAll_append (field : Option FieldId) : ∀ (left right : List Child) (offset : Nat),
    flattenAll offset field (left ++ right) =
      flattenAll offset field left ++ flattenAll (offset + lengthOf left) field right
  | [], right, offset => by
      rw [flattenAll]
      rfl
  | ⟨own, element⟩ :: rest, right, offset => by
      rw [List.cons_append, flattenAll, flattenAll, flattenAll_append field rest right, lengthOf_cons,
        List.append_assoc, Nat.add_assoc]

theorem Green.Element.Stands.length_pos {element : Element} (stands : element.Stands table)
    (token : element.isToken = true) : 0 < element.textLength := by
  rcases stands with sound | ⟨leaf, shape, _, _, long⟩
  · cases element with
    | token leaf => exact Nat.lt_of_le_of_lt (Nat.zero_le _) sound.here.1
    | node head children => cases token
  · rw [shape]
    exact long

theorem Green.Element.Everywhere.not_end {element : Element} (sound : element.Sound table)
    (token : element.isToken = true) : element.kind ≠ .endOfInput := by
  cases element with
  | token leaf => exact sound.here.2.2
  | node head children => cases token

end Outside

/-! ### Trees with a root -/

section Rooted

variable {table : Table} {tree : Tree} (isRoot : tree.root.IsRoot table tree.text.size)

include isRoot

theorem root_children : ∃ inner last, tree.placedRoot.children = inner ++ last ∧
    (∀ placed, placed ∈ inner → placed.element.Sound table) ∧
    (last = [] ∨ ∃ placed, last = [placed] ∧ placed.element.IsEnd) := by
  obtain ⟨inner, last, shape, sound, ending⟩ := isRoot.children
  refine ⟨flattenAll 0 none inner, flattenAll (0 + lengthOf inner) none last, ?_, ?_, ?_⟩
  · change flattenAll 0 none tree.root.children = _
    rw [shape, flattenAll_append]
  · exact flattenAll_everywhere 0 none inner sound
  · rcases ending with none | ⟨⟨own, element⟩, only, isEnd⟩
    · rw [none, flattenAll]
      exact Or.inl rfl
    · obtain ⟨leaf, same, kind, trivia, long⟩ := isEnd
      dsimp only at same
      subst same
      rw [only, flattenAll, flatten, flattenAll]
      exact Or.inr ⟨_, rfl, leaf, rfl, kind, trivia, long⟩

theorem below_stands {placed : Placed} (below : tree.placedRoot.Below placed) :
    placed = tree.placedRoot ∨ placed.element.Stands table := by
  induction below with
  | root => exact Or.inl rfl
  | @child parent child below among ih =>
      right
      rcases ih with isTop | stands
      · rw [isTop] at among
        obtain ⟨inner, last, shape, sound, ending⟩ := root_children isRoot
        rw [shape] at among
        rcases List.mem_append.mp among with inside | final
        · exact Or.inl (sound child inside)
        · rcases ending with none | ⟨only, same, isEnd⟩
          · rw [none] at final
            exact absurd final List.not_mem_nil
          · rw [same] at final
            exact Or.inr (List.mem_singleton.mp final ▸ isEnd)
      · unfold Placed.children at among
        rcases stands with sound | ⟨leaf, shape, _⟩
        · exact Or.inl (flattenAll_everywhere _ _ _ (fun inner member => sound.inside inner member) child among)
        · rw [shape] at among
          simp [Element.children, flattenAll] at among

theorem children_tile {placed : Placed} (below : tree.placedRoot.Below placed)
    (node : placed.isToken = false) :
    Placed.Tile placed.range.start placed.children placed.range.stop :=
  Placed.tile_children (below.everywhere isRoot.spans) node

/-- A tree whose root covers its text with sound elements is lossless. -/
theorem Tree.lossless_of_root : tree.Lossless where
  root_length := isRoot.length_eq
  tiled := fun placed below node => children_tile isRoot below node
  tokens_pos := by
    intro placed below token
    rcases below_stands isRoot below with isTop | stands
    · subst isTop
      cases token
    · exact stands.length_pos token
  end_last := by
    intro parent before child after below shape token ended
    have among : child ∈ parent.children := by
      rw [shape]
      exact List.mem_append_right _ List.mem_cons_self
    rcases below_stands isRoot below with isTop | stands
    · refine ⟨isTop, ?_⟩
      subst isTop
      obtain ⟨inner, last, parts, sound, ending⟩ := root_children isRoot
      rw [parts] at shape
      have notInner : child ∉ inner := fun inside => (sound child inside).not_end token ended
      rcases ending with none | ⟨only, same, isEnd⟩
      · rw [none, List.append_nil] at shape
        exact absurd (by rw [shape]; exact List.mem_append_right _ List.mem_cons_self) notInner
      · rw [same] at shape
        rcases List.eq_nil_or_concat after with none | ⟨front, final, concat⟩
        · exact none
        · rw [concat, List.concat_eq_append, ← List.cons_append, ← List.append_assoc] at shape
          have inner_eq := (List.append_inj' shape rfl).1
          exact absurd (by rw [inner_eq]; exact List.mem_append_right _ List.mem_cons_self) notInner
    · unfold Placed.children at among
      rcases stands with sound | ⟨leaf, leafShape, _⟩
      · exact absurd ended
          ((flattenAll_everywhere _ _ _ (fun inner member => sound.inside inner member) child among).not_end token)
      · rw [leafShape] at among
        simp [Element.children, flattenAll] at among
  text_eq := by
    have tile := Location.preorderAt_tile tree.placedRoot []
      (fun placed below node => children_tile isRoot below node)
    have slices := tile.slices tree.text
    refine slices.trans ?_
    change (tree.text.extract 0 (0 + tree.root.textLength)).toList = _
    rw [isRoot.length_eq, Nat.zero_add, Array.extract_size]

end Rooted

end IncrementalParsing
