import IncrementalParsing.Proofs.Green.Elements

/-!
Elements in elements. A tree contains an element if the element itself, and not only an equal one, is the tree
or lies in it at some depth. Joining ropes keeps everything but the joins that it takes apart.
-/

namespace IncrementalParsing.Green

/-- An element is another one or has it in it at some depth. -/
inductive Element.Contains : Element → Element → Prop
  | refl (element : Element) : Contains element element
  | child {outer inner : Element} {child : Child} : child ∈ outer.children → Contains child.element inner →
      Contains outer inner

namespace Element

variable {outer middle inner : Element}

theorem Contains.trans (outside : outer.Contains middle) (inside : middle.Contains inner) :
    outer.Contains inner := by
  induction outside with
  | refl => exact inside
  | child member _ ih => exact .child member (ih inside)

theorem Contains.cases_head (contains : outer.Contains inner) :
    outer = inner ∨ ∃ child, child ∈ outer.children ∧ child.element.Contains inner := by
  cases contains with
  | refl => exact Or.inl rfl
  | child member inside => exact Or.inr ⟨_, member, inside⟩

theorem Everywhere.contains {holds : Element → Prop} (everywhere : outer.Everywhere holds)
    (contains : outer.Contains inner) : inner.Everywhere holds := by
  induction contains with
  | refl => exact everywhere
  | child member _ ih => exact ih (everywhere.inside _ member)

theorem contains_token {leaf : Token} : (Element.token leaf).Contains inner ↔ inner = .token leaf := by
  constructor
  · intro contains
    rcases contains.cases_head with same | ⟨child, member, _⟩
    · exact same.symm
    · exact absurd member List.not_mem_nil
  · rintro rfl
    exact .refl _

end Element

variable {table : Table}

theorem Node.IsRope.contains_iff {node : Node} (rope : node.IsRope table) {inner : Element}
    (plain : inner.isRope = false) :
    node.element.Contains inner ↔ ∃ base, base ∈ ropeBases node.element ∧ base.element.Contains inner := by
  refine Node.IsRope.induct
    (motive := fun node => node.element.Contains inner ↔
      ∃ base, base ∈ ropeBases node.element ∧ base.element.Contains inner) ?_ ?_ node.height (Nat.le_refl _) rope
  · intro node _ low
    rw [ropeBases_base low]
    simp
  · intro node left right _ halved _ _ leftIh rightIh
    have children : node.element.children = [⟨none, left.element⟩, ⟨none, right.element⟩] := by
      rw [halved.pair]
      rfl
    have parts : node.element.Contains inner ↔ left.element.Contains inner ∨ right.element.Contains inner := by
      constructor
      · intro contains
        rcases contains.cases_head with rfl | ⟨child, member, inside⟩
        · have height := halved.height_eq
          have low : node.info.ropeHeight = 0 := bne_eq_false_iff_eq.mp plain
          unfold Node.height at height
          omega
        · rw [children] at member
          rcases List.mem_cons.mp member with rfl | rest
          · exact Or.inl inside
          · cases List.mem_singleton.mp rest
            exact Or.inr inside
      · rintro (inLeft | inRight)
        · exact .child (children ▸ List.mem_cons_self) inLeft
        · exact .child (children ▸ List.mem_cons_of_mem _ List.mem_cons_self) inRight
    rw [parts, leftIh, rightIh, halved.bases_eq]
    simp only [List.mem_append, or_and_right, exists_or]

theorem JoinedFrom.contains {kind : KindId} {left right node : Node}
    (joined : JoinedFrom table kind left right node) (leftRope : left.IsRope table) (rightRope : right.IsRope table)
    {inner : Element} (plain : inner.isRope = false)
    (contains : left.element.Contains inner ∨ right.element.Contains inner) : node.element.Contains inner := by
  rw [joined.rope.contains_iff plain, joined.bases]
  rcases contains with inLeft | inRight
  · obtain ⟨base, member, inside⟩ := (leftRope.contains_iff plain).mp inLeft
    exact ⟨base, List.mem_append_left _ member, inside⟩
  · obtain ⟨base, member, inside⟩ := (rightRope.contains_iff plain).mp inRight
    exact ⟨base, List.mem_append_right _ member, inside⟩

end IncrementalParsing.Green
