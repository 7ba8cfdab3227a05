import IncrementalParsing.Proofs.Green.Balance
import IncrementalParsing.Proofs.Lalr.Chart

/-!
Well-made elements. A node is well made when its metadata follows from its children; the length of a
well-made node is the length of its children. A sound rope is a base, or a join of two sound ropes whose
heights differ by at most one, and a join of any two sound ropes is such a rope again.
-/

namespace IncrementalParsing.Green

/-- A property that an element and everything below it has. -/
inductive Element.Everywhere (holds : Element → Prop) : Element → Prop
  | token {leaf : Token} : holds (.token leaf) → Everywhere holds (.token leaf)
  | node {head : Head} {children : List Child} : holds (.node head children) →
      (∀ child, child ∈ children → Everywhere holds child.element) →
      Everywhere holds (.node head children)

theorem Element.Everywhere.here {holds : Element → Prop} {element : Element}
    (everywhere : element.Everywhere holds) : holds element := by
  cases everywhere with
  | token here => exact here
  | node here _ => exact here

theorem Element.Everywhere.inside {holds : Element → Prop} {element : Element}
    (everywhere : element.Everywhere holds) :
    ∀ child, child ∈ element.children → child.element.Everywhere holds := by
  cases everywhere with
  | token _ => exact fun child none => nomatch none
  | node _ below => exact below

theorem Element.Everywhere.mono {holds weaker : Element → Prop}
    (implies : ∀ element, holds element → weaker element) {element : Element}
    (everywhere : element.Everywhere holds) : element.Everywhere weaker := by
  induction everywhere with
  | token here => exact .token (implies _ here)
  | node here _ ih => exact .node (implies _ here) ih

theorem Element.induct {motive : Element → Prop} (token : ∀ leaf, motive (.token leaf))
    (node : ∀ head children, (∀ child, child ∈ children → motive child.element) →
      motive (.node head children)) : ∀ element, motive element
  | .token leaf => token leaf
  | .node head children => node head children (fun child _member => induct token node child.element)
termination_by element => sizeOf element
decreasing_by
  have smaller := List.sizeOf_lt_of_mem _member
  cases child
  simp only [Labelled.mk.sizeOf_spec, Element.node.sizeOf_spec] at smaller ⊢
  omega

/-! ### Lengths -/

@[simp] theorem lengthOf_nil : lengthOf [] = 0 := rfl

@[simp] theorem lengthOf_cons (child : Child) (rest : List Child) :
    lengthOf (child :: rest) = child.element.textLength + lengthOf rest := by
  simp [lengthOf]

@[simp] theorem lengthOf_append (left right : List Child) :
    lengthOf (left ++ right) = lengthOf left + lengthOf right := by
  simp [lengthOf]

theorem lengthOf_map (change : Child → Child)
    (keeps : ∀ child, (change child).element.textLength = child.element.textLength) :
    ∀ children : List Child, lengthOf (children.map change) = lengthOf children
  | [] => rfl
  | child :: rest => by
      rw [List.map_cons, lengthOf_cons, lengthOf_cons, keeps, lengthOf_map change keeps rest]

@[simp] theorem textLength_make (serial : Nat) (kind : KindId) (children : List Child)
    (origin : Origin) : (Node.make serial kind children origin).textLength = lengthOf children := rfl

@[simp] theorem kind_make (serial : Nat) (kind : KindId) (children : List Child) (origin : Origin) :
    (Node.make serial kind children origin).kind = kind := rfl

@[simp] theorem children_make (serial : Nat) (kind : KindId) (children : List Child)
    (origin : Origin) : (Node.make serial kind children origin).children = children := rfl

@[simp] theorem textLength_element (node : Node) : node.element.textLength = node.textLength := rfl

@[simp] theorem kind_element (node : Node) : node.element.kind = node.kind := rfl

/-! ### Well-made nodes -/

/-- The metadata of a node follows from its children. -/
def Node.IsMade (node : Node) : Prop :=
  ∃ origin, node = Node.make node.head.serial node.head.kind node.children origin

theorem Node.isMade_make (serial : Nat) (kind : KindId) (children : List Child) (origin : Origin) :
    (Node.make serial kind children origin).IsMade := ⟨origin, rfl⟩

theorem Node.IsMade.textLength {node : Node} (made : node.IsMade) :
    node.textLength = lengthOf node.children := by
  obtain ⟨origin, same⟩ := made
  rw [same]
  rfl

structure Node.Halved (node left right : Node) : Prop where
  pair : node = Rope.pair node.kind left right
  left_pos : 0 < left.height
  right_pos : 0 < right.height
  left_le : left.height ≤ right.height + 1
  right_le : right.height ≤ left.height + 1

/-- What a rope looks like: higher ropes are joins of lower ones. -/
def Node.RopeShaped (node : Node) : Prop := 1 < node.height → ∃ left right, node.Halved left right

/-- What is required of every element of a tree: tokens hold text of their own and are terminals other
than the end of the input; nodes are well made and of kinds that there are. -/
def Element.Proper (table : Table) : Element → Prop
  | .token leaf => triviaLength leaf.leading < leaf.textLength ∧ table.isTerminal leaf.kind = true ∧
      leaf.kind ≠ .endOfInput
  | .node head children => (Node.mk head children).IsMade ∧ (Node.mk head children).RopeShaped ∧
      table.HasKind head.kind

abbrev Element.Sound (table : Table) (element : Element) : Prop :=
  element.Everywhere (Element.Proper table)

theorem Node.sound_of_children {table : Table} {node : Node} (made : node.IsMade)
    (shaped : node.RopeShaped) (known : table.HasKind node.kind)
    (children : ∀ child, child ∈ node.children → child.element.Sound table) :
    node.element.Sound table :=
  .node ⟨made, shaped, known⟩ children

theorem Node.sound_make {table : Table} {serial : Nat} {kind : KindId} {children : List Child}
    {origin : Origin} (low : origin.ropeHeight ≤ 1) (known : table.HasKind kind)
    (sound : ∀ child, child ∈ children → child.element.Sound table) :
    (Node.make serial kind children origin).element.Sound table :=
  Node.sound_of_children (Node.isMade_make serial kind children origin)
    (fun high => absurd high (Nat.not_lt_of_le low)) known sound

/-! ### Ropes -/

structure Node.IsRope (table : Table) (node : Node) : Prop where
  sound : node.element.Sound table
  height_pos : 0 < node.height

namespace Node.Halved

variable {table : Table} {node left right : Node} (halved : node.Halved left right)

include halved

theorem height_eq : node.height = max left.height right.height + 1 :=
  (congrArg Node.height halved.pair).trans (height_pair _ _ _)

theorem splits : node.Splits left right where
  halves := by
    rw [halved.pair]
    exact halves?_pair _ _ _
  left_pos := halved.left_pos
  right_pos := halved.right_pos
  left_le := halved.left_le
  right_le := halved.right_le
  height_eq := halved.height_eq

theorem bases_eq : ropeBases node.element = ropeBases left.element ++ ropeBases right.element :=
  halved.splits.bases_eq

theorem ropes (rope : node.IsRope table) : left.IsRope table ∧ right.IsRope table := by
  have inside := rope.sound.inside
  have children : node.element.children = [⟨none, left.element⟩, ⟨none, right.element⟩] := by
    rw [halved.pair]
    rfl
  rw [children] at inside
  exact ⟨⟨inside _ List.mem_cons_self, halved.left_pos⟩,
    ⟨inside _ (List.mem_cons_of_mem _ List.mem_cons_self), halved.right_pos⟩⟩

end Node.Halved

namespace Node.IsRope

variable {table : Table}

theorem split {node : Node} (rope : node.IsRope table) (high : 1 < node.height) :
    ∃ left right, node.Halved left right := by
  obtain ⟨_, shaped, _⟩ := rope.sound.here
  exact shaped high

theorem halved_of_splits {node left right : Node} (rope : node.IsRope table) (splits : node.Splits left right) :
    node.Halved left right := by
  obtain ⟨first, second, halved⟩ := rope.split splits.high
  cases splits.halves.symm.trans halved.splits.halves
  exact halved

theorem induct {motive : Node → Prop}
    (base : ∀ node : Node, node.IsRope table → node.height ≤ 1 → motive node)
    (join : ∀ node left right : Node, node.IsRope table → node.Halved left right → left.IsRope table →
      right.IsRope table → motive left → motive right → motive node) :
    ∀ (size : Nat) {node : Node}, node.height ≤ size → node.IsRope table → motive node
  | 0, _, bound, rope => absurd rope.height_pos (Nat.not_lt_of_le bound)
  | size + 1, node, bound, rope => by
      rcases Nat.lt_or_ge 1 node.height with high | low
      · obtain ⟨left, right, halved⟩ := rope.split high
        obtain ⟨leftRope, rightRope⟩ := halved.ropes rope
        have height := halved.height_eq
        exact join node left right rope halved leftRope rightRope
          (induct base join size (by omega) leftRope)
          (induct base join size (by omega) rightRope)
      · exact base node rope low

theorem balanced {node : Node} (rope : node.IsRope table) : node.Balanced := by
  refine induct (motive := Node.Balanced) ?_ ?_ node.height (Nat.le_refl _) rope
  · intro node rope low
    exact .base (Nat.le_antisymm low rope.height_pos)
  · intro node left right _ halved _ _ leftBalanced rightBalanced
    exact .join halved.splits leftBalanced rightBalanced

end Node.IsRope

structure Rope.Inherited (kind : KindId) (holds : Node → Prop) : Prop where
  pair : ∀ first second, holds first → holds second → holds (Rope.pair kind first second)
  halves : ∀ whole first second, whole.Halved first second → holds whole → holds first ∧ holds second

/-- What joining two ropes gives: a rope of their bases, which is put together from parts of them. -/
structure JoinedFrom (table : Table) (kind : KindId) (left right node : Node) : Prop where
  rope : node.IsRope table
  kind_eq : node.kind = kind
  bases : ropeBases node.element = ropeBases left.element ++ ropeBases right.element
  inherits : ∀ holds, Rope.Inherited kind holds → holds left → holds right → holds node

section Joins

variable {table : Table} {kind : KindId} (known : table.HasKind kind)

include known

theorem isRope_pair {left right : Node} (leftRope : left.IsRope table) (rightRope : right.IsRope table)
    (leftLe : left.height ≤ right.height + 1) (rightLe : right.height ≤ left.height + 1) :
    (Rope.pair kind left right).IsRope table := by
  refine ⟨Node.sound_of_children ⟨_, rfl⟩ (fun _ => ?_) known ?_, Nat.succ_pos _⟩
  · exact ⟨left, right, rfl, leftRope.height_pos, rightRope.height_pos, leftLe, rightLe⟩
  · intro child member
    rcases List.mem_cons.mp member with first | rest
    · exact first ▸ leftRope.sound
    · exact List.mem_singleton.mp rest ▸ rightRope.sound

theorem Rope.Assembled.inherits {left right node : Node} (leftRope : left.IsRope table)
    (rightRope : right.IsRope table) {holds : Node → Prop} (inherited : Rope.Inherited kind holds)
    (ofLeft : holds left) (ofRight : holds right) (assembled : Rope.Assembled kind left right node) :
    node.IsRope table ∧ holds node := by
  induction assembled with
  | left => exact ⟨leftRope, ofLeft⟩
  | right => exact ⟨rightRope, ofRight⟩
  | first _ splits ih =>
      have halved := ih.1.halved_of_splits splits
      exact ⟨(halved.ropes ih.1).1, (inherited.halves _ _ _ halved ih.2).1⟩
  | second _ splits ih =>
      have halved := ih.1.halved_of_splits splits
      exact ⟨(halved.ropes ih.1).2, (inherited.halves _ _ _ halved ih.2).2⟩
  | pair _ _ leftLe rightLe firstIh secondIh =>
      exact ⟨isRope_pair known firstIh.1 secondIh.1 leftLe rightLe, inherited.pair _ _ firstIh.2 secondIh.2⟩

theorem join_joined {left right : Node} (leftRope : left.IsRope table) (rightRope : right.IsRope table) :
    ∃ node, Rope.join kind left right = .ok node ∧ JoinedFrom table kind left right node := by
  obtain ⟨node, joined, concatenates, _⟩ := exists_join kind leftRope.balanced rightRope.balanced
  have always : Rope.Inherited kind (fun _ => True) := ⟨fun _ _ _ _ => trivial, fun _ _ _ _ _ => ⟨trivial, trivial⟩⟩
  refine ⟨node, joined, ?_, concatenates.kind_eq, concatenates.bases, ?_⟩
  · exact (concatenates.assembled.inherits known leftRope rightRope always trivial trivial).1
  · intro holds inherited ofLeft ofRight
    exact (concatenates.assembled.inherits known leftRope rightRope inherited ofLeft ofRight).2

end Joins

end IncrementalParsing.Green
