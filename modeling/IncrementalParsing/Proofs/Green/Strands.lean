import IncrementalParsing.Proofs.Green.Bare
import IncrementalParsing.Proofs.Green.Regrouping

/-!
Ropes as rows of bases. A rope is seen as the children of its bases one after the other, and what it says of
itself it says of its bases: where they stand, how far was looked past them and whether they are intact. How
far was looked past consecutive children is said by a bound that all of them keep.
-/

namespace IncrementalParsing

namespace Green

/-! ### Bounds -/

/-- No byte from `stop` on was examined for consecutive children, the first of which begins at `offset`. -/
def Within (stop : Nat) : Nat → List Child → Prop
  | _, [] => True
  | offset, child :: rest => offset + child.element.textLength + child.element.lookahead ≤ stop ∧
      Within stop (offset + child.element.textLength) rest

theorem within_append {stop : Nat} {right : List Child} : ∀ {left : List Child} {offset : Nat},
    Within stop offset (left ++ right) ↔ Within stop offset left ∧ Within stop (offset + lengthOf left) right
  | [], offset => by simp [Within]
  | child :: rest, offset => by
      rw [List.cons_append, Within, Within, within_append, lengthOf_cons, and_assoc, ← Nat.add_assoc offset]

theorem within_relabel {stop : Nat} (label : Child → Option FieldId) : ∀ {children : List Child} {offset : Nat},
    Within stop offset (children.map (fun child => ⟨label child, child.element⟩)) ↔ Within stop offset children
  | [], _ => Iff.rfl
  | child :: rest, offset => by
      rw [List.map_cons, Within, Within, within_relabel label]

theorem within_examinedEnd (base : Nat) : ∀ (children : List Child) (offset bound : Nat),
    Within (base + examinedEnd offset bound children) (base + offset) children
  | [], _, _ => trivial
  | child :: rest, offset, bound => by
      refine ⟨?_, ?_⟩
      · have reached := le_examinedEnd rest (offset + child.element.textLength)
          (max bound (offset + child.element.textLength + child.element.lookahead))
        change base + offset + child.element.textLength + child.element.lookahead ≤ base + examinedEnd _ _ rest
        omega
      · rw [Nat.add_assoc]
        exact within_examinedEnd base rest _ _

theorem Within.mono {stop further : Nat} (le : stop ≤ further) : ∀ {children : List Child} {offset : Nat},
    Within stop offset children → Within further offset children
  | [], _, _ => trivial
  | _ :: _, _, within => ⟨Nat.le_trans within.1 le, within.2.mono le⟩

theorem Node.IsMade.within {node : Node} (made : node.IsMade) (offset : Nat) :
    Within (offset + node.textLength + node.info.lookahead) offset node.children := by
  obtain ⟨origin, same⟩ := made
  have lookahead : node.info.lookahead =
      examinedEnd 0 origin.decisionEnd node.children - lengthOf node.children :=
    congrArg (fun node : Node => node.info.lookahead) same
  have length : node.textLength = lengthOf node.children :=
    congrArg Node.textLength same
  refine Within.mono ?_ (within_examinedEnd offset node.children 0 origin.decisionEnd)
  omega

theorem Within.reach_le {table : Table} {stop : Nat} : ∀ {children : List Child} {offset : Nat},
    (∀ child, child ∈ children → child.element.Sound table) → Within stop offset children →
    reach offset (tokensOf children) ≤ stop
  | [], _, _, _ => Nat.zero_le _
  | child :: rest, offset, sound, within => by
      have here := sound child List.mem_cons_self
      rw [tokensOf_cons, reach_append, lengthOfTokens_tokens here]
      exact Nat.max_le.mpr ⟨Nat.le_trans (reach_tokens_le here offset) within.1,
        Within.reach_le (fun other member => sound other (List.mem_cons_of_mem _ member)) within.2⟩

theorem reach_head_le {tokens : List Token} {first : Token} (head : tokens.head? = some first) (offset : Nat) :
    offset + first.textLength + first.lookahead ≤ reach offset tokens := by
  cases tokens with
  | nil => cases head
  | cons token rest =>
      cases head
      exact Nat.le_max_left _ _

/-! ### Bases in their places -/

def Node.Intact (node : Node) : Prop := node.info.hasError = false ∧ node.info.fragile = false

def placed : Nat → List Node → List (Nat × Node)
  | _, [] => []
  | offset, node :: rest => (offset, node) :: placed (offset + node.textLength) rest

def lengthOfNodes (nodes : List Node) : Nat := sumOf (nodes.map (·.textLength))

@[simp] theorem lengthOfNodes_cons (node : Node) (rest : List Node) :
    lengthOfNodes (node :: rest) = node.textLength + lengthOfNodes rest := by
  simp [lengthOfNodes]

theorem placed_append : ∀ (left right : List Node) (offset : Nat),
    placed offset (left ++ right) = placed offset left ++ placed (offset + lengthOfNodes left) right
  | [], _, _ => rfl
  | node :: rest, right, offset => by
      rw [List.cons_append, placed, placed, placed_append rest right, lengthOfNodes_cons, Nat.add_assoc]
      rfl

theorem exists_mem_placed : ∀ {nodes : List Node} {offset : Nat} {place : Nat × Node},
    place ∈ placed offset nodes → place.2 ∈ nodes
  | node :: rest, offset, place, member => by
      rcases List.mem_cons.mp member with rfl | later
      · exact List.mem_cons_self
      · exact List.mem_cons_of_mem _ (exists_mem_placed later)

def strands (bases : List Node) : List Child := bases.flatMap (·.element.bare.children)

@[simp] theorem strands_append (left right : List Node) : strands (left ++ right) = strands left ++ strands right := by
  simp [strands]

section Ropes

variable {table : Table}

theorem Node.IsRope.bases_ne_nil {node : Node} (rope : node.IsRope table) : ropeBases node.element ≠ [] := by
  refine Node.IsRope.induct (motive := fun node => ropeBases node.element ≠ []) ?_ ?_ node.height (Nat.le_refl _) rope
  · intro node rope low
    rw [ropeBases_base low]
    exact List.cons_ne_nil _ _
  · intro node left right _ halved _ _ some_ _
    rw [halved.bases_eq]
    exact List.append_ne_nil_of_left_ne_nil some_ _

theorem Node.IsRope.textLength_eq {node : Node} (rope : node.IsRope table) :
    node.textLength = lengthOfNodes (ropeBases node.element) := by
  have length := lengthOf_spread rope
  unfold Node.spread lengthOf at length
  rw [← length, List.map_map]
  rfl

theorem Node.IsRope.tokens_eq {node : Node} (rope : node.IsRope table) :
    node.element.tokens = (ropeBases node.element).flatMap (·.element.tokens) := by
  rw [← tokensOf_spread rope, Node.spread]
  induction ropeBases node.element with
  | nil => rfl
  | cons base rest ih => rw [List.map_cons, tokensOf_cons, ih, List.flatMap_cons]

theorem Node.IsRope.bare_eq {node : Node} (rope : node.IsRope table) : node.element.bare =
    .node (.bare node.kind (lengthOfNodes (ropeBases node.element)) 1) (strands (ropeBases node.element)) := by
  have strands : plainly node.children = strands (ropeBases node.element) := by
    refine Node.IsRope.induct (motive := fun node => plainly node.children = strands (ropeBases node.element))
      ?_ ?_ node.height (Nat.le_refl _) rope
    · intro node rope low
      rw [ropeBases_base low, Green.strands, List.flatMap_cons, List.flatMap_nil, List.append_nil,
        Node.bare_rope rope.height_pos]
      rfl
    · intro node left right _ halved leftRope rightRope ofLeft ofRight
      rw [halved.bases_eq, strands_append, ← ofLeft, ← ofRight, halved.children_eq, ← List.singleton_append,
        plainly_append, plainly_rope none leftRope.height_pos, plainly_rope none rightRope.height_pos,
        map_inherit_none, map_inherit_none]
  rw [Node.bare_rope rope.height_pos, strands, ← rope.textLength_eq]

end Ropes

namespace Rope.TellsOf

variable {bases : List Node} {node : Node} (tells : TellsOf bases node)

include tells

theorem intact (intact : node.Intact) : ∀ base, base ∈ bases → base.Intact := by
  intro base member
  have clean := tells.hasError.symm.trans intact.1
  have solid := tells.fragile.symm.trans intact.2
  rw [List.any_eq_false] at clean solid
  exact ⟨Bool.eq_false_iff.mpr (clean base member), Bool.eq_false_iff.mpr (solid base member)⟩

omit tells in
theorem index_of_mem_placed : ∀ {nodes : List Node} {offset : Nat} {place : Nat × Node},
    place ∈ placed offset nodes → ∃ index : Nat, nodes[index]? = some place.2 ∧
      place.1 + place.2.textLength = offset + endOf nodes (index + 1)
  | node :: rest, offset, place, member => by
      rcases List.mem_cons.mp member with rfl | later
      · exact ⟨0, rfl, by rw [endOf_cons]; simp [endOf]⟩
      · obtain ⟨index, found, ending⟩ := index_of_mem_placed later
        exact ⟨index + 1, found, by rw [ending, endOf_cons, Nat.add_assoc]⟩

theorem within {offset : Nat} {place : Nat × Node} (member : place ∈ placed offset bases) :
    place.1 + place.2.textLength + place.2.info.lookahead ≤ offset + node.textLength + node.info.lookahead := by
  obtain ⟨index, found, ending⟩ := index_of_mem_placed member
  have reached := tells.lookahead_le index place.2 found
  rw [ending, tells.textLength]
  omega

omit tells in
theorem of_append {lefts rights : List Node} {left right : Node} (ofLeft : TellsOf lefts left)
    (ofRight : TellsOf rights right) (whole : TellsOf (lefts ++ rights) node) :
    node.info.preState = left.info.preState ∧ node.info.nextLexMode = right.info.nextLexMode ∧
      node.info.fragile = (left.info.fragile || right.info.fragile) := by
  have first := whole.preState
  have last := whole.nextLexMode
  rw [List.head?_append_of_ne_nil _ ofLeft.ne_nil, ofLeft.preState] at first
  rw [List.getLast?_append_of_ne_nil _ ofRight.ne_nil, ofRight.nextLexMode] at last
  refine ⟨(Option.some.inj first).symm, (Option.some.inj last).symm, ?_⟩
  rw [whole.fragile, ofLeft.fragile, ofRight.fragile, List.any_append]

end Rope.TellsOf

end Green

open Green

section Contributions

variable {table : Table}

theorem within_spliced {stop offset : Nat} {element : Element} (sound : element.Sound table)
    (field : Option FieldId) (within : offset + element.textLength + element.lookahead ≤ stop) :
    Within stop offset (spliced table field element) := by
  have alone : Within stop offset [⟨field, element⟩] := ⟨within, trivial⟩
  cases element with
  | token leaf => exact alone
  | node head children =>
      unfold spliced
      dsimp only
      split
      · rw [within_relabel (fun child => child.field.or field)]
        exact (sound.here.1.within offset).mono within
      · exact alone

theorem within_productionChildren {stop : Nat} : ∀ (fields : List (Option FieldId)) (entries : List StackEntry)
    (offset : Nat), ParseStack.Sound table entries →
    (Within stop offset (productionChildren table fields entries) ↔
      Within stop offset (entries.flatMap (fun entry => spliced table none entry.element)))
  | _, [], _, _ => Iff.rfl
  | fields, entry :: rest, offset, sound => by
      have length : ∀ field, lengthOf (spliced table field entry.element) = entry.element.textLength :=
        fun _ => lengthOf_spliced (sound entry List.mem_cons_self)
      have relabelled : ∀ field, Within stop offset (spliced table field entry.element) ↔
          Within stop offset (spliced table none entry.element) := by
        intro field
        cases entry.element with
        | token leaf => exact Iff.rfl
        | node head children =>
            unfold spliced
            dsimp only
            split
            · rw [within_relabel (fun child => child.field.or field), within_relabel (fun child => child.field.or none)]
            · exact Iff.rfl
      rw [productionChildren, List.flatMap_cons]
      split
      · rw [within_append, within_append, length, within_productionChildren _ rest _ sound.tail]
      · rw [within_append, within_append, length, length, relabelled,
          within_productionChildren _ rest _ sound.tail]

end Contributions

end IncrementalParsing
