import IncrementalParsing.Proofs.Green.Contents

/-!
Where the errors are in an element. Unrecognised input is only ever a child of error nodes, and ropes are
no error nodes. So an element in which something is wrong holds an error node, and one can see it: neither
joining ropes nor giving way to children hides an error node.
-/

namespace IncrementalParsing.Green

def Element.IsStray (element : Element) : Prop := element.isToken = true ∧ element.kind = .error

/-- A node that was made with the errors of its children, and is either an error node and no rope, or holds no
unrecognised input of its own. -/
def Element.Tells : Element → Prop
  | .token _ => True
  | .node head children => (Node.mk head children).IsMade ∧
      (head.kind = .error ∧ head.info.ropeHeight = 0 ∨
        head.kind ≠ .error ∧ ∀ child, child ∈ children → ¬ child.element.IsStray)

theorem Element.not_stray_node (head : Head) (children : List Child) :
    ¬ (Element.node head children).IsStray := fun stray => by cases stray.1

theorem Element.hasError_token {leaf : Token} (plain : ¬ (Element.token leaf).IsStray) :
    (Element.token leaf).hasError = false := beq_eq_false_iff_ne.mpr (fun error => plain ⟨rfl, error⟩)

namespace Element.Tells

theorem ropeNamed {element : Element} (tells : element.Tells) : element.RopeNamed := by
  cases element with
  | token leaf => trivial
  | node head children =>
      intro rope
      rcases tells.2 with ⟨_, low⟩ | ⟨other, _⟩
      · exact absurd low rope
      · exact other

variable {head : Head} {children : List Child} (tells : (Element.node head children).Tells)

include tells

theorem hasError_eq : head.info.hasError = (head.kind == .error || anyError children) := tells.1.hasError_eq

theorem not_stray (other : head.kind ≠ .error) : ∀ child, child ∈ children → ¬ child.element.IsStray := by
  rcases tells.2 with ⟨error, _⟩ | ⟨_, plain⟩
  · exact absurd error other
  · exact plain

end Element.Tells

theorem Node.tells_make {serial : Nat} {kind : KindId} {children : List Child} {origin : Origin}
    (errors : kind = .error ∧ origin.ropeHeight = 0 ∨
      kind ≠ .error ∧ ∀ child, child ∈ children → ¬ child.element.IsStray)
    (inside : ∀ child, child ∈ children → child.element.Everywhere Element.Tells) :
    (Node.make serial kind children origin).element.Everywhere Element.Tells :=
  .node ⟨Node.isMade_make serial kind children origin, errors⟩ inside

theorem inherited_tells {kind : KindId} (other : kind ≠ .error) :
    Rope.Inherited kind (fun node => node.element.Everywhere Element.Tells) where
  pair := by
    intro first second firstTells secondTells
    refine Node.tells_make (Or.inr ⟨other, ?_⟩) ?_
    · intro child member
      rcases List.mem_cons.mp member with rfl | rest
      · exact Element.not_stray_node _ _
      · exact List.mem_singleton.mp rest ▸ Element.not_stray_node _ _
    · intro child member
      rcases List.mem_cons.mp member with rfl | rest
      · exact firstTells
      · exact List.mem_singleton.mp rest ▸ secondTells
  halves := by
    intro whole first second halved tells
    have inside := tells.inside
    change ∀ child, child ∈ whole.children → _ at inside
    rw [halved.children_eq] at inside
    exact ⟨inside _ List.mem_cons_self, inside _ (List.mem_cons_of_mem _ List.mem_cons_self)⟩

end IncrementalParsing.Green
