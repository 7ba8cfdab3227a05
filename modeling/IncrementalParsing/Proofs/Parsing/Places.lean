import IncrementalParsing.Proofs.Green.Errors
import IncrementalParsing.Proofs.Lalr.Declared
import IncrementalParsing.Proofs.Parsing.Invariant

/-!
Nodes stay where they are. Whatever becomes of the elements on a stack, hidden nodes that give way to their
children, ropes that are joined or error nodes around them, their tokens keep their order, the nodes in
them keep their places, and an error in them is an error of the node around them.
-/

namespace IncrementalParsing

open Green

def loose (elements : List Element) : List Child := elements.map (fun element => ⟨none, element⟩)

@[simp] theorem loose_nil : loose [] = [] := rfl

@[simp] theorem loose_cons (element : Element) (rest : List Element) :
    loose (element :: rest) = ⟨none, element⟩ :: loose rest := rfl

@[simp] theorem loose_append (left right : List Element) :
    loose (left ++ right) = loose left ++ loose right := List.map_append

def contents (entries : List StackEntry) : List Child := loose (entries.map (·.element))

@[simp] theorem contents_nil : contents [] = [] := rfl

@[simp] theorem contents_cons (entry : StackEntry) (rest : List StackEntry) :
    contents (entry :: rest) = ⟨none, entry.element⟩ :: contents rest := rfl

@[simp] theorem contents_append (left right : List StackEntry) :
    contents (left ++ right) = contents left ++ contents right := by
  simp [contents]

theorem lengthOf_contents (entries : List StackEntry) : lengthOf (contents entries) = totalLength entries := by
  induction entries with
  | nil => rfl
  | cons entry rest ih => rw [contents_cons, lengthOf_cons, totalLength_cons, ih]

theorem anyError_contents {entries : List StackEntry} (clean : anyError (contents entries) = false) :
    ∀ entry, entry ∈ entries → entry.element.hasError = false := by
  induction entries with
  | nil => exact fun _ none => absurd none List.not_mem_nil
  | cons first rest ih =>
      rw [contents_cons, anyError_cons, Bool.or_eq_false_iff] at clean
      intro entry member
      rcases List.mem_cons.mp member with here | others
      · exact here ▸ clean.1
      · exact ih clean.2 entry others

section Contributions

variable {table : Table}

theorem tokensOf_spliced (field : Option FieldId) (element : Element) :
    tokensOf (spliced table field element) = element.tokens := by
  cases element with
  | token leaf => simp [spliced, tokensOf]
  | node head children =>
      unfold spliced
      dsimp only
      split
      · rw [Element.tokens]
        exact tokensOf_relabel (fun child => child.field.or field) children
      · simp [tokensOf]

theorem allHoldFrom_spliced {holds : Nat → Node → Prop} {offset : Nat} {element : Element}
    (field : Option FieldId) (held : element.HoldsFrom holds offset) :
    AllHoldFrom holds offset (spliced table field element) := by
  have alone : AllHoldFrom holds offset [⟨field, element⟩] := allHoldFrom_cons.mpr ⟨held, allHoldFrom_nil⟩
  cases element with
  | token leaf => exact alone
  | node head children =>
      unfold spliced
      dsimp only
      split
      · exact (allHoldFrom_relabel (fun child => child.field.or field)).mpr held.inside
      · exact alone

/-- Error nodes are not hidden, so what gives way to its children has an error only if they have one. -/
theorem anyError_spliced (visible : table.isHidden .error = false) (field : Option FieldId)
    {element : Element} (sound : element.Sound table) :
    anyError (spliced table field element) = element.hasError := by
  cases element with
  | token leaf => simp [spliced]
  | node head children =>
      unfold spliced
      dsimp only
      split
      · rename_i hides
        have hidden := (Bool.and_eq_true_iff.mp hides).2
        have other : head.kind ≠ .error := by
          intro error
          rw [error, visible] at hidden
          cases hidden
        have made := sound.here.1.hasError_eq
        rw [anyError_relabel (fun child => child.field.or field)]
        change head.info.hasError = (head.kind == .error || anyError children) at made
        rw [beq_eq_false_iff_ne.mpr other, Bool.false_or] at made
        exact made.symm
      · simp

theorem tokensOf_productionChildren : ∀ (fields : List (Option FieldId)) (entries : List StackEntry),
    tokensOf (productionChildren table fields entries) = tokensOf (contents entries)
  | _, [] => rfl
  | fields, entry :: rest => by
      rw [productionChildren, contents_cons, tokensOf_cons]
      split
      · rw [tokensOf_append, tokensOf_spliced, tokensOf_productionChildren _ rest]
      · rw [tokensOf_append, tokensOf_spliced, tokensOf_productionChildren _ rest]

theorem allHoldFrom_productionChildren {holds : Nat → Node → Prop} :
    ∀ (fields : List (Option FieldId)) (entries : List StackEntry) (offset : Nat),
    ParseStack.Sound table entries → AllHoldFrom holds offset (contents entries) →
    AllHoldFrom holds offset (productionChildren table fields entries)
  | _, [], _, _, _ => allHoldFrom_nil
  | fields, entry :: rest, offset, sound, held => by
      obtain ⟨here, others⟩ := allHoldFrom_cons.mp held
      have length : ∀ field, lengthOf (spliced table field entry.element) = entry.element.textLength :=
        fun _ => lengthOf_spliced (sound entry List.mem_cons_self)
      rw [productionChildren]
      split
      · rw [allHoldFrom_append, length]
        exact ⟨allHoldFrom_spliced _ here, allHoldFrom_productionChildren _ rest _ sound.tail others⟩
      · rw [allHoldFrom_append, length]
        exact ⟨allHoldFrom_spliced _ here, allHoldFrom_productionChildren _ rest _ sound.tail others⟩

theorem anyError_productionChildren (visible : table.isHidden .error = false) :
    ∀ (fields : List (Option FieldId)) (entries : List StackEntry), ParseStack.Sound table entries →
    anyError (productionChildren table fields entries) = anyError (contents entries)
  | _, [], _ => rfl
  | fields, entry :: rest, sound => by
      have here := fun field => anyError_spliced visible field (sound entry List.mem_cons_self)
      rw [productionChildren, contents_cons, anyError_cons]
      split
      · rw [anyError_append, here, anyError_productionChildren visible _ rest sound.tail]
      · rw [anyError_append, here, anyError_productionChildren visible _ rest sound.tail]

/-- Error nodes are not hidden, so nothing that gives way to its children has unrecognised input. -/
theorem not_stray_spliced (visible : table.isHidden .error = false) (field : Option FieldId) {element : Element}
    (tells : element.Everywhere Element.Tells) (plain : ¬ element.IsStray) :
    ∀ child, child ∈ spliced table field element → ¬ child.element.IsStray := by
  intro child member
  cases element with
  | token leaf => exact List.mem_singleton.mp member ▸ plain
  | node head children =>
      unfold spliced at member
      dsimp only at member
      split at member
      · rename_i hides
        have hidden := (Bool.and_eq_true_iff.mp hides).2
        have other : head.kind ≠ .error := by
          intro error
          rw [error, visible] at hidden
          cases hidden
        obtain ⟨inner, among, rfl⟩ := List.mem_map.mp member
        exact tells.here.not_stray other inner among
      · exact List.mem_singleton.mp member ▸ plain

theorem not_stray_productionChildren (visible : table.isHidden .error = false) :
    ∀ (fields : List (Option FieldId)) (entries : List StackEntry),
    (∀ entry, entry ∈ entries → entry.element.Everywhere Element.Tells ∧ ¬ entry.element.IsStray) →
    ∀ child, child ∈ productionChildren table fields entries → ¬ child.element.IsStray
  | _, [], _, _, member => nomatch member
  | fields, entry :: rest, tell, child, member => by
      obtain ⟨tells, plain⟩ := tell entry List.mem_cons_self
      have others : ∀ other, other ∈ rest →
          other.element.Everywhere Element.Tells ∧ ¬ other.element.IsStray :=
        fun other among => tell other (List.mem_cons_of_mem _ among)
      unfold productionChildren at member
      split at member
      · rcases List.mem_append.mp member with first | later
        · exact not_stray_spliced visible _ tells plain child first
        · exact not_stray_productionChildren visible _ rest others child later
      · rcases List.mem_append.mp member with first | later
        · exact not_stray_spliced visible _ tells plain child first
        · exact not_stray_productionChildren visible _ rest others child later

/-! ### The node of a production -/

structure Assembled (production : ProductionInfo) (entries : List StackEntry) (origin : Origin)
    (node : Node) : Prop where
  tokens_eq : node.element.tokens = tokensOf (contents entries)
  holdsFrom : ∀ (holds : Nat → Node → Prop) (offset : Nat), AllHoldFrom holds offset (contents entries) →
    (node.height = 0 → holds offset node) → node.element.HoldsFrom holds offset
  ropeNamed : (∀ entry, entry ∈ entries → entry.element.Everywhere Element.RopeNamed) →
    node.element.Everywhere Element.RopeNamed
  hasError_eq : (∀ entry, entry ∈ entries → entry.element.Everywhere Element.RopeNamed) →
    node.info.hasError = anyError (contents entries)
  tells : (∀ entry, entry ∈ entries → entry.element.Everywhere Element.Tells ∧ ¬ entry.element.IsStray) →
    node.element.Everywhere Element.Tells
  made : node.height = 0 → ∃ serial children, node = .make serial production.lhs children origin

theorem buildNode_assembled {production : ProductionInfo} {entries : List StackEntry} {origin : Origin}
    {serial : Nat} {node : Node} (visible : table.isHidden .error = false)
    (other : production.lhs ≠ .error) (known : table.HasKind production.lhs)
    (sound : ParseStack.Sound table entries)
    (built : buildNode table serial production entries origin = .ok node) :
    Assembled production entries origin node := by
  have errorEq : (production.lhs == .error ||
      anyError (productionChildren table production.fields entries)) = anyError (contents entries) := by
    rw [beq_eq_false_iff_ne.mpr other, Bool.false_or, anyError_productionChildren visible _ _ sound]
  have made : ∀ (serial : Nat) (from_ : Origin), (from_.ropeHeight = 0 → from_ = origin) →
      Assembled production entries origin (.make serial production.lhs
        (productionChildren table production.fields entries) from_) := by
    intro serial from_ same
    refine ⟨?_, ?_, ?_, fun _ => errorEq, ?_, fun low => ⟨serial, _, by rw [same low]⟩⟩
    · change Element.tokens (.node _ _) = _
      rw [Element.tokens]
      exact tokensOf_productionChildren _ _
    · intro holds offset held here
      exact Node.holdsFrom_iff.mpr ⟨here, allHoldFrom_productionChildren _ _ _ sound held⟩
    · intro named
      exact .node (fun _ => other) (everywhere_productionChildren _ _ named)
    · intro tell
      exact Node.tells_make (Or.inr ⟨other, not_stray_productionChildren visible _ _ tell⟩)
        (everywhere_productionChildren _ _ (fun entry member => (tell entry member).1))
  have base : Assembled production entries origin (Rope.base production.lhs
      (productionChildren table production.fields entries) origin) :=
    made 0 _ (fun impossible => by cases impossible)
  cases buildNode_builtBy known sound built with
  | plain => exact made serial origin (fun _ => rfl)
  | base => exact base
  | @join first second left right _ _ shape firstIs secondIs leftRope rightRope joined =>
      have children : contents entries = [⟨none, left.element⟩, ⟨none, right.element⟩] := by
        rw [shape, contents_cons, contents_cons, contents_nil, firstIs, secondIs]
      have halves : (∀ entry, entry ∈ entries → entry.element.Everywhere Element.RopeNamed) →
          left.element.Everywhere Element.RopeNamed ∧ right.element.Everywhere Element.RopeNamed := by
        intro named
        rw [shape] at named
        exact ⟨firstIs ▸ named first List.mem_cons_self,
          secondIs ▸ named second (List.mem_cons_of_mem _ List.mem_cons_self)⟩
      refine ⟨?_, ?_, ?_, ?_, ?_, ?_⟩
      · rw [joined.tokens_eq leftRope rightRope, children, tokensOf_cons, tokensOf_cons]
        simp [tokensOf]
      · intro holds offset held _
        rw [children, allHoldFrom_cons, allHoldFrom_cons] at held
        exact (joined.holdsFrom_iff leftRope rightRope offset).mpr ⟨held.1, held.2.1⟩
      · intro named
        exact joined.ropeNamed other (halves named).1 (halves named).2
      · intro named
        rw [joined.hasError_eq leftRope rightRope other (halves named).1 (halves named).2, children,
          anyError_cons, anyError_cons, anyError_nil, Bool.or_false]
        rfl
      · intro tell
        rw [shape] at tell
        exact joined.inherits _ (inherited_tells other) (firstIs ▸ (tell first List.mem_cons_self).1)
          (secondIs ▸ (tell second (List.mem_cons_of_mem _ List.mem_cons_self)).1)
      · intro low
        exact absurd joined.rope.height_pos (by omega)

/-! ### Error nodes -/

theorem allHoldFrom_splicedIntoError {holds : Nat → Node → Prop} {offset : Nat} {element : Element}
    (held : element.HoldsFrom holds offset) :
    AllHoldFrom holds offset (splicedIntoError table element) := by
  unfold splicedIntoError
  split
  · exact (allHoldFrom_relabel (fun _ => none)).mpr held.inside
  · exact allHoldFrom_spliced none held

theorem allHoldFrom_errorChildren {holds : Nat → Node → Prop} : ∀ (elements : List Element) (offset : Nat),
    (∀ element, element ∈ elements → element.Sound table) → AllHoldFrom holds offset (loose elements) →
    AllHoldFrom holds offset (elements.flatMap (splicedIntoError table))
  | [], _, _, _ => allHoldFrom_nil
  | element :: rest, offset, sound, held => by
      obtain ⟨here, others⟩ := allHoldFrom_cons.mp held
      rw [List.flatMap_cons, allHoldFrom_append, lengthOf_splicedIntoError (sound element List.mem_cons_self)]
      exact ⟨allHoldFrom_splicedIntoError here, allHoldFrom_errorChildren rest _
        (fun other among => sound other (List.mem_cons_of_mem _ among)) others⟩

end Contributions

/-! ### Stacks -/

namespace ParseStack

def Held (holds : Nat → Node → Prop) (stack : ParseStack) : Prop :=
  ∀ entry, entry ∈ stack → entry.element.HoldsFrom holds entry.offset

variable {table : Table} {holds : Nat → Node → Prop}

theorem Held.tail {entry : StackEntry} {below : ParseStack} (held : Held holds (entry :: below)) :
    Held holds below :=
  fun other member => held other (List.mem_cons_of_mem _ member)

theorem Held.contents : ∀ (popped : List StackEntry) {below : ParseStack}, Follows table (popped ++ below) →
    Held holds (popped ++ below) → AllHoldFrom holds (stop below) (contents popped.reverse)
  | [], _, _, _ => allHoldFrom_nil
  | top :: rest, below, follows, held => by
      have offset : top.offset = stop below + totalLength rest :=
        follows.rests.offset_eq.trans (follows.tail.stop_append rest below)
      rw [List.reverse_cons, contents_append, allHoldFrom_append, lengthOf_contents, totalLength_reverse,
        ← offset, contents_cons, allHoldFrom_cons]
      exact ⟨Held.contents rest follows.tail held.tail, held top List.mem_cons_self, allHoldFrom_nil⟩

end ParseStack

namespace Machine

theorem allHoldFrom_gathered {table : Table} {holds : Nat → Node → Prop} : ∀ stack : ParseStack,
    stack.Follows table → ParseStack.Sound table stack → stack.Held holds →
    AllHoldFrom holds 0 (gathered stack).2
  | [], _, _, _ => allHoldFrom_nil
  | entry :: below, follows, sound, held => by
      have place : entry.offset = 0 + lengthOf (gathered below).2 := by
        have whole := ParseStack.Follows.stop_append below [] (below.append_nil.symm ▸ follows.tail)
        rw [follows.rests.offset_eq, lengthOf_gathered below sound.tail]
        rw [List.append_nil] at whole
        exact whole
      have before := allHoldFrom_gathered below follows.tail sound.tail held.tail
      have here := held entry List.mem_cons_self
      rw [place] at here
      rw [gathered_cons]
      split
      · rename_i head inner extra shape
        rw [shape] at here
        exact allHoldFrom_append.mpr ⟨before, here.inside⟩
      · exact allHoldFrom_append.mpr ⟨before, allHoldFrom_cons.mpr ⟨here, allHoldFrom_nil⟩⟩

end Machine

end IncrementalParsing
