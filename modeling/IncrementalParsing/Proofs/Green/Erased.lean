import IncrementalParsing.Parsing.Stack
import IncrementalParsing.Proofs.Outcome

/-!
Elements without their identity. Two elements are alike when they are equal once the serial numbers are
taken away, and everything that builds elements works on what is left: a node, a rope or the children of
a production made from erased elements is the erased node, rope or list of children.
-/

namespace IncrementalParsing

open Green

namespace Green

mutual

def Element.erase : Element → Element
  | .token leaf => .token { leaf with serial := 0 }
  | .node head children => .node { head with serial := 0 } (eraseAll children)

def eraseAll : List Child → List Child
  | [] => []
  | ⟨field, element⟩ :: rest => ⟨field, element.erase⟩ :: eraseAll rest

end

def Child.erase (child : Child) : Child := ⟨child.field, child.element.erase⟩

@[simp] theorem eraseAll_nil : eraseAll [] = [] := by rw [eraseAll]

@[simp] theorem eraseAll_cons (child : Child) (rest : List Child) :
    eraseAll (child :: rest) = Child.erase child :: eraseAll rest := by
  rw [eraseAll]
  rfl

theorem eraseAll_eq_map : ∀ children : List Child, eraseAll children = children.map Child.erase
  | [] => by simp
  | child :: rest => by rw [eraseAll_cons, List.map_cons, eraseAll_eq_map rest]

@[simp] theorem eraseAll_append (left right : List Child) :
    eraseAll (left ++ right) = eraseAll left ++ eraseAll right := by
  simp only [eraseAll_eq_map, List.map_append]

mutual

theorem Element.alike_iff : ∀ left right : Element, left.alike right = true ↔ left.erase = right.erase
  | .token left, .token right => by
      rw [Element.alike, Element.erase, Element.erase, beq_iff_eq, Element.token.injEq]
  | .token left, .node head children => by simp [Element.alike, Element.erase]
  | .node head children, .token right => by simp [Element.alike, Element.erase]
  | .node left leftChildren, .node right rightChildren => by
      rw [Element.alike, Element.erase, Element.erase, Bool.and_eq_true, beq_iff_eq, Element.node.injEq,
        alikeAll_iff leftChildren rightChildren]

theorem alikeAll_iff : ∀ left right : List Child,
    alikeAll left right = true ↔ eraseAll left = eraseAll right
  | [], [] => by simp [alikeAll]
  | [], ⟨field, element⟩ :: rest => by simp [alikeAll]
  | ⟨field, element⟩ :: rest, [] => by simp [alikeAll]
  | ⟨field, element⟩ :: rest, ⟨otherField, other⟩ :: others => by
      rw [alikeAll, eraseAll, eraseAll, Bool.and_eq_true, Bool.and_eq_true, beq_iff_eq,
        Element.alike_iff element other, alikeAll_iff rest others, List.cons.injEq, Labelled.mk.injEq]

end

namespace Element

@[simp] theorem kind_erase (element : Element) : element.erase.kind = element.kind := by
  cases element with
  | token leaf => rw [erase]; rfl
  | node head children => rw [erase]; rfl

@[simp] theorem textLength_erase (element : Element) : element.erase.textLength = element.textLength := by
  cases element with
  | token leaf => rw [erase]; rfl
  | node head children => rw [erase]; rfl

@[simp] theorem lookahead_erase (element : Element) : element.erase.lookahead = element.lookahead := by
  cases element with
  | token leaf => rw [erase]; rfl
  | node head children => rw [erase]; rfl

@[simp] theorem firstLexMode_erase (element : Element) :
    element.erase.firstLexMode = element.firstLexMode := by
  cases element with
  | token leaf => rw [erase]; rfl
  | node head children => rw [erase]; rfl

@[simp] theorem hasError_erase (element : Element) : element.erase.hasError = element.hasError := by
  cases element with
  | token leaf => rw [erase]; rfl
  | node head children => rw [erase]; rfl

@[simp] theorem isFragile_erase (element : Element) : element.erase.isFragile = element.isFragile := by
  cases element with
  | token leaf => rw [erase]; rfl
  | node head children => rw [erase]; rfl

@[simp] theorem isRope_erase (element : Element) : element.erase.isRope = element.isRope := by
  cases element with
  | token leaf => rw [erase]; rfl
  | node head children => rw [erase]; rfl

end Element

/-! ### Making nodes -/

@[simp] theorem lengthOf_eraseAll (children : List Child) :
    lengthOf (eraseAll children) = lengthOf children := by
  simp [lengthOf, eraseAll_eq_map, Child.erase, Function.comp_def]

@[simp] theorem examinedEnd_eraseAll : ∀ (children : List Child) (offset bound : Nat),
    examinedEnd offset bound (eraseAll children) = examinedEnd offset bound children
  | [], _, _ => by simp
  | child :: rest, offset, bound => by
      rw [eraseAll_cons, examinedEnd, examinedEnd]
      simp only [Child.erase, Element.textLength_erase, Element.lookahead_erase]
      exact examinedEnd_eraseAll rest _ _

@[simp] theorem firstModeOf?_eraseAll (children : List Child) :
    firstModeOf? (eraseAll children) = firstModeOf? children := by
  simp [firstModeOf?, eraseAll_eq_map, List.find?_map, Child.erase, Function.comp_def]

@[simp] theorem any_hasError_eraseAll (children : List Child) :
    (eraseAll children).any (fun child => child.element.hasError) =
      children.any (fun child => child.element.hasError) := by
  simp [eraseAll_eq_map, List.any_map, Child.erase, Function.comp_def]

@[simp] theorem any_isFragile_eraseAll (children : List Child) :
    (eraseAll children).any (fun child => child.element.isFragile) =
      children.any (fun child => child.element.isFragile) := by
  simp [eraseAll_eq_map, List.any_map, Child.erase, Function.comp_def]

namespace Node

def erase (node : Node) : Node := ⟨{ node.head with serial := 0 }, eraseAll node.children⟩

@[simp] theorem erase_element (node : Node) : node.element.erase = node.erase.element := by
  change Element.erase (.node node.head node.children) = _
  rw [Element.erase]
  rfl

@[simp] theorem info_erase (node : Node) : node.erase.info = node.info := rfl

@[simp] theorem height_erase (node : Node) : node.erase.height = node.height := rfl

theorem erase_make (serial : Nat) (kind : KindId) (children : List Child) (origin : Origin) :
    (make serial kind children origin).erase = make 0 kind (eraseAll children) origin := by
  unfold erase make
  simp

/-- The halves of a node are found without serial numbers too. -/
theorem halves?_erase (node : Node) :
    node.erase.halves? = node.halves?.map (fun halves => (halves.1.erase, halves.2.erase)) := by
  obtain ⟨head, children⟩ := node
  have bare : (Node.mk head children).erase.children = eraseAll children := rfl
  unfold halves?
  rw [bare]
  rcases children with _ | ⟨first, _ | ⟨second, _ | ⟨third, rest⟩⟩⟩
  · rfl
  · simp
  · obtain ⟨_, firstElement⟩ := first
    obtain ⟨_, secondElement⟩ := second
    cases firstElement with
    | token leaf => simp [Child.erase, Element.erase]
    | node head children =>
        cases secondElement with
        | token leaf => simp [Child.erase, Element.erase]
        | node head children => simp [Child.erase, Element.erase, Node.erase]
  · simp

theorem halves_erase (node : Node) :
    node.erase.halves = node.halves.map (fun halves => (halves.1.erase, halves.2.erase)) := by
  unfold halves
  rw [halves?_erase]
  cases node.halves? with
  | none => rfl
  | some found => rfl

end Node

namespace Rope

theorem erase_base (kind : KindId) (children : List Child) (origin : Origin) :
    (base kind children origin).erase = base kind (eraseAll children) origin :=
  Node.erase_make _ _ _ _

theorem erase_pair (kind : KindId) (left right : Node) :
    (pair kind left right).erase = pair kind left.erase right.erase := by
  unfold pair
  rw [Node.erase_make]
  simp [Child.erase]

theorem erase_rotateLeft (kind : KindId) (node : Node) :
    (rotateLeft kind node).map Node.erase = rotateLeft kind node.erase := by
  unfold rotateLeft
  rw [Node.halves_erase]
  cases node.halves with
  | error fault => rfl
  | ok outer =>
      obtain ⟨first, rest⟩ := outer
      change ((rest.halves >>= fun inner => pure (pair kind (pair kind first inner.1) inner.2) :
        Except Fault Node).map Node.erase) =
        (rest.erase.halves >>= fun inner => pure (pair kind (pair kind first.erase inner.1) inner.2))
      rw [Node.halves_erase]
      cases rest.halves with
      | error fault => rfl
      | ok inner =>
          change Except.ok (pair kind (pair kind first inner.1) inner.2).erase = Except.ok _
          rw [erase_pair, erase_pair]

theorem erase_rotateRight (kind : KindId) (node : Node) :
    (rotateRight kind node).map Node.erase = rotateRight kind node.erase := by
  unfold rotateRight
  rw [Node.halves_erase]
  cases node.halves with
  | error fault => rfl
  | ok outer =>
      obtain ⟨rest, third⟩ := outer
      change ((rest.halves >>= fun inner => pure (pair kind inner.1 (pair kind inner.2 third)) :
        Except Fault Node).map Node.erase) =
        (rest.erase.halves >>= fun inner => pure (pair kind inner.1 (pair kind inner.2 third.erase)))
      rw [Node.halves_erase]
      cases rest.halves with
      | error fault => rfl
      | ok inner =>
          change Except.ok (pair kind inner.1 (pair kind inner.2 third)).erase = Except.ok _
          rw [erase_pair, erase_pair]

theorem erase_bind {first : Except Fault Node} {next after : Node → Except Fault Node}
    (each : ∀ node, (next node).map Node.erase = after node.erase) :
    (first >>= next).map Node.erase = first.map Node.erase >>= after := by
  cases first with
  | error fault => rfl
  | ok node => exact each node

theorem joinRight_eq {kind : KindId} {left right outer inner : Node}
    (split : left.halves? = some (outer, inner)) :
    joinRight kind left right =
      if inner.height ≤ right.height + 1 then
        if (pair kind inner right).height ≤ outer.height + 1 then
          .ok (pair kind outer (pair kind inner right))
        else do
          let turned ← rotateRight kind (pair kind inner right)
          rotateLeft kind (pair kind outer turned)
      else joinRight kind inner right >>= fun joined =>
        if joined.height ≤ outer.height + 1 then pure (pair kind outer joined)
        else rotateLeft kind (pair kind outer joined) := by
  rw [joinRight]
  split
  · rename_i impossible
    rw [split] at impossible
    cases impossible
  · rename_i found
    rw [split] at found
    cases found
    rfl

theorem joinRight_of_none {kind : KindId} {left right : Node} (split : left.halves? = none) :
    joinRight kind left right = .error .malformedArgument := by
  rw [joinRight]
  split
  · rfl
  · rename_i found
    rw [split] at found
    cases found

theorem erase_joinRight (kind : KindId) (left right : Node) :
    (joinRight kind left right).map Node.erase = joinRight kind left.erase right.erase := by
  fun_induction joinRight kind left right with
  | case1 left split =>
      rw [joinRight_of_none (by rw [Node.halves?_erase, split]; rfl)]
      rfl
  | case2 left outer inner found close joined balanced =>
      rw [joinRight_eq (by rw [Node.halves?_erase, found]; rfl)]
      simp only [← erase_pair, Node.height_erase]
      rw [if_pos close, if_pos balanced]
      rfl
  | case3 left outer inner found close joined unbalanced =>
      rw [joinRight_eq (by rw [Node.halves?_erase, found]; rfl)]
      simp only [← erase_pair, Node.height_erase]
      rw [if_pos close, if_neg unbalanced, ← erase_rotateRight]
      refine erase_bind (fun turned => ?_)
      rw [erase_rotateLeft, erase_pair]
  | case4 left outer inner found far ih =>
      have split : left.erase.halves? = some (outer.erase, inner.erase) := by
        rw [Node.halves?_erase, found]
        rfl
      rw [joinRight_eq split, Node.height_erase, Node.height_erase, Node.height_erase, if_neg far, ← ih]
      refine erase_bind (fun joined => ?_)
      rw [← erase_pair, ← erase_rotateLeft]
      change (if joined.height ≤ outer.height + 1 then Except.ok (pair kind outer joined)
        else rotateLeft kind (pair kind outer joined)).map Node.erase =
        if joined.height ≤ outer.height + 1 then Except.ok (pair kind outer joined).erase
        else (rotateLeft kind (pair kind outer joined)).map Node.erase
      split
      · rfl
      · rfl

theorem joinLeft_eq {kind : KindId} {left right inner outer : Node}
    (split : right.halves? = some (inner, outer)) :
    joinLeft kind left right =
      if inner.height ≤ left.height + 1 then
        if (pair kind left inner).height ≤ outer.height + 1 then
          .ok (pair kind (pair kind left inner) outer)
        else do
          let turned ← rotateLeft kind (pair kind left inner)
          rotateRight kind (pair kind turned outer)
      else joinLeft kind left inner >>= fun joined =>
        if joined.height ≤ outer.height + 1 then pure (pair kind joined outer)
        else rotateRight kind (pair kind joined outer) := by
  rw [joinLeft]
  split
  · rename_i impossible
    rw [split] at impossible
    cases impossible
  · rename_i found
    rw [split] at found
    cases found
    rfl

theorem joinLeft_of_none {kind : KindId} {left right : Node} (split : right.halves? = none) :
    joinLeft kind left right = .error .malformedArgument := by
  rw [joinLeft]
  split
  · rfl
  · rename_i found
    rw [split] at found
    cases found

theorem erase_joinLeft (kind : KindId) (left right : Node) :
    (joinLeft kind left right).map Node.erase = joinLeft kind left.erase right.erase := by
  fun_induction joinLeft kind left right with
  | case1 right split =>
      rw [joinLeft_of_none (by rw [Node.halves?_erase, split]; rfl)]
      rfl
  | case2 right inner outer found close joined balanced =>
      rw [joinLeft_eq (by rw [Node.halves?_erase, found]; rfl)]
      simp only [← erase_pair, Node.height_erase]
      rw [if_pos close, if_pos balanced]
      rfl
  | case3 right inner outer found close joined unbalanced =>
      rw [joinLeft_eq (by rw [Node.halves?_erase, found]; rfl)]
      simp only [← erase_pair, Node.height_erase]
      rw [if_pos close, if_neg unbalanced, ← erase_rotateLeft]
      refine erase_bind (fun turned => ?_)
      rw [erase_rotateRight, erase_pair]
  | case4 right inner outer found far ih =>
      have split : right.erase.halves? = some (inner.erase, outer.erase) := by
        rw [Node.halves?_erase, found]
        rfl
      rw [joinLeft_eq split, Node.height_erase, Node.height_erase, Node.height_erase, if_neg far, ← ih]
      refine erase_bind (fun joined => ?_)
      rw [← erase_pair, ← erase_rotateRight]
      change (if joined.height ≤ outer.height + 1 then Except.ok (pair kind joined outer)
        else rotateRight kind (pair kind joined outer)).map Node.erase =
        if joined.height ≤ outer.height + 1 then Except.ok (pair kind joined outer).erase
        else (rotateRight kind (pair kind joined outer)).map Node.erase
      split
      · rfl
      · rfl

theorem erase_join (kind : KindId) (left right : Node) :
    (join kind left right).map Node.erase = join kind left.erase right.erase := by
  unfold join
  rw [Node.height_erase, Node.height_erase, ← erase_joinRight, ← erase_joinLeft, ← erase_pair]
  split
  · rfl
  · split
    · rfl
    · rfl

end Rope

end Green

/-! ### The node of a production -/

/-- What an entry contributes to a node: its element, and whether it is an extra. -/
def StackEntry.erase (entry : StackEntry) : StackEntry := ⟨.start, entry.element.erase, entry.extra, 0⟩

theorem spliced_erase (table : Table) (field : Option FieldId) (element : Element) :
    eraseAll (spliced table field element) = spliced table field element.erase := by
  cases element with
  | token leaf =>
      rw [Element.erase]
      unfold spliced
      rw [eraseAll_cons, eraseAll_nil, Child.erase, Element.erase]
  | node head children =>
      have whole : Element.erase (.node head children) =
          .node { head with serial := 0 } (eraseAll children) := by rw [Element.erase]
      rw [whole]
      unfold spliced
      dsimp only
      split
      · simp [eraseAll_eq_map, Child.erase, Function.comp_def]
      · rw [eraseAll_cons, eraseAll_nil, Child.erase, whole]

theorem productionChildren_erase (table : Table) : ∀ (entries : List StackEntry)
    (fields : List (Option FieldId)), eraseAll (productionChildren table fields entries) =
      productionChildren table fields (entries.map StackEntry.erase)
  | [], _ => by simp [productionChildren]
  | entry :: rest, fields => by
      rw [List.map_cons, productionChildren, productionChildren]
      change _ = if entry.extra then spliced table none entry.element.erase ++ _
        else spliced table _ entry.element.erase ++ _
      split
      · rw [eraseAll_append, spliced_erase, productionChildren_erase table rest]
      · rw [eraseAll_append, spliced_erase, productionChildren_erase table rest]

theorem ropePair?_erase (entries : List StackEntry) :
    ropePair? (entries.map StackEntry.erase) =
      (ropePair? entries).map (fun halves => (halves.1.erase, halves.2.erase)) := by
  match entries with
  | [] => rfl
  | [_] => rfl
  | _ :: _ :: _ :: _ => rfl
  | [left, right] =>
      unfold ropePair?
      simp only [List.map_cons, List.map_nil, StackEntry.erase, Element.isRope_erase]
      split
      · cases left.element with
        | token leaf => simp [Element.erase, Element.toNode?]
        | node head children =>
            cases right.element with
            | token leaf => simp [Element.erase, Element.toNode?]
            | node otherHead otherChildren => simp [Element.erase, Element.toNode?, Node.erase]
      · rfl

/-- The node of a production depends on what the entries contribute, and not on anything else that is
known of them. -/
theorem buildNode_erase (table : Table) (serial : Nat) (production : ProductionInfo)
    (entries : List StackEntry) (origin : Origin) :
    (buildNode table serial production entries origin).map Node.erase =
      buildNode table 0 production (entries.map StackEntry.erase) origin := by
  have children := productionChildren_erase table entries production.fields
  unfold buildNode
  dsimp only
  split
  · rw [← children]
    exact congrArg Except.ok (Node.erase_make _ _ _ _)
  · rw [← children]
    exact congrArg Except.ok (Rope.erase_base _ _ _)
  · rw [ropePair?_erase, ← children]
    cases origin.fragile with
    | true => exact congrArg Except.ok (Rope.erase_base _ _ _)
    | false =>
        cases ropePair? entries with
        | none => exact congrArg Except.ok (Rope.erase_base _ _ _)
        | some halves => exact Rope.erase_join _ _ _

end IncrementalParsing
