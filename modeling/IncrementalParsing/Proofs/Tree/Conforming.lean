import IncrementalParsing.Lalr.Table
import IncrementalParsing.Proofs.Green.Elements
import IncrementalParsing.Proofs.Tree.Lossless

/-!
Trees that conform to a grammar. What is seen in a node comes from one production of its kind in which
the hidden nonterminals are expanded, again and again, by productions of theirs; error nodes and the
end of the input do not count. Every symbol of an expansion fills the field that it is labelled with, or
else the field of the symbol that it takes the place of.
-/

namespace IncrementalParsing

open Green

def Green.Labelled.inherit {α : Type} (field : Option FieldId) (labelled : Labelled α) : Labelled α :=
  ⟨labelled.field.or field, labelled.element⟩

/-- The kinds of a right-hand side with their labels. -/
def ProductionInfo.labelled (table : Table) (production : ProductionInfo) : List (Labelled KindId) :=
  List.zipWith Labelled.mk production.fields (production.symbols.map table.symbolKind)

/-- Expands the hidden nonterminals among some kinds until none is left. -/
inductive Table.Unfolds (table : Table) : List (Labelled KindId) → List (Labelled KindId) → Prop
  | nil : Unfolds table [] []
  | keep {first : Labelled KindId} {rest last : List (Labelled KindId)} :
      (table.isTerminal first.element = true ∨ table.isHidden first.element = false) →
      Unfolds table rest last → Unfolds table (first :: rest) (first :: last)
  | expand {first : Labelled KindId} {rest inner last : List (Labelled KindId)}
      {production : ProductionInfo} : table.isHidden first.element = true →
      production ∈ table.productions → production.lhs = first.element →
      Unfolds table ((production.labelled table).map (·.inherit first.field)) inner →
      Unfolds table rest last → Unfolds table (first :: rest) (inner ++ last)

/-- Whether an element counts for the production of the node around it. -/
def Placed.counts (placed : Placed) : Bool :=
  if placed.isToken then placed.kind != .endOfInput else placed.kind != .error

def Placed.symbols (placed : Placed) : List (Labelled KindId) :=
  (placed.children.filter (·.counts)).map (fun child => ⟨child.field, child.kind⟩)

/-- Trees in which every node that is no error node comes from a production of its kind. -/
def Tree.Conforms (table : Table) (tree : Tree) : Prop :=
  ∀ placed, tree.placedRoot.Below placed → placed.isToken = false → placed.kind ≠ .error →
    ∃ production, production ∈ table.productions ∧ production.lhs = placed.kind ∧
      table.Unfolds (production.labelled table) placed.symbols

namespace Green.Labelled

variable {α : Type}

@[simp] theorem element_inherit (field : Option FieldId) (labelled : Labelled α) :
    (labelled.inherit field).element = labelled.element := rfl

@[simp] theorem inherit_none (labelled : Labelled α) : labelled.inherit none = labelled := by
  simp [inherit]

theorem inherit_inherit (inner outer : Option FieldId) (labelled : Labelled α) :
    (labelled.inherit inner).inherit outer = labelled.inherit (inner.or outer) := by
  simp [inherit, Option.or_assoc]

end Green.Labelled

/-- Labels and kinds of equal number are told apart again. -/
theorem map_zipWith_labelled {α : Type} : ∀ (fields : List (Option FieldId)) (elements : List α),
    fields.length = elements.length →
    (List.zipWith Labelled.mk fields elements).map (·.element) = elements ∧
      (List.zipWith Labelled.mk fields elements).map (·.field) = fields
  | [], [], _ => ⟨rfl, rfl⟩
  | field :: fields, element :: elements, same => by
      obtain ⟨kinds, labels⟩ := map_zipWith_labelled fields elements (Nat.succ.inj same)
      rw [List.zipWith_cons_cons, List.map_cons, List.map_cons, kinds, labels]
      exact ⟨rfl, rfl⟩

namespace Table.Unfolds

variable {table : Table} {first last : List (Labelled KindId)}

theorem append {more moreLast : List (Labelled KindId)} (unfolds : table.Unfolds first last)
    (others : table.Unfolds more moreLast) : table.Unfolds (first ++ more) (last ++ moreLast) := by
  induction unfolds with
  | nil => exact others
  | keep seen _ ih => exact .keep seen ih
  | @expand _ _ inner last _ hidden known lhs unfolds _ _ ih =>
      rw [List.append_assoc]
      exact .expand hidden known lhs unfolds ih

theorem inherit (field : Option FieldId) (unfolds : table.Unfolds first last) :
    table.Unfolds (first.map (·.inherit field)) (last.map (·.inherit field)) := by
  induction unfolds with
  | nil => exact .nil
  | keep seen _ ih => exact .keep seen ih
  | @expand symbol _ inner last production hidden known lhs _ _ innerIh ih =>
      rw [List.map_append]
      refine .expand hidden known lhs ?_ ih
      change table.Unfolds ((production.labelled table).map (·.inherit (symbol.field.or field))) _
      rw [List.map_map] at innerIh
      simpa only [Function.comp_def, Labelled.inherit_inherit] using innerIh

theorem single (symbol : Labelled KindId) {production : ProductionInfo}
    (hidden : table.isHidden symbol.element = true) (known : production ∈ table.productions)
    (lhs : production.lhs = symbol.element) (unfolds : table.Unfolds (production.labelled table) last) :
    table.Unfolds [symbol] (last.map (·.inherit symbol.field)) := by
  have whole := Unfolds.expand hidden known lhs (unfolds.inherit symbol.field) .nil
  rwa [List.append_nil] at whole

end Table.Unfolds

/-! ### What is seen of an element -/

namespace Green

mutual

def Element.seen (field : Option FieldId) : Element → List (Labelled KindId)
  | .token leaf => if leaf.kind = .endOfInput then [] else [⟨field, leaf.kind⟩]
  | .node head children =>
      if head.info.ropeHeight = 0 then if head.kind = .error then [] else [⟨field, head.kind⟩]
      else seenOf field children

/-- The kinds that are seen of consecutive children and count; `field` is that of the rope around
them. -/
def seenOf (field : Option FieldId) : List Child → List (Labelled KindId)
  | [] => []
  | ⟨own, element⟩ :: rest => element.seen (own.or field) ++ seenOf field rest

end

@[simp] theorem seenOf_nil (field : Option FieldId) : seenOf field [] = [] := by rw [seenOf]

@[simp] theorem seenOf_cons (field : Option FieldId) (child : Child) (rest : List Child) :
    seenOf field (child :: rest) = child.element.seen (child.field.or field) ++ seenOf field rest := by
  rw [seenOf]

@[simp] theorem seenOf_append (field : Option FieldId) (left right : List Child) :
    seenOf field (left ++ right) = seenOf field left ++ seenOf field right := by
  induction left with
  | nil => simp
  | cons child rest ih => simp [ih]

mutual

theorem Element.seen_inherit (own field : Option FieldId) : ∀ element : Element,
    element.seen (own.or field) = (element.seen own).map (·.inherit field)
  | .token leaf => by
      unfold Element.seen
      split
      · rfl
      · rfl
  | .node head children => by
      unfold Element.seen
      split
      · split
        · rfl
        · rfl
      · exact seenOf_inherit own field children

theorem seenOf_inherit (own field : Option FieldId) : ∀ children : List Child,
    seenOf (own.or field) children = (seenOf own children).map (·.inherit field)
  | [] => by simp
  | ⟨inner, element⟩ :: rest => by
      rw [seenOf_cons, seenOf_cons, List.map_append, ← seenOf_inherit own field rest,
        ← Element.seen_inherit (inner.or own) field element, Option.or_assoc]

end

theorem seenOf_map_inherit (field : Option FieldId) (children : List Child) :
    seenOf none (children.map (·.inherit field)) = (seenOf none children).map (·.inherit field) := by
  induction children with
  | nil => rfl
  | cons child rest ih =>
      rw [List.map_cons, seenOf_cons, seenOf_cons, List.map_append, ih, Option.or_none, Option.or_none,
        ← Element.seen_inherit]
      rfl

mutual

theorem seen_flatten (offset : Nat) (field : Option FieldId) : ∀ element : Element,
    ((flatten offset field element).filter (·.counts)).map (fun child => ⟨child.field, child.kind⟩) =
      element.seen field
  | .token leaf => by
      unfold flatten Element.seen
      by_cases ended : leaf.kind = .endOfInput
      · simp [Placed.counts, Placed.isToken, Element.isToken, Placed.kind, Element.kind, ended]
      · simp [Placed.counts, Placed.isToken, Element.isToken, Placed.kind, Element.kind, ended]
  | .node head children => by
      unfold flatten Element.seen
      by_cases plain : head.info.ropeHeight = 0
      · rw [if_pos plain, if_pos plain]
        by_cases error : head.kind = .error
        · simp [Placed.counts, Placed.isToken, Element.isToken, Placed.kind, Element.kind, error]
        · simp [Placed.counts, Placed.isToken, Element.isToken, Placed.kind, Element.kind, error]
      · rw [if_neg plain, if_neg plain]
        exact seen_flattenAll offset field children

theorem seen_flattenAll (offset : Nat) (field : Option FieldId) : ∀ children : List Child,
    ((flattenAll offset field children).filter (·.counts)).map
      (fun child => (⟨child.field, child.kind⟩ : Labelled KindId)) = seenOf field children
  | [] => by rw [flattenAll, seenOf_nil]; rfl
  | ⟨own, element⟩ :: rest => by
      rw [flattenAll, seenOf_cons, List.filter_append, List.map_append,
        seen_flatten offset (own.or field) element, seen_flattenAll (offset + element.textLength) field rest]

end

theorem symbols_eq (placed : Placed) : placed.symbols = seenOf none placed.element.children :=
  seen_flattenAll placed.offset none placed.element.children

/-! ### Conforming elements -/

def Element.IsErrorNode : Element → Prop
  | .token _ => False
  | .node head _ => head.kind = .error ∧ head.info.ropeHeight = 0

/-- A node whose children come from a production of its kind. The kinds of ropes are hidden, and a
higher rope holds ropes of its own kind. -/
structure Node.Derived (table : Table) (node : Node) : Prop where
  produced : ∃ production, production ∈ table.productions ∧ production.lhs = node.kind ∧
    table.Unfolds (production.labelled table) (seenOf none node.children)
  hidden : 0 < node.height → table.isHidden node.kind = true
  uniform : 1 < node.height → ∀ child, child ∈ node.children → child.element.kind = node.kind

def Element.Conforms (table : Table) : Element → Prop
  | .token _ => True
  | .node head children =>
      (Element.node head children).IsErrorNode ∨ Node.Derived table ⟨head, children⟩

end Green

theorem Tree.conforms_of_everywhere {table : Table} {tree : Tree}
    (everywhere : tree.root.element.Everywhere (Element.Conforms table)) : tree.Conforms table := by
  intro placed below node known
  have conforms := (below.everywhere everywhere).here
  rw [symbols_eq]
  cases shape : placed.element with
  | token leaf => simp [Placed.isToken, shape, Element.isToken] at node
  | node head children =>
      unfold Placed.kind at known ⊢
      rw [shape] at conforms known ⊢
      rcases conforms with error | derived
      · exact absurd error.1 known
      · exact derived.produced

end IncrementalParsing
