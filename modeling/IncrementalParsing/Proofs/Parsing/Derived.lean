import IncrementalParsing.Proofs.Lalr.Declared
import IncrementalParsing.Proofs.Parsing.Reduction
import IncrementalParsing.Proofs.Tree.Conforming

/-!
The nodes of productions. The entries of a right-hand side contribute what the symbols of the production
expand to, error nodes between them contribute nothing, and joining two ropes expands the helper of the
repetition once more. So the node of a production conforms to the grammar when the entries do.
-/

namespace IncrementalParsing

open Green

/-! ### What entries contribute -/

/-- The elements on a stack conform to the grammar, and its extras are error nodes. -/
structure ParseStack.Conforms (table : Table) (stack : ParseStack) : Prop where
  elements : ∀ entry, entry ∈ stack → entry.element.Everywhere (Element.Conforms table)
  extras : ∀ entry, entry ∈ stack → entry.extra = true → entry.element.IsErrorNode

namespace ParseStack.Conforms

variable {table : Table} {stack : ParseStack}

theorem empty : Conforms table [] :=
  ⟨fun _ none => absurd none List.not_mem_nil, fun _ none => absurd none List.not_mem_nil⟩

theorem subset {entries : List StackEntry} (conforms : Conforms table stack)
    (among : ∀ entry, entry ∈ entries → entry ∈ stack) : Conforms table entries :=
  ⟨fun entry member => conforms.elements entry (among entry member),
    fun entry member => conforms.extras entry (among entry member)⟩

theorem tail {entry : StackEntry} {below : ParseStack} (conforms : Conforms table (entry :: below)) :
    Conforms table below :=
  conforms.subset (fun _ member => List.mem_cons_of_mem _ member)

theorem cons {entry : StackEntry} (conforms : Conforms table stack)
    (here : entry.element.Everywhere (Element.Conforms table))
    (extra : entry.extra = true → entry.element.IsErrorNode) : Conforms table (entry :: stack) := by
  constructor
  · intro other member
    rcases List.mem_cons.mp member with first | rest
    · exact first ▸ here
    · exact conforms.elements other rest
  · intro other member
    rcases List.mem_cons.mp member with first | rest
    · exact first ▸ extra
    · exact conforms.extras other rest

theorem push {element : Element} (conforms : Conforms table stack) (state : StateId)
    (here : element.Everywhere (Element.Conforms table)) : Conforms table (stack.push state element) :=
  conforms.cons here (fun impossible => by cases impossible)

end ParseStack.Conforms

section Contributions

variable {table : Table}

theorem Green.Node.Derived.unfolds_seen {node : Node} (derived : node.Derived table)
    (rope : 0 < node.height) (field : Option FieldId) :
    table.Unfolds [⟨field, node.kind⟩] (node.element.seen field) := by
  obtain ⟨production, known, lhs, unfolds⟩ := derived.produced
  have whole := Table.Unfolds.single ⟨field, node.kind⟩ (derived.hidden rope) known lhs unfolds
  rw [← seenOf_inherit, Option.none_or] at whole
  have seen : node.element.seen field = seenOf field node.children := by
    change Element.seen field (.node node.head node.children) = _
    rw [Element.seen, if_neg (show node.head.info.ropeHeight ≠ 0 from Nat.ne_of_gt rope)]
  rw [seen]
  exact whole

theorem unfolds_spliced {element : Element} (conforms : element.Conforms table)
    (proper : 2 ≤ element.kind.index)
    (terminal : element.isToken = true → table.isTerminal element.kind = true)
    (field : Option FieldId) :
    table.Unfolds [⟨field, element.kind⟩] (seenOf none (spliced table field element)) := by
  cases element with
  | token leaf =>
      have notEnd : leaf.kind ≠ .endOfInput := by
        intro ended
        change 2 ≤ leaf.kind.index at proper
        rw [ended] at proper
        exact absurd proper (by decide)
      unfold spliced
      rw [seenOf_cons, seenOf_nil, List.append_nil, Option.or_none, Element.seen, if_neg notEnd]
      exact .keep (Or.inl (terminal rfl)) .nil
  | node head children =>
      have notError : head.kind ≠ .error := by
        intro error
        change 2 ≤ head.kind.index at proper
        rw [error] at proper
        exact absurd proper (by decide)
      have derived : Node.Derived table ⟨head, children⟩ := by
        rcases conforms with error | derived
        · exact absurd error.1 notError
        · exact derived
      unfold spliced
      dsimp only
      split
      · rename_i hides
        rw [Bool.and_eq_true, decide_eq_true_iff] at hides
        obtain ⟨production, known, lhs, unfolds⟩ := derived.produced
        have contributed := seenOf_map_inherit field children
        unfold Labelled.inherit at contributed
        rw [contributed]
        exact Table.Unfolds.single ⟨field, head.kind⟩ hides.2 known lhs unfolds
      · rename_i stays
        rw [seenOf_cons, seenOf_nil, List.append_nil, Option.or_none]
        by_cases plain : head.info.ropeHeight = 0
        · have visible : table.isHidden head.kind = false := by
            simpa [plain] using stays
          rw [Element.seen, if_pos plain, if_neg notError]
          exact .keep (Or.inr visible) .nil
        · exact derived.unfolds_seen (Nat.pos_of_ne_zero plain) field

theorem seen_errorNode {element : Element} (error : element.IsErrorNode) (field : Option FieldId) :
    element.seen field = [] := by
  cases element with
  | token leaf => exact absurd error id
  | node head children => rw [Element.seen, if_pos error.2, if_pos error.1]

theorem seenOf_spliced_errorNode (declared : table.Declared) {element : Element}
    (error : element.IsErrorNode) (field : Option FieldId) :
    seenOf none (spliced table field element) = [] := by
  cases element with
  | token leaf => exact absurd error id
  | node head children =>
      unfold spliced
      dsimp only
      rw [error.1, declared.error_visible, Bool.and_false, if_neg Bool.false_ne_true, seenOf_cons,
        seen_errorNode error]
      rfl

/-- The entries of a right-hand side contribute what it expands to. -/
theorem unfolds_productionChildren (declared : table.Declared) : ∀ (entries : List StackEntry)
    (fields : List (Option FieldId)), ParseStack.Sound table entries →
    ParseStack.Conforms table entries → fields.length = (ParseStack.plain entries).length →
    (∀ entry, entry ∈ ParseStack.plain entries → 2 ≤ entry.element.kind.index) →
    table.Unfolds (List.zipWith Labelled.mk fields ((ParseStack.plain entries).map (·.element.kind)))
      (seenOf none (productionChildren table fields entries))
  | [], fields, _, _, _, _ => by
      unfold productionChildren
      rw [ParseStack.plain, List.filter_nil, List.map_nil, List.zipWith_nil_right, seenOf_nil]
      exact .nil
  | entry :: rest, fields, sound, conforms, count, proper => by
      unfold productionChildren
      cases extra : entry.extra with
      | true =>
          have rest_eq : ParseStack.plain (entry :: rest) = ParseStack.plain rest := by
            simp [ParseStack.plain, extra]
          rw [rest_eq] at count proper ⊢
          rw [if_pos rfl, seenOf_append,
            seenOf_spliced_errorNode declared (conforms.extras entry List.mem_cons_self extra),
            List.nil_append]
          exact unfolds_productionChildren declared rest fields sound.tail conforms.tail count proper
      | false =>
          have rest_eq : ParseStack.plain (entry :: rest) = entry :: ParseStack.plain rest := by
            simp [ParseStack.plain, extra]
          rw [rest_eq] at count proper ⊢
          cases fields with
          | nil => simp at count
          | cons field fields =>
              rw [if_neg Bool.false_ne_true, seenOf_append, List.map_cons, List.zipWith_cons_cons]
              have first := unfolds_spliced (conforms.elements entry List.mem_cons_self).here
                (proper entry List.mem_cons_self) (fun token => by
                  have here := (sound entry List.mem_cons_self).here
                  cases shape : entry.element with
                  | token leaf => exact (shape ▸ here).2.1
                  | node head children => rw [shape] at token; cases token) field
              have others := unfolds_productionChildren declared rest fields sound.tail conforms.tail
                (Nat.succ.inj count) (fun other member => proper other (List.mem_cons_of_mem _ member))
              exact first.append others

/-! ### The node of a production -/

structure Green.Node.ConformingRope (table : Table) (kind : KindId) (node : Node) : Prop where
  kind_eq : node.kind = kind
  height_pos : 0 < node.height
  everywhere : node.element.Everywhere (Element.Conforms table)

variable (numbered : table.Numbered) (declared : table.Declared) {production : ProductionInfo}
  (known : production ∈ table.productions)

include numbered known

theorem lhs_ne_error : production.lhs ≠ .error := by
  intro error
  have nonterminal := of_decide_eq_false (numbered.lhs production known).1
  have reserved := numbered.reserved
  rw [error] at nonterminal
  exact absurd (Nat.lt_of_lt_of_le (by decide : KindId.error.index < 2) reserved) nonterminal

theorem Green.Node.ConformingRope.derived {node : Node}
    (rope : node.ConformingRope table production.lhs) : node.Derived table := by
  rcases rope.everywhere.here with error | derived
  · exact absurd (rope.kind_eq.symm.trans error.1) (lhs_ne_error numbered known)
  · exact derived

include declared

theorem hidden_of_repeat (repeats : table.isRepeat production.lhs = true) :
    table.isHidden production.lhs = true := by
  obtain ⟨nonterminal, has⟩ := numbered.lhs production known
  exact (declared.hidden_iff _ nonterminal has).mpr (Or.inr repeats)

theorem inherited_conformingRope (joins : production.kind = .repeatJoin) :
    Rope.Inherited production.lhs (Node.ConformingRope table production.lhs) := by
  obtain ⟨repeats, fields, symbols⟩ := numbered.join production known joins
  have hidden := hidden_of_repeat numbered declared known repeats
  constructor
  · intro first second firstRope secondRope
    refine ⟨rfl, Nat.succ_pos _, .node (Or.inr ⟨⟨production, known, rfl, ?_⟩, fun _ => hidden, ?_⟩) ?_⟩
    · have left := (firstRope.derived numbered known).unfolds_seen firstRope.height_pos none
      have right := (secondRope.derived numbered known).unfolds_seen secondRope.height_pos none
      rw [firstRope.kind_eq] at left
      rw [secondRope.kind_eq] at right
      unfold ProductionInfo.labelled
      rw [fields, symbols]
      change table.Unfolds ([⟨none, production.lhs⟩] ++ [⟨none, production.lhs⟩])
        (seenOf none [⟨none, first.element⟩, ⟨none, second.element⟩])
      rw [seenOf_cons, seenOf_cons, seenOf_nil, List.append_nil]
      exact left.append right
    · intro _ child member
      rcases List.mem_cons.mp member with one | other
      · exact one ▸ firstRope.kind_eq
      · exact List.mem_singleton.mp other ▸ secondRope.kind_eq
    · intro child member
      rcases List.mem_cons.mp member with one | other
      · exact one ▸ firstRope.everywhere
      · exact List.mem_singleton.mp other ▸ secondRope.everywhere
  · intro whole first second halved rope
    have children : whole.children = [⟨none, first.element⟩, ⟨none, second.element⟩] := by
      rw [halved.pair]
      rfl
    have firstAmong : (⟨none, first.element⟩ : Child) ∈ whole.children := by
      rw [children]
      exact List.mem_cons_self
    have secondAmong : (⟨none, second.element⟩ : Child) ∈ whole.children := by
      rw [children]
      exact List.mem_cons_of_mem _ List.mem_cons_self
    have high : 1 < whole.height := by
      have positive := halved.left_pos
      rw [halved.height_eq]
      omega
    have uniform := (rope.derived numbered known).uniform high
    constructor
    · exact ⟨(uniform _ firstAmong).trans rope.kind_eq, halved.left_pos,
        rope.everywhere.inside _ firstAmong⟩
    · exact ⟨(uniform _ secondAmong).trans rope.kind_eq, halved.right_pos,
        rope.everywhere.inside _ secondAmong⟩

/-- The node of a production conforms to the grammar when the entries of its right-hand side do. -/
theorem buildNode_conforms {entries : List StackEntry} {serial : Nat} {origin : Origin} {node : Node}
    (ordinary : origin.ropeHeight = 0) (sound : ParseStack.Sound table entries)
    (conforms : ParseStack.Conforms table entries)
    (kinds : (ParseStack.plain entries).map (·.element.kind) = production.symbols.map table.symbolKind)
    (built : buildNode table serial production entries origin = .ok node) :
    node.element.Everywhere (Element.Conforms table) := by
  have counted : production.fields.length = (ParseStack.plain entries).length := by
    rw [declared.labels production known, ← List.length_map (f := table.symbolKind), ← kinds,
      List.length_map]
  have proper : ∀ entry, entry ∈ ParseStack.plain entries → 2 ≤ entry.element.kind.index := by
    intro entry member
    refine (numbered.rhs production known entry.element.kind ?_).1
    rw [← kinds]
    exact List.mem_map_of_mem member
  have unfolds := unfolds_productionChildren declared entries production.fields sound conforms counted proper
  rw [kinds] at unfolds
  have below : ∀ child, child ∈ productionChildren table production.fields entries →
      child.element.Everywhere (Element.Conforms table) :=
    everywhere_productionChildren production.fields entries conforms.elements
  have base : production.kind ≠ .plain → (Rope.base production.lhs
      (productionChildren table production.fields entries) origin).element.Everywhere
        (Element.Conforms table) := by
    intro rope
    have repeats : table.isRepeat production.lhs = true := by
      cases shape : production.kind with
      | plain => exact absurd shape rope
      | repeatBase => exact (numbered.base production known shape).1
      | repeatJoin => exact (numbered.join production known shape).1
    exact .node (Or.inr ⟨⟨production, known, rfl, unfolds⟩,
      fun _ => hidden_of_repeat numbered declared known repeats, fun high => absurd high (Nat.lt_irrefl 1)⟩)
      below
  cases buildNode_builtBy (numbered.lhs production known).2 sound built with
  | plain =>
      refine .node (Or.inr ⟨⟨production, known, rfl, unfolds⟩, ?_, ?_⟩) below
      · intro rope
        exact absurd ordinary (Nat.ne_of_gt rope)
      · intro high
        exact absurd ordinary (Nat.ne_of_gt (Nat.lt_trans Nat.one_pos high))
  | base rope => exact base rope
  | @join first second left right _ isJoin shape firstIs secondIs leftRope rightRope joined =>
      subst shape
      have firstHere := conforms.elements first List.mem_cons_self
      have secondHere := conforms.elements second (List.mem_cons_of_mem _ List.mem_cons_self)
      have noExtra : ∀ entry node, entry ∈ [first, second] → entry.element = Node.element node →
          0 < node.height → entry.extra = false := by
        intro entry node member same rope
        cases extra : entry.extra with
        | false => rfl
        | true =>
            have error := conforms.extras entry member extra
            rw [same] at error
            exact absurd error.2 (Nat.ne_of_gt rope)
      have firstPlain := noExtra first left List.mem_cons_self firstIs leftRope.height_pos
      have secondPlain := noExtra second right (List.mem_cons_of_mem _ List.mem_cons_self) secondIs
        rightRope.height_pos
      have two : ParseStack.plain [first, second] = [first, second] := by
        simp [ParseStack.plain, firstPlain, secondPlain]
      rw [two, (numbered.join production known isJoin).2.2, List.map_cons, List.map_cons, List.map_nil]
        at kinds
      obtain ⟨firstKind, rest⟩ := List.cons.inj kinds
      have secondKind := (List.cons.inj rest).1
      refine (joined.inherits _ (inherited_conformingRope numbered declared known isJoin) ?_ ?_).everywhere
      · exact ⟨by rw [← firstKind, firstIs]; rfl, leftRope.height_pos, firstIs ▸ firstHere⟩
      · exact ⟨by rw [← secondKind, secondIs]; rfl, rightRope.height_pos, secondIs ▸ secondHere⟩

end Contributions

end IncrementalParsing
