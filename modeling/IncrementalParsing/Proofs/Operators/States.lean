import IncrementalParsing.Proofs.Lalr.Making
import IncrementalParsing.Proofs.Operators.Normal

/-!
The automaton of a grammar of operators. An expression is due at the beginning and behind every operator; what
is still pending where it is due tells the states apart. There is one state where an expression is due, one
behind it, and one for operands.
-/

namespace IncrementalParsing.Operators

open Lalr

variable {operators : Operators} {grammar : Grammar}

/-! ### Kinds -/

theorem kind_index (index : operators.Index) : (operators.kind index).index = 3 + index := by
  have small := @length_lt operators
  have below := index.isLt
  exact KindId.index_ofIndex (by omega)

theorem kind_injective {left right : operators.Index} (same : operators.kind left = operators.kind right) :
    left = right := by
  have indices := congrArg KindId.index same
  rw [kind_index, kind_index] at indices
  exact Fin.ext (by omega)

theorem endOfInput_ne (index : operators.Index) : KindId.endOfInput ≠ operators.kind index := by
  intro same
  have indices := congrArg KindId.index same
  rw [kind_index] at indices
  change 0 = _ at indices
  omega

/-! ### Items -/

namespace Normal

variable (normal : operators.Normal grammar)

include normal

theorem size : grammar.productions.size = operators.list.length + 1 := by
  rw [← Array.length_toList, normal.productions]
  simp [Operators.productions]

theorem production_eq (index : operators.Index) :
    grammar.productions[(index : Nat)]? = some (operators.production index) := by
  rw [← Array.getElem?_toList, normal.productions]
  unfold Operators.productions
  rw [List.getElem?_append_left (by simp), List.getElem?_map, List.getElem?_eq_getElem (by simp)]
  simp

theorem operand_eq : grammar.productions[operators.list.length]? = some operandProduction := by
  rw [← Array.getElem?_toList, normal.productions]
  unfold Operators.productions
  rw [List.getElem?_append_right (by simp)]
  simp

theorem next_production (index : operators.Index) (dot : Nat) :
    (Rules.ofGrammar grammar).nextSymbol ⟨index, dot⟩ =
      ([.nonterminal Grammar.start, .terminal (operators.kind index), .nonterminal Grammar.start] :
        List Symbol)[dot]? :=
  Rules.nextSymbol_production grammar (normal.production_eq index) dot

theorem next_operand (dot : Nat) : (Rules.ofGrammar grammar).nextSymbol ⟨operators.list.length, dot⟩ =
    ([.terminal operandKind] : List Symbol)[dot]? :=
  Rules.nextSymbol_production grammar normal.operand_eq dot

theorem next_augmented (dot : Nat) : (Rules.ofGrammar grammar).nextSymbol ⟨operators.list.length + 1, dot⟩ =
    ([.nonterminal Grammar.start] : List Symbol)[dot]? := by
  rw [← normal.size]
  exact Rules.nextSymbol_augmented grammar dot

theorem mem_productionsOf {number : Nat} :
    number ∈ (Rules.ofGrammar grammar).productionsOf Grammar.start ↔ number ≤ operators.list.length := by
  have terminals := normal.terminals
  have kinds := normal.kinds
  have size := normal.size
  rw [Rules.mem_productionsOf]
  constructor
  · rintro ⟨_, production, found, _⟩
    have inside := (Array.getElem?_eq_some_iff.mp found).1
    omega
  · intro le
    refine ⟨?_, ?_⟩
    · unfold Grammar.nonterminalCount
      change 0 < _
      omega
    · rcases Nat.lt_or_eq_of_le le with less | rfl
      · exact ⟨_, normal.production_eq ⟨number, less⟩, rfl⟩
      · exact ⟨_, normal.operand_eq, rfl⟩

end Normal

/-! ### Places -/

/-- The item behind whose mark an expression is due: that of the start, or that of a pending operator. -/
def seed : Option operators.Index → Item
  | none => ⟨operators.list.length + 1, 0⟩
  | some index => ⟨index, 2⟩

variable (operators) in
inductive Place where
  | before (pending : Option operators.Index)
  | operand
  | after (pending : Option operators.Index)

namespace Place

def kernel : operators.Place → List Item
  | before pending => [seed pending]
  | operand => [⟨operators.list.length, 1⟩]
  | after pending =>
      orderItems ((seed pending).advance ::
        (List.finRange operators.list.length).map fun index : operators.Index => ⟨index, 1⟩)

inductive Step : operators.Place → Symbol → operators.Place → Prop
  | expression (pending : Option operators.Index) :
      Step (before pending) (.nonterminal Grammar.start) (after pending)
  | operand (pending : Option operators.Index) : Step (before pending) (.terminal operandKind) operand
  | operator (pending : Option operators.Index) (index : operators.Index) :
      Step (after pending) (.terminal (operators.kind index)) (before (some index))

variable (operators) in
def all : List operators.Place :=
  let pending : List (Option operators.Index) := none :: (List.finRange operators.list.length).map some
  operand :: (pending.map before ++ pending.map after)

theorem length_all : (all operators).length = 2 * operators.list.length + 3 := by
  simp [all]
  omega

theorem mem_all (place : operators.Place) : place ∈ all operators := by
  have listed : ∀ pending : Option operators.Index,
      pending ∈ none :: (List.finRange operators.list.length).map some := by
    intro pending
    cases pending with
    | none => exact List.mem_cons_self
    | some index => exact List.mem_cons_of_mem _ (List.mem_map.mpr ⟨index, List.mem_finRange index, rfl⟩)
  cases place with
  | operand => exact List.mem_cons_self
  | before pending =>
      exact List.mem_cons_of_mem _ (List.mem_append_left _ (List.mem_map.mpr ⟨pending, listed pending, rfl⟩))
  | after pending =>
      exact List.mem_cons_of_mem _ (List.mem_append_right _ (List.mem_map.mpr ⟨pending, listed pending, rfl⟩))

end Place

section Closures

variable (normal : operators.Normal grammar)

include normal

theorem Normal.next_seed (pending : Option operators.Index) :
    (Rules.ofGrammar grammar).nextSymbol (seed pending) = some (.nonterminal Grammar.start) := by
  cases pending with
  | none => exact normal.next_augmented 0
  | some index => exact normal.next_production index 2

theorem Normal.next_advance_seed (pending : Option operators.Index) :
    (Rules.ofGrammar grammar).nextSymbol (seed pending).advance = none := by
  cases pending with
  | none => exact normal.next_augmented 1
  | some index => exact normal.next_production index 3

/-- Where an expression is due, every production begins. -/
theorem Normal.mem_closure_before {pending : Option operators.Index} {item : Item} :
    item ∈ closure (.ofGrammar grammar) (Place.before pending).kernel ↔
      item = seed pending ∨ (∃ index : operators.Index, item = ⟨index, 0⟩) ∨ item = ⟨operators.list.length, 0⟩ := by
  rw [mem_closure (Rules.ofGrammar_consistent grammar)]
  have start : ∀ id, (Symbol.nonterminal Grammar.start) = .nonterminal id → id = Grammar.start := by
    intro id same
    cases same
    rfl
  have begins : ∀ number, number ≤ operators.list.length → Closed (Rules.ofGrammar grammar)
      (Place.before pending).kernel ⟨number, 0⟩ := fun number le =>
    .start (.kernel (List.mem_singleton_self _)) (normal.next_seed pending) (normal.mem_productionsOf.mpr le)
  constructor
  · intro closed
    induction closed with
    | kernel member => exact Or.inl (List.mem_singleton.mp member)
    | @start before id number _ next produced ih =>
        have expression : id = Grammar.start := by
          rcases ih with rfl | ⟨index, rfl⟩ | rfl
          · exact start id (Option.some.inj ((normal.next_seed pending).symm.trans next))
          · exact start id (Option.some.inj ((normal.next_production index 0).symm.trans next))
          · cases (normal.next_operand 0).symm.trans next
        rw [expression, normal.mem_productionsOf] at produced
        right
        rcases Nat.lt_or_eq_of_le produced with less | rfl
        · exact Or.inl ⟨⟨number, less⟩, rfl⟩
        · exact Or.inr rfl
  · rintro (rfl | ⟨index, rfl⟩ | rfl)
    · exact .kernel (List.mem_singleton_self _)
    · exact begins index (Nat.le_of_lt index.isLt)
    · exact begins _ (Nat.le_refl _)

omit normal in
theorem mem_closure_of_quiet {kernel : List Item}
    (quiet : ∀ item, item ∈ kernel → ∀ id, (Rules.ofGrammar grammar).nextSymbol item ≠ some (.nonterminal id))
    {item : Item} : item ∈ closure (.ofGrammar grammar) kernel ↔ item ∈ kernel := by
  rw [mem_closure (Rules.ofGrammar_consistent grammar)]
  constructor
  · intro closed
    induction closed with
    | kernel member => exact member
    | start _ next _ ih => exact absurd next (quiet _ ih _)
  · exact .kernel

theorem Normal.mem_closure_operand {item : Item} :
    item ∈ closure (.ofGrammar grammar) (Place.operand : operators.Place).kernel ↔
      item = ⟨operators.list.length, 1⟩ := by
  rw [mem_closure_of_quiet]
  · exact List.mem_singleton
  · intro other member id next
    rw [List.mem_singleton.mp member] at next
    cases (normal.next_operand 1).symm.trans next

omit normal in
theorem mem_kernel_after {pending : Option operators.Index} {item : Item} :
    item ∈ (Place.after pending).kernel ↔
      item = (seed pending).advance ∨ ∃ index : operators.Index, item = ⟨index, 1⟩ := by
  unfold Place.kernel
  rw [mem_orderItems, List.mem_cons, List.mem_map]
  simp only [List.mem_finRange, true_and, @eq_comm _ item]

theorem Normal.mem_closure_after {pending : Option operators.Index} {item : Item} :
    item ∈ closure (.ofGrammar grammar) (Place.after pending).kernel ↔
      item = (seed pending).advance ∨ ∃ index : operators.Index, item = ⟨index, 1⟩ := by
  rw [mem_closure_of_quiet]
  · exact mem_kernel_after
  · intro other member id next
    rcases mem_kernel_after.mp member with rfl | ⟨index, rfl⟩
    · cases (normal.next_advance_seed pending).symm.trans next
    · cases (normal.next_production index 1).symm.trans next

theorem Place.Step.exists_item {place next : operators.Place} {symbol : Symbol} (step : place.Step symbol next) :
    ∃ item, item ∈ closure (.ofGrammar grammar) place.kernel ∧
      (Rules.ofGrammar grammar).nextSymbol item = some symbol := by
  cases step with
  | expression pending => exact ⟨_, normal.mem_closure_before.mpr (Or.inl rfl), normal.next_seed pending⟩
  | operand pending =>
      exact ⟨_, normal.mem_closure_before.mpr (Or.inr (Or.inr rfl)), normal.next_operand 0⟩
  | operator pending index =>
      exact ⟨_, normal.mem_closure_after.mpr (Or.inr ⟨index, rfl⟩), normal.next_production index 1⟩

/-- Only what leads from place to place stands behind marks, and the items in front of it are known. -/
theorem Normal.step_of_next {place : operators.Place} {item : Item} {symbol : Symbol}
    (closed : item ∈ closure (.ofGrammar grammar) place.kernel)
    (next : (Rules.ofGrammar grammar).nextSymbol item = some symbol) :
    ∃ other, place.Step symbol other ∧ item.advance ∈ other.kernel := by
  cases place with
  | before pending =>
      rcases normal.mem_closure_before.mp closed with rfl | ⟨index, rfl⟩ | rfl
      · cases (normal.next_seed pending).symm.trans next
        exact ⟨_, .expression pending, mem_kernel_after.mpr (Or.inl rfl)⟩
      · cases (normal.next_production index 0).symm.trans next
        exact ⟨_, .expression pending, mem_kernel_after.mpr (Or.inr ⟨index, rfl⟩)⟩
      · cases (normal.next_operand 0).symm.trans next
        exact ⟨_, .operand pending, List.mem_singleton_self _⟩
  | operand =>
      rw [normal.mem_closure_operand.mp closed] at next
      cases (normal.next_operand 1).symm.trans next
  | after pending =>
      rcases normal.mem_closure_after.mp closed with rfl | ⟨index, rfl⟩
      · cases (normal.next_advance_seed pending).symm.trans next
      · cases (normal.next_production index 1).symm.trans next
        exact ⟨_, .operator pending index, List.mem_singleton_self _⟩

omit normal in
theorem Place.Step.unique {place first second : operators.Place} {symbol : Symbol} (one : place.Step symbol first)
    (two : place.Step symbol second) : first = second := by
  cases one with
  | expression pending =>
      cases two with
      | expression _ => rfl
  | operand pending =>
      cases two with
      | operand _ => rfl
  | operator pending index =>
      generalize same : Symbol.terminal (operators.kind index) = symbol at two
      cases two with
      | operator _ other =>
          cases kind_injective (Symbol.terminal.inj same)
          rfl

theorem Place.Step.exists_before {place next : operators.Place} {symbol : Symbol} (step : place.Step symbol next)
    {item : Item} (member : item ∈ next.kernel) :
    ∃ before, before ∈ closure (.ofGrammar grammar) place.kernel ∧
      (Rules.ofGrammar grammar).nextSymbol before = some symbol ∧ item = before.advance := by
  cases step with
  | expression pending =>
      rcases mem_kernel_after.mp member with rfl | ⟨index, rfl⟩
      · exact ⟨_, normal.mem_closure_before.mpr (Or.inl rfl), normal.next_seed pending, rfl⟩
      · exact ⟨⟨index, 0⟩, normal.mem_closure_before.mpr (Or.inr (Or.inl ⟨index, rfl⟩)),
          normal.next_production index 0, rfl⟩
  | operand pending =>
      rw [List.mem_singleton.mp member]
      exact ⟨_, normal.mem_closure_before.mpr (Or.inr (Or.inr rfl)), normal.next_operand 0, rfl⟩
  | operator pending index =>
      rw [List.mem_singleton.mp member]
      exact ⟨⟨index, 1⟩, normal.mem_closure_after.mpr (Or.inr ⟨index, rfl⟩), normal.next_production index 1, rfl⟩

omit normal in
theorem Place.kernel_increasing (place : operators.Place) : Increasing place.kernel := by
  cases place with
  | before pending => exact List.pairwise_singleton _ _
  | operand => exact List.pairwise_singleton _ _
  | after pending => exact orderItems_increasing _

theorem Normal.successor_place {place : operators.Place} {symbol : Symbol} {target : List Item}
    (among : (symbol, target) ∈ successors (.ofGrammar grammar) place.kernel) :
    ∃ next, place.Step symbol next ∧ target = next.kernel := by
  obtain ⟨item, closed, behind⟩ := successor_begun among
  obtain ⟨next, step, _⟩ := normal.step_of_next closed behind
  refine ⟨next, step, ?_⟩
  apply Increasing.ext (increasing_of_successor among) next.kernel_increasing
  intro other
  rw [mem_successor among]
  constructor
  · rintro ⟨before, inside, goes, rfl⟩
    obtain ⟨there, another, member⟩ := normal.step_of_next inside goes
    exact step.unique another ▸ member
  · exact step.exists_before normal

end Closures

/-! ### The automaton -/

section States

variable (normal : operators.Normal grammar)

include normal

theorem Normal.startKernel_eq : Automaton.startKernel (.ofGrammar grammar) =
    (Place.before (none : Option operators.Index)).kernel := by
  unfold Automaton.startKernel
  rw [Rules.augmented_ofGrammar, normal.size]
  rfl

theorem Normal.exists_automaton : ∃ automaton, Automaton.ofRules (.ofGrammar grammar) = .ok automaton ∧
    ∀ (state : Nat) (kernel : List Item), automaton.kernels[state]? = some kernel →
      ∃ place : operators.Place, kernel = place.kernel := by
  have few : ((Place.all operators).map Place.kernel).length ≤ Automaton.stateLimit := by
    rw [List.length_map, Place.length_all]
    exact operators.fit
  obtain ⟨automaton, made, drawn⟩ := @Automaton.exists_ofRules ((Place.all operators).map Place.kernel) few
    (.ofGrammar grammar)
    (by
      intro kernel member pair among
      obtain ⟨place, _, rfl⟩ := List.mem_map.mp member
      obtain ⟨next, _, same⟩ := normal.successor_place among
      exact List.mem_map.mpr ⟨next, next.mem_all, same.symm⟩)
    (List.mem_map.mpr ⟨_, Place.mem_all _, normal.startKernel_eq.symm⟩)
  refine ⟨automaton, made, fun state kernel found => ?_⟩
  obtain ⟨place, _, same⟩ := List.mem_map.mp
    (drawn.among kernel (Array.mem_toList_iff.mpr (Array.mem_of_getElem? found)))
  exact ⟨place, same.symm⟩

variable {automaton : Automaton} (explored : automaton.Explored (.ofGrammar grammar) automaton.kernels.size)

include explored

theorem Normal.exists_edge {state : Nat} {place next : operators.Place} {symbol : Symbol}
    (found : automaton.kernels[state]? = some place.kernel) (step : place.Step symbol next) :
    ∃ target, (symbol, target) ∈ automaton.edgesOf state ∧ automaton.kernels[target]? = some next.kernel := by
  obtain ⟨item, closed, behind⟩ := step.exists_item normal
  obtain ⟨target, lookup⟩ := explored.lookup_edge found closed behind
  have edge := mem_of_lookup lookup
  obtain ⟨kernel, at_, among⟩ := explored.edge_kernel found edge
  obtain ⟨other, another, rfl⟩ := normal.successor_place among
  cases step.unique another
  exact ⟨target, edge, at_⟩

theorem Normal.step_of_edge {state target : Nat} {place : operators.Place} {symbol : Symbol}
    (found : automaton.kernels[state]? = some place.kernel) (edge : (symbol, target) ∈ automaton.edgesOf state) :
    ∃ next, place.Step symbol next ∧ automaton.kernels[target]? = some next.kernel := by
  obtain ⟨kernel, at_, among⟩ := explored.edge_kernel found edge
  obtain ⟨next, step, rfl⟩ := normal.successor_place among
  exact ⟨next, step, at_⟩

omit explored in
theorem Normal.reducing_before {sets : Array TerminalSet} {state column : Nat} {pending : Option operators.Index}
    (found : automaton.kernels[state]? = some (Place.before pending).kernel) :
    (claimsAt grammar automaton sets state).reducing column = none := by
  cases claimed : (claimsAt grammar automaton sets state).reducing column with
  | none => rfl
  | some number =>
      obtain ⟨item, closed, ended, _⟩ := closed_of_reducing found claimed
      rcases normal.mem_closure_before.mp closed with rfl | ⟨index, rfl⟩ | rfl
      · cases (normal.next_seed pending).symm.trans ended
      · cases (normal.next_production index 0).symm.trans ended
      · cases (normal.next_operand 0).symm.trans ended

omit explored in
theorem Normal.claims_operand {sets : Array TerminalSet} {state : Nat}
    (found : automaton.kernels[state]? = some (Place.operand : operators.Place).kernel) (terminal : KindId) :
    (∀ number, (claimsAt grammar automaton sets state).reducing terminal.index = some number →
        number = operators.list.length) ∧
      (claimsAt grammar automaton sets state).shifting terminal.index = none := by
  constructor
  · intro number claimed
    obtain ⟨item, closed, _, same⟩ := closed_of_reducing found claimed
    rw [← same, normal.mem_closure_operand.mp closed]
  · have ranges : (claimsAt grammar automaton sets state).Ranges terminal.index fun _ => False := by
      apply claimsAt_ranges found
      intro item closed next
      rw [normal.mem_closure_operand.mp closed] at next
      cases (normal.next_operand 1).symm.trans next
    cases shifts : (claimsAt grammar automaton sets state).shifting terminal.index with
    | none => rfl
    | some range => exact (ranges range.1 range.2 shifts).1.elim

omit explored in
theorem Normal.shifting_after {sets : Array TerminalSet} {state : Nat} {pending : Option operators.Index}
    (found : automaton.kernels[state]? = some (Place.after pending).kernel) {terminal : KindId} {low high : Int}
    (shifts : (claimsAt grammar automaton sets state).shifting terminal.index = some (low, high)) :
    ∃ index : operators.Index, terminal = operators.kind index ∧ low = operators.level index ∧
      high = operators.level index := by
  have ranges : (claimsAt grammar automaton sets state).Ranges terminal.index fun precedence =>
      ∃ index : operators.Index, terminal = operators.kind index ∧ precedence = operators.level index := by
    apply claimsAt_ranges found
    intro item closed next
    rcases normal.mem_closure_after.mp closed with rfl | ⟨index, rfl⟩
    · cases (normal.next_advance_seed pending).symm.trans next
    · cases (normal.next_production index 1).symm.trans next
      refine ⟨index, rfl, ?_⟩
      unfold stepPrecedence
      rw [normal.production_eq]
      rfl
  obtain ⟨⟨index, kind, lowest⟩, other, otherKind, highest⟩ := ranges low high shifts
  cases kind_injective (kind.symm.trans otherKind)
  exact ⟨index, kind, lowest, highest⟩

omit explored in
theorem Normal.reducing_after {sets : Array TerminalSet} {state column : Nat} {pending : Option operators.Index}
    (found : automaton.kernels[state]? = some (Place.after pending).kernel) {number : Nat}
    (claimed : (claimsAt grammar automaton sets state).reducing column = some number) :
    number = (seed pending).production := by
  obtain ⟨item, closed, ended, same⟩ := closed_of_reducing found claimed
  rcases normal.mem_closure_after.mp closed with rfl | ⟨index, rfl⟩
  · exact same.symm
  · cases (normal.next_production index 1).symm.trans ended

omit normal explored in
theorem resolve_eq (pending index : operators.Index) :
    resolve (operators.production pending) (operators.level index) (operators.level index) =
      if operators.Closes pending index then .reduce else .shift := by
  unfold resolve production
  dsimp only
  rw [if_neg (by decide)]
  rcases Int.lt_trichotomy (operators.level index) (operators.level pending) with less | same | more
  · have closes : operators.Closes pending index := Or.inl less
    rw [if_neg (by omega), if_pos less, if_pos closes]
  · rw [if_neg (by omega), if_neg (by omega), if_pos ⟨same, same⟩]
    cases side : operators.side pending with
    | left =>
        have closes : operators.Closes pending index := Or.inr ⟨same.symm, side⟩
        rw [if_pos closes]
        rfl
    | right =>
        have opens : ¬ operators.Closes pending index := by
          rintro (less | ⟨_, left⟩)
          · omega
          · cases left.symm.trans side
        rw [if_neg opens]
        rfl
  · have opens : ¬ operators.Closes pending index := by
      rintro (less | ⟨equal, _⟩) <;> omega
    rw [if_pos more, if_neg opens]

omit explored in
theorem Normal.decided {sets : Array TerminalSet} {state : Nat} {place : operators.Place}
    (found : automaton.kernels[state]? = some place.kernel) :
    (claimsAt grammar automaton sets state).Decided grammar := by
  intro column inside number production low high claimed known competes
  have terminals := normal.terminals
  have small := @length_lt operators
  have index : (KindId.ofIndex column).index = column := KindId.index_ofIndex (by omega)
  cases place with
  | before pending => cases (normal.reducing_before found).symm.trans claimed
  | operand =>
      have alone := (@Normal.claims_operand _ _ normal _ sets _ found (.ofIndex column)).2
      rw [index] at alone
      cases alone.symm.trans competes
  | after pending =>
      cases normal.reducing_after found claimed
      rw [← index] at competes
      obtain ⟨next, _, rfl, rfl⟩ := normal.shifting_after found competes
      cases pending with
      | none =>
          have size := normal.size
          have bound := (Array.getElem?_eq_some_iff.mp known).1
          change operators.list.length + 1 < _ at bound
          omega
      | some last =>
          cases (normal.production_eq last).symm.trans known
          rw [resolve_eq]
          split <;> exact fun impossible => nomatch impossible

/-- Where an expression is due, operands are shifted and there is nothing else to do. -/
theorem Normal.row_before {sets : Array TerminalSet} {state : Nat} {pending : Option operators.Index}
    (found : automaton.kernels[state]? = some (Place.before pending).kernel) {row : SettledRow}
    (made : RowAt grammar automaton sets state row) :
    row.actions.map (fun action => decide (action = .error)) =
      Array.ofFn fun column : Fin grammar.terminalCount => decide (column.val ≠ operandKind.index) := by
  have width := (actionRow_sound made).1
  apply Array.ext_getElem?
  intro column
  rw [Array.getElem?_map, Array.getElem?_ofFn]
  rcases Nat.lt_or_ge column grammar.terminalCount with inside | outside
  · have cell := actionRow_shift made inside fun number claimed =>
      nomatch (normal.reducing_before found).symm.trans claimed
    rw [dif_pos inside, cell]
    obtain ⟨target, edge, _⟩ := normal.exists_edge explored found (.operand pending)
    by_cases operand : column = operandKind.index
    · subst operand
      obtain ⟨shifted, at_⟩ := shiftRow_complete inside edge
      rw [at_]
      simp
    · have filled := Array.getElem?_eq_getElem (shiftRow_sound.1.symm ▸ inside :
        column < (shiftRow grammar.terminalCount (automaton.edgesOf state)).size)
      rw [filled]
      rcases shiftRow_sound.2 _ _ filled with error | ⟨terminal, place, member, same, _⟩
      · rw [error]
        simpa using operand
      · obtain ⟨next, step, _⟩ := normal.step_of_edge explored found member
        cases step
        exact absurd same.symm operand
  · rw [dif_neg (Nat.not_lt_of_le outside), Array.getElem?_eq_none (by omega)]
    rfl

end States

theorem Normal.exists_compile (normal : operators.Normal grammar) :
    ∃ table, Lalr.compile grammar = .ok table ∧ table.conflicts = 0 := by
  obtain ⟨automaton, made, places⟩ := normal.exists_automaton
  have explored := Automaton.ofRules_explored made
  have first : automaton.kernels[0]? = some (Place.before (none : Option operators.Index)).kernel :=
    explored.first.trans (congrArg some normal.startKernel_eq)
  obtain ⟨whole, _, wholeAt⟩ := normal.exists_edge explored first (.expression none)
  obtain ⟨second, _, secondAt⟩ := normal.exists_edge explored wholeAt (.operator none ⟨0, length_pos⟩)
  have apart : 0 < second := by
    rcases Nat.eq_zero_or_pos second with rfl | positive
    · have same := Option.some.inj (first.symm.trans secondAt)
      cases congrArg Item.dot (List.cons.inj same).1
    · exact positive
  apply Lalr.exists_compile normal.numbered normal.productive made _ apart (Array.getElem?_eq_some_iff.mp secondAt).1
  · intro sets one other oneMade otherMade
    apply admitted_congr
    rw [normal.row_before explored first oneMade, normal.row_before explored secondAt otherMade]
  · intro sets state inside
    obtain ⟨place, same⟩ := places state _ (Array.getElem?_eq_getElem inside)
    exact normal.decided ((Array.getElem?_eq_getElem inside).trans (congrArg some same))

end IncrementalParsing.Operators
