import IncrementalParsing.Proofs.Lalr.Lookahead
import IncrementalParsing.Proofs.Lalr.TerminalSets

/-!
The chart of a table. A table says what to do, a chart says why: it gives every state its items, and
every shift, goto, reduction and acceptance of the table agrees with them. Everything that is known
about a compiled table by those who run it is said here in terms of the table alone; the chart is read
off the automaton that the table was made from.
-/

namespace IncrementalParsing

namespace Table

def startKind (table : Table) : KindId := .ofIndex table.terminalCount

/-- A right-hand side in kinds. The augmented one comes after those of the productions. -/
def rhs (table : Table) (number : Nat) : List KindId :=
  match table.productions[number]? with
  | some production => production.symbols.map table.symbolKind
  | none => [table.startKind]

def nextKind (table : Table) (item : Lalr.Item) : Option KindId :=
  (table.rhs item.production)[item.dot]?

/-- Kinds that a table knows. -/
def HasKind (table : Table) (kind : KindId) : Prop := kind.index < table.kinds.size

structure Numbered (table : Table) : Prop where
  reserved : 2 ≤ table.terminalCount
  rules_pos : 0 < table.ruleCount
  rules_le : table.terminalCount + table.ruleCount ≤ table.kinds.size
  kinds_le : table.kinds.size ≤ Declaration.symbolLimit
  lhs : ∀ production, production ∈ table.productions →
    table.isTerminal production.lhs = false ∧ table.HasKind production.lhs
  rhs : ∀ production, production ∈ table.productions →
    ∀ kind, kind ∈ production.symbols.map table.symbolKind → 2 ≤ kind.index ∧ table.HasKind kind
  plain : ∀ production, production ∈ table.productions → production.kind = .plain →
    table.isRepeat production.lhs = false
  base : ∀ production, production ∈ table.productions → production.kind = .repeatBase →
    table.isRepeat production.lhs = true ∧ production.symbols ≠ []
  join : ∀ production, production ∈ table.productions → production.kind = .repeatJoin →
    table.isRepeat production.lhs = true ∧ production.fields = [none, none] ∧
      production.symbols.map table.symbolKind = [production.lhs, production.lhs]

theorem Numbered.ne_error {table : Table} (numbered : table.Numbered) {kind : KindId}
    (nonterminal : table.isTerminal kind = false) : kind ≠ .error := by
  intro error
  have above := of_decide_eq_false nonterminal
  rw [error] at above
  exact above (Nat.lt_of_lt_of_le (by decide) numbered.reserved)

structure Chart (table : Table) (items : StateId → Lalr.Item → Prop) : Prop where
  start_dot : ∀ item, items .start item → item.dot = 0
  start_item : items .start ⟨table.productions.size, 0⟩
  before : ∀ state kind next item, table.HasKind kind → table.successor state kind = some next →
    items next item → 0 < item.dot →
    items state ⟨item.production, item.dot - 1⟩ ∧
      table.nextKind ⟨item.production, item.dot - 1⟩ = some kind
  led : ∀ state kind next, table.HasKind kind → table.successor state kind = some next →
    ∃ item, items state item ∧ table.nextKind item = some kind
  after : ∀ state kind next item, table.HasKind kind → table.successor state kind = some next →
    items state item → table.nextKind item = some kind → items next item.advance
  begun : ∀ state number production, table.productions[number]? = some production →
    items state ⟨number, 0⟩ →
    ∃ item, items state item ∧ table.nextKind item = some production.lhs
  begins : ∀ state item number production, table.productions[number]? = some production →
    items state item → table.nextKind item = some production.lhs → items state ⟨number, 0⟩
  goes : ∀ state item kind, items state item → table.nextKind item = some kind →
    table.isTerminal kind = false → ∃ next, table.goto state kind = some next
  reduces : ∀ state terminal id, table.isTerminal terminal = true →
    table.action state terminal = .reduce id →
    ∃ item production, items state item ∧ item.production = id.index ∧
      table.nextKind item = none ∧ table.productions[id.index]? = some production
  accepts : ∀ state terminal, table.isTerminal terminal = true →
    table.action state terminal = .accept →
    terminal = .endOfInput ∧ items state ⟨table.productions.size, 1⟩
  dot_le : ∀ state item, items state item → item.production ≤ table.productions.size ∧
    item.dot ≤ (table.rhs item.production).length

/-- The end of the input is never shifted, and nothing else is accepted. -/
structure EndsOnce (table : Table) : Prop where
  shifts : ∀ state terminal target, table.isTerminal terminal = true →
    table.action state terminal = .shift target → 2 ≤ terminal.index
  accepts : ∀ state terminal, table.isTerminal terminal = true →
    table.action state terminal = .accept → terminal = .endOfInput

namespace EndsOnce

variable {table : Table} (ends : table.EndsOnce) {state target : StateId} {terminal : KindId}
  (isTerminal : table.isTerminal terminal = true) (shifts : table.action state terminal = .shift target)

include ends isTerminal shifts

theorem ne_endOfInput : terminal ≠ .endOfInput := by
  rintro rfl
  exact absurd (ends.shifts _ _ _ isTerminal shifts) (by decide)

theorem ne_error : terminal ≠ .error := by
  rintro rfl
  exact absurd (ends.shifts _ _ _ isTerminal shifts) (by decide)

end EndsOnce

end Table

namespace Lalr

/-- What a table was compiled from. -/
structure Compiled (grammar : Grammar) (table : Table) where
  automaton : Automaton
  sets : Array TerminalSet
  rows : Array SettledRow
  modes : Modes
  explored : automaton.Explored (.ofGrammar grammar) automaton.kernels.size
  lookaheads : Lalr.lookaheads (.ofGrammar grammar) (.ofConstruction (.ofGrammar grammar))
    (.ofAutomaton automaton) automaton = .ok sets
  settled : actionRows grammar (.ofGrammar grammar) (.ofConstruction (.ofGrammar grammar))
    (.ofAutomaton automaton) sets automaton = .ok rows
  assigned : rows.foldlM
    (fun modes row => (modes.assign row.actions : Except (Failure ConfigurationError) Modes))
    ⟨#[Modes.recovery grammar], #[]⟩ = .ok modes
  table_eq : table = {
    name := grammar.name
    version := grammar.version
    kinds := grammar.kinds
    terminalCount := grammar.terminalCount
    ruleCount := grammar.ruleCount
    productions := grammar.productions.map (productionInfo grammar)
    actions := rows.foldl (fun actions row => actions ++ row.actions) #[]
    gotos := (Array.range automaton.kernels.size).foldl
      (fun gotos state =>
        gotos ++ gotoRow grammar.nonterminalCount (automaton.edgesOf state)) #[]
    stateModes := modes.ofStates
    lexModes := modes.sets
    lexical := grammar.lexical
    conflicts := sumOf (rows.toList.map (·.conflicts)) }

theorem compile_made {grammar : Grammar} {table : Table} (compiled : compile grammar = .ok table) :
    ∃ compiled : Compiled grammar table, Automaton.ofRules (.ofGrammar grammar) = .ok compiled.automaton := by
  unfold compile at compiled
  dsimp only at compiled
  split at compiled
  · rename_i automaton made
    rw [bind_ok] at compiled
    obtain ⟨found, same, compiled⟩ := compiled
    cases pure_ok.mp same
    rw [bind_ok] at compiled
    obtain ⟨sets, computed, compiled⟩ := compiled
    rw [bind_ok] at compiled
    obtain ⟨rows, settled, compiled⟩ := compiled
    rw [bind_ok] at compiled
    obtain ⟨modes, assigned, compiled⟩ := compiled
    rw [lift_ok] at computed
    exact ⟨⟨automaton, sets, rows, modes, Automaton.ofRules_explored made, computed, settled, assigned,
      (pure_ok.mp compiled).symm⟩, made⟩
  · cases compiled

theorem compile_ok {grammar : Grammar} {table : Table} (compiled : compile grammar = .ok table) :
    Nonempty (Compiled grammar table) := by
  obtain ⟨made, _⟩ := compile_made compiled
  exact ⟨made⟩

namespace Compiled

variable {grammar : Grammar} {table : Table} (compiled : Compiled grammar table)

include compiled

theorem terminalCount_eq : table.terminalCount = grammar.terminalCount := by rw [compiled.table_eq]

theorem ruleCount_eq : table.ruleCount = grammar.ruleCount := by rw [compiled.table_eq]

theorem kinds_eq : table.kinds = grammar.kinds := by rw [compiled.table_eq]

theorem nonterminalCount_eq : table.nonterminalCount = grammar.nonterminalCount := by
  rw [compiled.table_eq]
  rfl

theorem productions_eq : table.productions = grammar.productions.map (productionInfo grammar) := by
  rw [compiled.table_eq]

theorem stateModes_eq : table.stateModes = compiled.modes.ofStates :=
  congrArg Table.stateModes compiled.table_eq

theorem lexModes_eq : table.lexModes = compiled.modes.sets :=
  congrArg Table.lexModes compiled.table_eq

theorem lexical_eq : table.lexical = grammar.lexical :=
  congrArg Table.lexical compiled.table_eq

theorem symbolKind_eq (symbol : Symbol) : table.symbolKind symbol = grammar.symbolKind symbol := by
  cases symbol with
  | terminal kind => rfl
  | nonterminal id =>
      change KindId.ofIndex (table.terminalCount + id.index) = _
      rw [compiled.terminalCount_eq]
      rfl

theorem productions_getElem? (number : Nat) :
    table.productions[number]? = grammar.productions[number]?.map (productionInfo grammar) := by
  rw [compiled.productions_eq, Array.getElem?_map]

theorem productions_size : table.productions.size = grammar.productions.size := by
  rw [compiled.productions_eq, Array.size_map]

theorem rhs_production {number : Nat} {production : Production}
    (found : grammar.productions[number]? = some production) :
    table.rhs number = production.symbols.map grammar.symbolKind := by
  unfold Table.rhs
  rw [compiled.productions_getElem?, found]
  exact List.map_congr_left (fun symbol _ => compiled.symbolKind_eq symbol)

theorem rhs_augmented :
    table.rhs grammar.productions.size = [grammar.symbolKind (.nonterminal Grammar.start)] := by
  unfold Table.rhs
  rw [compiled.productions_getElem?, Array.getElem?_eq_none (Nat.le_refl _)]
  change [KindId.ofIndex table.terminalCount] = _
  rw [compiled.terminalCount_eq]
  rfl

theorem nextKind_eq {item : Item} (known : item.production ≤ grammar.productions.size) :
    table.nextKind item =
      ((Rules.ofGrammar grammar).nextSymbol item).map grammar.symbolKind := by
  unfold Table.nextKind
  rcases Nat.lt_or_ge item.production grammar.productions.size with inside | outside
  · have found := Array.getElem?_eq_getElem inside
    rw [compiled.rhs_production found]
    change _ = ((Rules.ofGrammar grammar).nextSymbol ⟨item.production, item.dot⟩).map _
    rw [Rules.nextSymbol_production grammar found, List.getElem?_map]
  · have last : item.production = grammar.productions.size := Nat.le_antisymm known outside
    change _ = ((Rules.ofGrammar grammar).nextSymbol ⟨item.production, item.dot⟩).map _
    rw [last, compiled.rhs_augmented, Rules.nextSymbol_augmented, ← List.getElem?_map]
    rfl

/-! ### Actions and gotos -/

def claims (state : Nat) : Claims :=
  claimsOf grammar (.ofGrammar grammar) (.ofConstruction (.ofGrammar grammar))
    (kernelWithLookaheads (.ofAutomaton compiled.automaton) compiled.sets compiled.automaton state)

theorem exists_row {state : Nat} (inside : state < compiled.automaton.kernels.size) :
    ∃ row, compiled.rows[state]? = some row ∧
      actionRow grammar state (compiled.claims state) (compiled.automaton.edgesOf state) = .ok row := by
  have settled := compiled.settled
  unfold actionRows at settled
  rw [Array.mapM_eq_mapM_toList, map_ok] at settled
  obtain ⟨rows, done, same⟩ := settled
  obtain ⟨_, each⟩ := mapM_ok _ _ rows done
  obtain ⟨row, at_, settledRow⟩ := each state state (by simp [inside])
  rw [← same]
  exact ⟨row, by simpa using at_, settledRow⟩

theorem rows_size : compiled.rows.size = compiled.automaton.kernels.size := by
  have settled := compiled.settled
  unfold actionRows at settled
  rw [Array.mapM_eq_mapM_toList, map_ok] at settled
  obtain ⟨rows, done, same⟩ := settled
  obtain ⟨length, _⟩ := mapM_ok _ _ rows done
  rw [← same]
  simpa using length

theorem rows_sound {state : Nat} (inside : state < compiled.automaton.kernels.size) :
    ∃ row, compiled.rows[state]? = some row ∧
      RowSound grammar (compiled.claims state) (compiled.automaton.edgesOf state) row.actions := by
  obtain ⟨row, at_, settled⟩ := compiled.exists_row inside
  exact ⟨row, at_, actionRow_sound settled⟩

theorem row_size : ∀ row, row ∈ compiled.rows.toList → row.actions.size = grammar.terminalCount := by
  have size := compiled.rows_size
  intro row member
  obtain ⟨place, placeLt, at_⟩ := List.mem_iff_getElem.mp member
  rw [Array.length_toList, size] at placeLt
  obtain ⟨other, found, sound⟩ := compiled.rows_sound placeLt
  rw [Array.getElem?_eq_getElem (by omega)] at found
  have same : row = other := by
    rw [← at_, ← Option.some.inj found]
    rfl
  exact same ▸ sound.1

theorem action_cell {terminal : KindId} (inside : terminal.index < grammar.terminalCount) (state : StateId) :
    table.action state terminal =
      ((compiled.rows[state.index]?).bind fun row => row.actions[terminal.index]?).getD .error := by
  have laid := layout_getElem? (fun row : SettledRow => row.actions) grammar.terminalCount inside
    compiled.rows.toList state.index compiled.row_size
  have actionsEq : table.actions =
      compiled.rows.toList.foldl (fun actions row => actions ++ row.actions) #[] :=
    (congrArg Table.actions compiled.table_eq).trans (Array.foldl_toList _).symm
  unfold Table.action
  rw [compiled.terminalCount_eq, actionsEq, laid, Array.getElem?_toList]

theorem action_justified {state : StateId} {terminal : KindId} {action : Action}
    (inside : terminal.index < grammar.terminalCount) (found : table.action state terminal = action)
    (acts : action ≠ .error) :
    ∃ kernel, compiled.automaton.kernels[state.index]? = some kernel ∧
      Justified grammar (compiled.claims state.index) (compiled.automaton.edgesOf state.index)
        terminal.index action := by
  have size := compiled.rows_size
  rw [compiled.action_cell inside] at found
  rcases Nat.lt_or_ge state.index compiled.automaton.kernels.size with known | unknown
  · obtain ⟨row, at_, sound⟩ := compiled.rows_sound known
    refine ⟨_, Array.getElem?_eq_getElem known, ?_⟩
    rw [at_, Option.bind_some] at found
    cases cell : row.actions[terminal.index]? with
    | none =>
        rw [cell] at found
        exact absurd found.symm acts
    | some there =>
        rw [cell] at found
        exact found ▸ sound.2 terminal.index there cell
  · rw [Array.getElem?_eq_none (by omega)] at found
    exact absurd found.symm acts

private theorem gotos_getElem? {column : Nat} (inside : column < grammar.nonterminalCount) (state : Nat) :
    table.gotos[state * grammar.nonterminalCount + column]? =
      if state < compiled.automaton.kernels.size then
        (gotoRow grammar.nonterminalCount (compiled.automaton.edgesOf state))[column]?
      else none := by
  have gotosEq : table.gotos = (Array.range compiled.automaton.kernels.size).toList.foldl
      (fun gotos state =>
        gotos ++ gotoRow grammar.nonterminalCount (compiled.automaton.edgesOf state)) #[] :=
    (congrArg Table.gotos compiled.table_eq).trans (Array.foldl_toList _).symm
  rw [gotosEq, layout_getElem? _ grammar.nonterminalCount inside _ _
    (fun state _ => gotoRow_sound.1), Array.getElem?_toList, Array.getElem?_range]
  split <;> rfl

end Compiled

/-! ### Symbols and their kinds -/

section Symbols

variable {grammar : Grammar} (numbered : grammar.Numbered)

include numbered

theorem symbolKind_index {symbol : Symbol}
    (within : symbol.Within grammar.terminalCount grammar.kinds.size) :
    (grammar.symbolKind symbol).index =
      match symbol with
      | .terminal kind => kind.index
      | .nonterminal id => grammar.terminalCount + id.index := by
  cases symbol with
  | terminal kind => rfl
  | nonterminal id =>
      have fits := numbered.kinds_le
      simp only [Declaration.symbolLimit] at fits
      have inside : grammar.terminalCount + id.index < grammar.kinds.size := within
      exact KindId.index_ofIndex (by omega)

theorem symbolKind_injective {left right : Symbol}
    (leftWithin : left.Within grammar.terminalCount grammar.kinds.size)
    (rightWithin : right.Within grammar.terminalCount grammar.kinds.size)
    (same : grammar.symbolKind left = grammar.symbolKind right) : left = right := by
  have indices := congrArg KindId.index same
  rw [symbolKind_index numbered leftWithin, symbolKind_index numbered rightWithin] at indices
  cases left with
  | terminal kind =>
      cases right with
      | terminal other => exact congrArg Symbol.terminal same
      | nonterminal other =>
          have low : kind.index < grammar.terminalCount := leftWithin.2
          dsimp only at indices
          omega
  | nonterminal id =>
      cases right with
      | terminal other =>
          have low : other.index < grammar.terminalCount := rightWithin.2
          dsimp only at indices
          omega
      | nonterminal other =>
          dsimp only at indices
          exact congrArg Symbol.nonterminal (Visited.index_injective (by omega))

theorem symbolKind_has {symbol : Symbol}
    (within : symbol.Within grammar.terminalCount grammar.kinds.size) :
    2 ≤ (grammar.symbolKind symbol).index ∧ (grammar.symbolKind symbol).index < grammar.kinds.size := by
  have reserved := numbered.reserved
  have room := numbered.rules_le
  rw [symbolKind_index numbered within]
  cases symbol with
  | terminal kind =>
      have bounds : 2 ≤ kind.index ∧ kind.index < grammar.terminalCount := within
      dsimp only
      omega
  | nonterminal id =>
      have inside : grammar.terminalCount + id.index < grammar.kinds.size := within
      dsimp only
      omega

theorem nextSymbol_within {item : Item} {symbol : Symbol}
    (next : (Rules.ofGrammar grammar).nextSymbol item = some symbol) :
    item.production ≤ grammar.productions.size ∧
      symbol.Within grammar.terminalCount grammar.kinds.size := by
  rcases Nat.lt_or_ge item.production grammar.productions.size with inside | outside
  · refine ⟨Nat.le_of_lt inside, ?_⟩
    have found := Array.getElem?_eq_getElem inside
    change (Rules.ofGrammar grammar).nextSymbol ⟨item.production, item.dot⟩ = _ at next
    rw [Rules.nextSymbol_production grammar found] at next
    exact (numbered.productions _ (Array.getElem_mem inside)).symbols symbol
      (List.mem_of_getElem? next)
  · rcases Nat.eq_or_lt_of_le outside with last | beyond
    · refine ⟨Nat.le_of_eq last.symm, ?_⟩
      change (Rules.ofGrammar grammar).nextSymbol ⟨item.production, item.dot⟩ = _ at next
      rw [← last, Rules.nextSymbol_augmented] at next
      have start := List.mem_singleton.mp (List.mem_of_getElem? next)
      subst start
      have room := numbered.rules_le
      have rules := numbered.rules_pos
      change grammar.terminalCount + 0 < grammar.kinds.size
      omega
    · have unknown : (Rules.ofGrammar grammar).rhs[item.production]? = none :=
        Array.getElem?_eq_none (by rw [Rules.rhs_size]; omega)
      unfold Rules.nextSymbol at next
      rw [unknown] at next
      cases next

theorem contains_of_reducedOn_marker {seed : Item} {following : TerminalSet} {terminal : KindId}
    (follows : terminal ∈
      (reducedOn (.ofGrammar grammar) following ⟨seed, (Construction.ofGrammar grammar).markerSet⟩).toList) :
    following.contains terminal = true := by
  have room : (Construction.ofGrammar grammar).markerSet.slots ≤ 1024 := by
    have fits := numbered.kinds_le
    have rules := numbered.rules_le
    simp only [Declaration.symbolLimit] at fits
    change (TerminalSet.add _ _).slots ≤ 1024
    rw [TerminalSet.slots_add]
    change (grammar.terminalCount + 1 + 63) / 64 ≤ 1024
    omega
  unfold reducedOn at follows
  rw [if_pos (by rw [markerSet_contains numbered]; exact beq_self_eq_true _)] at follows
  have slots : (((Construction.ofGrammar grammar).markerSet.remove
      (Construction.ofGrammar grammar).marker).union following).slots ≤ 1024 := by
    rw [TerminalSet.slots_union, TerminalSet.slots_remove]
    exact room
  rcases TerminalSets.contains_union_imp _ _ _ ((TerminalSet.mem_toList slots).mp follows) with mine | given
  · rw [markerSet_remove numbered] at mine
    cases mine
  · exact given

end Symbols

theorem mem_kernel_of_dot {rules : Rules} {kernel : List Item} {item : Item}
    (closed : Closed rules kernel item) (moved : 0 < item.dot) : item ∈ kernel := by
  cases closed with
  | kernel member => exact member
  | start _ _ _ => exact absurd moved (Nat.lt_irrefl 0)

namespace Compiled

variable {grammar : Grammar} {table : Table} (numbered : grammar.Numbered)
  (compiled : Compiled grammar table)

def Items (state : StateId) (item : Item) : Prop :=
  ∃ kernel, compiled.automaton.kernels[state.index]? = some kernel ∧
    Closed (.ofGrammar grammar) kernel item

include compiled

theorem items_start : compiled.Items .start ⟨grammar.productions.size, 0⟩ := by
  refine ⟨_, compiled.explored.first, .kernel ?_⟩
  unfold Automaton.startKernel
  rw [Rules.augmented_ofGrammar]
  exact List.mem_singleton_self _

theorem dot_of_items_start {item : Item} (member : compiled.Items .start item) : item.dot = 0 := by
  obtain ⟨kernel, found, closed⟩ := member
  cases compiled.explored.first.symm.trans found
  cases closed with
  | kernel member =>
      unfold Automaton.startKernel at member
      rw [List.mem_singleton.mp member]
  | start _ _ _ => rfl

theorem kernel_item {state : Nat} {kernel : List Item} {item : Item}
    (found : compiled.automaton.kernels[state]? = some kernel) (member : item ∈ kernel) :
    item = ⟨grammar.productions.size, 0⟩ ∨
      ∃ before symbol, (Rules.ofGrammar grammar).nextSymbol before = some symbol ∧
        item = before.advance := by
  rcases compiled.explored.origin state kernel found with start | ⟨earlier, previous, symbol, _, among⟩
  · subst start
    unfold Automaton.startKernel at member
    rw [Rules.augmented_ofGrammar, List.mem_singleton] at member
    exact Or.inl member
  · obtain ⟨before, _, next, same⟩ := (mem_successor among item).mp member
    exact Or.inr ⟨before, symbol, next, same⟩

theorem exists_symbol {kind : KindId} (known : kind.index < grammar.kinds.size) :
    (∃ id, (Symbol.nonterminal id).Within grammar.terminalCount grammar.kinds.size ∧
      table.isTerminal kind = false ∧ grammar.symbolKind (.nonterminal id) = kind ∧
      id.index = kind.index - grammar.terminalCount) ∨
    (table.isTerminal kind = true ∧ kind.index < grammar.terminalCount) := by
  unfold Table.isTerminal
  rw [compiled.terminalCount_eq]
  rcases Nat.lt_or_ge kind.index grammar.terminalCount with low | high
  · exact Or.inr ⟨decide_eq_true low, low⟩
  · have fits := KindId.index_lt kind
    have index : (NonterminalId.ofIndex (kind.index - grammar.terminalCount)).index =
        kind.index - grammar.terminalCount := NonterminalId.index_ofIndex (by omega)
    refine Or.inl ⟨.ofIndex (kind.index - grammar.terminalCount), ?_, ?_, ?_, index⟩
    · change _ + (NonterminalId.ofIndex _).index < _
      rw [index]
      omega
    · exact decide_eq_false (Nat.not_lt_of_le high)
    · change KindId.ofIndex (_ + (NonterminalId.ofIndex _).index) = kind
      rw [index, Nat.add_sub_cancel' high]
      exact KindId.ofIndex_index kind

theorem successor_edge {state next : StateId} {kind : KindId} (known : table.HasKind kind)
    (reached : table.successor state kind = some next) :
    ∃ kernel symbol, compiled.automaton.kernels[state.index]? = some kernel ∧
      (symbol, next.index) ∈ compiled.automaton.edgesOf state.index ∧ grammar.symbolKind symbol = kind := by
  have edge : ∃ kernel symbol place, compiled.automaton.kernels[state.index]? = some kernel ∧
      (symbol, place) ∈ compiled.automaton.edgesOf state.index ∧ next = .ofIndex place ∧
      grammar.symbolKind symbol = kind := by
    unfold Table.successor at reached
    unfold Table.HasKind at known
    rw [compiled.kinds_eq] at known
    rcases compiled.exists_symbol known with ⟨id, within, other, same, column⟩ | ⟨terminal, low⟩
    · rw [other] at reached
      unfold Table.goto at reached
      rw [other] at reached
      have inside : id.index < grammar.nonterminalCount := by
        have bound : grammar.terminalCount + id.index < grammar.kinds.size := within
        unfold Grammar.nonterminalCount
        omega
      simp only [Bool.false_eq_true, if_false] at reached
      rw [compiled.nonterminalCount_eq, compiled.terminalCount_eq, ← column,
        compiled.gotos_getElem? inside] at reached
      split at reached
      · rename_i there
        cases cell : (gotoRow grammar.nonterminalCount
            (compiled.automaton.edgesOf state.index))[id.index]? with
        | none =>
            rw [cell] at reached
            cases reached
        | some target =>
            rw [cell, Option.getD_some] at reached
            subst reached
            obtain ⟨found, place, member, index, target⟩ := gotoRow_sound.2 id.index next cell
            have equal : found = id := Visited.index_injective index
            subst equal
            exact ⟨_, _, place, Array.getElem?_eq_getElem there, member, target, same⟩
      · cases reached
    · rw [terminal] at reached
      simp only [if_true] at reached
      split at reached
      · rename_i target shifted
        cases reached
        obtain ⟨kernel, found, justified⟩ := compiled.action_justified low shifted (by simp)
        obtain ⟨other, place, member, index, target⟩ := justified
        exact ⟨kernel, _, place, found, member, target, TerminalSet.index_injective index⟩
      · cases reached
  obtain ⟨kernel, symbol, place, found, member, target, same⟩ := edge
  obtain ⟨inside, _⟩ := Array.getElem?_eq_some_iff.mp found
  obtain ⟨_, at_, _⟩ := (compiled.explored.edges state.index kernel inside found).targets symbol place member
  have placeLt := (Array.getElem?_eq_some_iff.mp at_).1
  have fits := compiled.explored.size_le
  have index : next.index = place := by
    rw [target]
    apply StateId.index_ofIndex
    simp only [Automaton.stateLimit] at fits
    omega
  exact ⟨kernel, symbol, found, index ▸ member, same⟩

theorem successor_kernel {state next : StateId} {kind : KindId} (known : table.HasKind kind)
    (reached : table.successor state kind = some next) :
    ∃ kernel target symbol, compiled.automaton.kernels[state.index]? = some kernel ∧
      compiled.automaton.kernels[next.index]? = some target ∧
      (symbol, target) ∈ successors (.ofGrammar grammar) kernel ∧ grammar.symbolKind symbol = kind := by
  obtain ⟨kernel, symbol, found, member, same⟩ := compiled.successor_edge known reached
  obtain ⟨inside, _⟩ := Array.getElem?_eq_some_iff.mp found
  obtain ⟨target, at_, among⟩ :=
    (compiled.explored.edges state.index kernel inside found).targets symbol next.index member
  exact ⟨kernel, target, symbol, found, at_, among, same⟩

/-- A production is claimed by an item at its end, in the closure of a kernel item. -/
theorem claimed_item {state : StateId} {kernel : List Item} {column number : Nat}
    (found : compiled.automaton.kernels[state.index]? = some kernel)
    (claimed : (compiled.claims state.index).reductions[column]? = some (some number)) :
    ∃ seed slot closed terminal, kernel[slot]? = some seed ∧
      closed ∈ (Construction.ofGrammar grammar).closure seed ∧ compiled.Items state closed.item ∧
      (Rules.ofGrammar grammar).nextSymbol closed.item = none ∧ closed.item.production = number ∧
      terminal ∈ (reducedOn (.ofGrammar grammar)
        (compiled.sets[(Placement.ofAutomaton compiled.automaton).base state.index + slot]?.getD (.withCapacity 0))
        closed).toList ∧ terminal.index = column := by
  obtain ⟨entry, closed, terminal, inKernel, inClosure, ended, same, follows, index⟩ :=
    claimsOf_sound grammar _ _ claimed
  unfold kernelWithLookaheads at inKernel
  rw [found] at inKernel
  obtain ⟨⟨seed, slot⟩, placed, entryEq⟩ := List.mem_map.mp inKernel
  rw [List.mk_mem_zipIdx_iff_getElem?] at placed
  subst entryEq
  have closure := mem_closuresOf inClosure
  exact ⟨seed, slot, closed, terminal, placed, closure, ⟨kernel, found, closed_of_mem_constructionClosure
    (Rules.ofGrammar_consistent grammar) (List.mem_of_getElem? placed) closure⟩, ended, same, follows, index⟩

/-- Behind a mark there is a way on over the symbol. -/
theorem items_edge {state : StateId} {item : Item} {symbol : Symbol} (member : compiled.Items state item)
    (behind : (Rules.ofGrammar grammar).nextSymbol item = some symbol) :
    state.index < compiled.automaton.kernels.size ∧
      ∃ place, (symbol, place) ∈ compiled.automaton.edgesOf state.index := by
  obtain ⟨kernel, found, closed⟩ := member
  obtain ⟨inside, _⟩ := Array.getElem?_eq_some_iff.mp found
  obtain ⟨target, among⟩ := exists_successor
    ((mem_closure (Rules.ofGrammar_consistent grammar)).mpr closed) behind
  have key : symbol ∈ (compiled.automaton.edgesOf state.index).map (·.1) := by
    rw [(compiled.explored.edges state.index kernel inside found).symbols]
    exact List.mem_map_of_mem among
  obtain ⟨⟨_, place⟩, edge, rfl⟩ := List.mem_map.mp key
  exact ⟨inside, place, edge⟩

theorem terminal_lt {terminal : KindId} (low : table.isTerminal terminal = true) :
    terminal.index < grammar.terminalCount := by
  have bound := of_decide_eq_true low
  rwa [compiled.terminalCount_eq] at bound

include numbered

theorem items_production_le {state : StateId} {item : Item} (member : compiled.Items state item) :
    item.production ≤ grammar.productions.size := by
  obtain ⟨kernel, found, closed⟩ := member
  cases closed with
  | kernel inKernel =>
      rcases compiled.kernel_item found inKernel with start | ⟨before, symbol, next, same⟩
      · exact Nat.le_of_eq (congrArg Item.production start)
      · subst same
        exact (nextSymbol_within numbered next).1
  | start _ _ produced =>
      obtain ⟨_, production, known, _⟩ := (Rules.mem_productionsOf grammar).mp produced
      exact Nat.le_of_lt (Array.getElem?_eq_some_iff.mp known).1

theorem nextKind_some {state : StateId} {item : Item} {kind : KindId}
    (member : compiled.Items state item) (next : table.nextKind item = some kind) :
    ∃ symbol, (Rules.ofGrammar grammar).nextSymbol item = some symbol ∧
      symbol.Within grammar.terminalCount grammar.kinds.size ∧ grammar.symbolKind symbol = kind := by
  rw [compiled.nextKind_eq (compiled.items_production_le numbered member), Option.map_eq_some_iff] at next
  obtain ⟨symbol, found, same⟩ := next
  exact ⟨symbol, found, (nextSymbol_within numbered found).2, same⟩

theorem nextKind_of_nextSymbol {item : Item} {symbol : Symbol}
    (next : (Rules.ofGrammar grammar).nextSymbol item = some symbol) :
    table.nextKind item = some (grammar.symbolKind symbol) := by
  rw [compiled.nextKind_eq (nextSymbol_within numbered next).1, next]
  rfl

theorem items_dot_le {state : StateId} {item : Item} (member : compiled.Items state item) :
    item.dot ≤ (table.rhs item.production).length := by
  obtain ⟨kernel, found, closed⟩ := member
  cases closed with
  | kernel inKernel =>
      rcases compiled.kernel_item found inKernel with start | ⟨before, symbol, next, same⟩
      · subst start
        exact Nat.zero_le _
      · subst same
        have here := compiled.nextKind_of_nextSymbol numbered next
        exact (List.getElem?_eq_some_iff.mp here).1
  | start _ _ _ => exact Nat.zero_le _

theorem production_info {number : Nat} {info : ProductionInfo}
    (found : table.productions[number]? = some info) :
    ∃ production, grammar.productions[number]? = some production ∧
      info = productionInfo grammar production ∧
      production.Numbered grammar.terminalCount grammar.ruleCount grammar.kinds.size := by
  rw [compiled.productions_getElem?, Option.map_eq_some_iff] at found
  obtain ⟨production, known, same⟩ := found
  obtain ⟨inside, at_⟩ := Array.getElem?_eq_some_iff.mp known
  exact ⟨production, known, same.symm, numbered.productions production (at_ ▸ Array.getElem_mem inside)⟩

/-- What a state holds behind a symbol stood before the symbol. -/
theorem items_before {state next : StateId} {kind : KindId} {item : Item} (known : table.HasKind kind)
    (reached : table.successor state kind = some next) (member : compiled.Items next item) (moved : 0 < item.dot) :
    compiled.Items state ⟨item.production, item.dot - 1⟩ ∧
      table.nextKind ⟨item.production, item.dot - 1⟩ = some kind := by
  obtain ⟨kernel, found, closed⟩ := member
  obtain ⟨source, target, symbol, sourceAt, targetAt, among, same⟩ :=
    compiled.successor_kernel known reached
  cases targetAt.symm.trans found
  obtain ⟨earlier, inClosure, behind, advanced⟩ :=
    (mem_successor among item).mp (mem_kernel_of_dot closed moved)
  subst advanced
  refine ⟨⟨source, sourceAt, (mem_closure (Rules.ofGrammar_consistent grammar)).mp inClosure⟩, ?_⟩
  exact same ▸ compiled.nextKind_of_nextSymbol numbered behind

theorem final_at_end {state : StateId} {item : Item} (member : compiled.Items state item)
    (last : item.IsFinal grammar) (ended : (Rules.ofGrammar grammar).nextSymbol item = none) :
    item = ⟨grammar.productions.size, 1⟩ := by
  have production : item.production = grammar.productions.size := last
  have shape : item = ⟨grammar.productions.size, item.dot⟩ := by rw [← production]
  have atMost := compiled.items_dot_le numbered member
  rw [production, compiled.rhs_augmented] at atMost
  have atLeast : (Rules.ofGrammar grammar).nextSymbol ⟨grammar.productions.size, item.dot⟩ = none := shape ▸ ended
  rw [Rules.nextSymbol_augmented, List.getElem?_eq_none_iff] at atLeast
  have one : item.dot = 1 := Nat.le_antisymm atMost atLeast
  rw [shape, one]

theorem accepts_end {state : StateId} {terminal : KindId} (low : terminal.index < grammar.terminalCount)
    (accepted : table.action state terminal = .accept) :
    terminal = .endOfInput ∧ compiled.Items state ⟨grammar.productions.size, 1⟩ := by
  obtain ⟨kernel, found, number, beyond, claimed⟩ := compiled.action_justified low accepted (by simp)
  obtain ⟨seed, slot, closed, follower, placed, closure, member, ended, same, follows, index⟩ :=
    compiled.claimed_item found claimed
  obtain rfl : follower = terminal := TerminalSet.index_injective index
  have last : closed.item.IsFinal grammar :=
    Nat.le_antisymm (compiled.items_production_le numbered member) (same ▸ beyond)
  refine ⟨?_, compiled.final_at_end numbered member last ended ▸ member⟩
  obtain rfl := final_in_closure closure last
  have given := contains_of_reducedOn_marker numbered follows
  cases here : compiled.sets[(Placement.ofAutomaton compiled.automaton).base state.index + slot]? with
  | none =>
      rw [here, Option.getD_none, TerminalSet.contains_withCapacity] at given
      cases given
  | some set =>
      rw [here, Option.getD_some] at given
      exact lookaheads_final numbered compiled.lookaheads
        ⟨state.index, slot, kernel, found, placed, rfl⟩ last here follower given

theorem items_led {state next : StateId} {kind : KindId} (known : table.HasKind kind)
    (reached : table.successor state kind = some next) :
    ∃ item, compiled.Items state item ∧ table.nextKind item = some kind := by
  obtain ⟨source, target, symbol, sourceAt, _, among, same⟩ := compiled.successor_kernel known reached
  obtain ⟨item, inClosure, behind⟩ := successor_begun among
  exact ⟨item, ⟨source, sourceAt, (mem_closure (Rules.ofGrammar_consistent grammar)).mp inClosure⟩,
    same ▸ compiled.nextKind_of_nextSymbol numbered behind⟩

theorem items_after {state next : StateId} {kind : KindId} {item : Item} (known : table.HasKind kind)
    (reached : table.successor state kind = some next) (member : compiled.Items state item)
    (ahead : table.nextKind item = some kind) : compiled.Items next item.advance := by
  obtain ⟨source, target, symbol, sourceAt, targetAt, among, same⟩ := compiled.successor_kernel known reached
  obtain ⟨other, behind, within, kindEq⟩ := compiled.nextKind_some numbered member ahead
  obtain ⟨kernel, found, closed⟩ := member
  cases sourceAt.symm.trans found
  obtain ⟨_, _, begunBehind⟩ := successor_begun among
  obtain rfl : other = symbol := symbolKind_injective numbered within
    (nextSymbol_within numbered begunBehind).2 (kindEq.trans same.symm)
  exact ⟨target, targetAt, .kernel ((mem_successor among _).mpr
    ⟨item, (mem_closure (Rules.ofGrammar_consistent grammar)).mpr closed, behind, rfl⟩)⟩

theorem items_begun {state : StateId} {number : Nat} {info : ProductionInfo}
    (known : table.productions[number]? = some info) (member : compiled.Items state ⟨number, 0⟩) :
    ∃ item, compiled.Items state item ∧ table.nextKind item = some info.lhs := by
  obtain ⟨kernel, found, closed⟩ := member
  obtain ⟨production, at_, infoEq, _⟩ := compiled.production_info numbered known
  cases closed with
  | kernel member =>
      rcases compiled.kernel_item found member with start | ⟨earlier, symbol, _, advanced⟩
      · have last : number = grammar.productions.size := congrArg Item.production start
        rw [last, Array.getElem?_eq_none (Nat.le_refl _)] at at_
        cases at_
      · exact absurd (congrArg Item.dot advanced) (by simp [Item.advance])
  | start inside behind produced =>
      obtain ⟨_, other, otherAt, lhs⟩ := (Rules.mem_productionsOf grammar).mp produced
      cases at_.symm.trans otherAt
      refine ⟨_, ⟨kernel, found, inside⟩, ?_⟩
      rw [infoEq, compiled.nextKind_of_nextSymbol numbered behind, ← lhs]
      rfl

theorem items_begins {state : StateId} {item : Item} {number : Nat} {info : ProductionInfo}
    (known : table.productions[number]? = some info) (member : compiled.Items state item)
    (ahead : table.nextKind item = some info.lhs) : compiled.Items state ⟨number, 0⟩ := by
  obtain ⟨production, at_, infoEq, shaped⟩ := compiled.production_info numbered known
  obtain ⟨symbol, behind, within, kindEq⟩ := compiled.nextKind_some numbered member ahead
  have lhsWithin : (Symbol.nonterminal production.lhs).Within grammar.terminalCount grammar.kinds.size :=
    shaped.lhs_lt
  obtain rfl : symbol = .nonterminal production.lhs :=
    symbolKind_injective numbered within lhsWithin (kindEq.trans (congrArg ProductionInfo.lhs infoEq))
  obtain ⟨kernel, found, closed⟩ := member
  refine ⟨kernel, found, .start closed behind ((Rules.mem_productionsOf grammar).mpr ⟨?_, production, at_, rfl⟩)⟩
  have bound := shaped.lhs_lt
  unfold Grammar.nonterminalCount
  omega

theorem goto_of_items {state : StateId} {item : Item} {kind : KindId} (member : compiled.Items state item)
    (ahead : table.nextKind item = some kind) (nonterminal : table.isTerminal kind = false) :
    ∃ next, table.goto state kind = some next := by
  obtain ⟨symbol, behind, within, kindEq⟩ := compiled.nextKind_some numbered member ahead
  obtain ⟨inside, place, edge⟩ := compiled.items_edge member behind
  have kindLt := (symbolKind_has numbered within).2
  rw [kindEq] at kindLt
  rcases compiled.exists_symbol kindLt with ⟨id, idWithin, _, idKind, column⟩ | ⟨terminal, _⟩
  · obtain rfl := symbolKind_injective numbered within idWithin (kindEq.trans idKind.symm)
    have bound : id.index < grammar.nonterminalCount := by
      have low : grammar.terminalCount + id.index < grammar.kinds.size := idWithin
      unfold Grammar.nonterminalCount
      omega
    obtain ⟨next, cell⟩ := gotoRow_complete bound edge
    refine ⟨next, ?_⟩
    unfold Table.goto
    rw [nonterminal]
    simp only [Bool.false_eq_true, if_false]
    rw [compiled.nonterminalCount_eq, compiled.terminalCount_eq, ← column, compiled.gotos_getElem? bound,
      if_pos inside, cell]
    rfl
  · rw [terminal] at nonterminal
    cases nonterminal

theorem reduces_at_end (small : grammar.productions.size ≤ 65536) {state : StateId} {terminal : KindId}
    {id : ProductionId} (low : terminal.index < grammar.terminalCount)
    (reduced : table.action state terminal = .reduce id) :
    ∃ item production, compiled.Items state item ∧ item.production = id.index ∧
      table.nextKind item = none ∧ table.productions[id.index]? = some production := by
  obtain ⟨kernel, found, number, numberLt, idEq, claimed⟩ := compiled.action_justified low reduced (by simp)
  obtain ⟨_, _, closed, _, _, _, member, ended, same, _, _⟩ := compiled.claimed_item found claimed
  have index : id.index = number := by
    rw [idEq]
    exact ProductionId.index_ofIndex (by omega)
  refine ⟨closed.item, productionInfo grammar grammar.productions[number], member, same.trans index.symm, ?_, ?_⟩
  · rw [compiled.nextKind_eq (compiled.items_production_le numbered member), ended]
    rfl
  · rw [index, compiled.productions_getElem?, Array.getElem?_eq_getElem numberLt]
    rfl

end Compiled

/-- A compiled table agrees with the items of its automaton. -/
theorem compile_chart {grammar : Grammar} {table : Table} (numbered : grammar.Numbered)
    (compiled : Compiled grammar table) (small : grammar.productions.size ≤ 65536) :
    table.Chart compiled.Items where
  start_dot := fun _ member => compiled.dot_of_items_start member
  start_item := by
    rw [compiled.productions_size]
    exact compiled.items_start
  before := fun _ _ _ _ known reached member moved => compiled.items_before numbered known reached member moved
  led := fun _ _ _ known reached => compiled.items_led numbered known reached
  after := fun _ _ _ _ known reached member ahead => compiled.items_after numbered known reached member ahead
  begun := fun _ _ _ known member => compiled.items_begun numbered known member
  begins := fun _ _ _ _ known member ahead => compiled.items_begins numbered known member ahead
  goes := fun _ _ _ member ahead nonterminal => compiled.goto_of_items numbered member ahead nonterminal
  reduces := fun _ _ _ low reduced => compiled.reduces_at_end numbered small (compiled.terminal_lt low) reduced
  accepts := by
    intro state terminal low accepted
    rw [compiled.productions_size]
    exact compiled.accepts_end numbered (compiled.terminal_lt low) accepted
  dot_le := by
    intro state item member
    rw [compiled.productions_size]
    exact ⟨compiled.items_production_le numbered member, compiled.items_dot_le numbered member⟩

theorem compile_endsOnce {grammar : Grammar} {table : Table} (numbered : grammar.Numbered)
    (compiled : Compiled grammar table) : table.EndsOnce where
  shifts := by
    intro state terminal target low shifted
    obtain ⟨kernel, found, other, place, edge, index, _⟩ :=
      compiled.action_justified (compiled.terminal_lt low) shifted (by simp)
    obtain ⟨at_, _⟩ := Array.getElem?_eq_some_iff.mp found
    have connected := compiled.explored.edges state.index kernel at_ found
    obtain ⟨reached, _, among⟩ := connected.targets _ place edge
    obtain ⟨item, _, behind⟩ := successor_begun among
    have bounds : 2 ≤ other.index ∧ _ := (nextSymbol_within numbered behind).2
    omega
  accepts := fun _ _ low accepted => (compiled.accepts_end numbered (compiled.terminal_lt low) accepted).1

theorem compile_numbered {grammar : Grammar} {table : Table} (numbered : grammar.Numbered)
    (compiled : Compiled grammar table) : table.Numbered := by
  have described : ∀ info, info ∈ table.productions → ∃ production,
      info = productionInfo grammar production ∧
      production.Numbered grammar.terminalCount grammar.ruleCount grammar.kinds.size := by
    intro info member
    obtain ⟨number, inside, at_⟩ := Array.mem_iff_getElem.mp member
    have found : table.productions[number]? = some info := by
      rw [Array.getElem?_eq_getElem inside, at_]
    obtain ⟨production, _, same, shaped⟩ := compiled.production_info numbered found
    exact ⟨production, same, shaped⟩
  have symbols : ∀ production : Production, (productionInfo grammar production).symbols.map
      table.symbolKind = production.symbols.map grammar.symbolKind :=
    fun production => List.map_congr_left (fun symbol _ => compiled.symbolKind_eq symbol)
  have lhsIndex : ∀ production : Production,
      production.Numbered grammar.terminalCount grammar.ruleCount grammar.kinds.size →
      (productionInfo grammar production).lhs.index = grammar.terminalCount + production.lhs.index :=
    fun production shaped => symbolKind_index numbered
      (show (Symbol.nonterminal production.lhs).Within _ _ from shaped.lhs_lt)
  constructor
  · rw [compiled.terminalCount_eq]
    exact numbered.reserved
  · rw [compiled.ruleCount_eq]
    exact numbered.rules_pos
  · rw [compiled.terminalCount_eq, compiled.ruleCount_eq, compiled.kinds_eq]
    exact numbered.rules_le
  · rw [compiled.kinds_eq]
    exact numbered.kinds_le
  · intro info member
    obtain ⟨production, rfl, shaped⟩ := described info member
    unfold Table.isTerminal Table.HasKind
    rw [lhsIndex production shaped, compiled.terminalCount_eq, compiled.kinds_eq]
    exact ⟨decide_eq_false (by omega), shaped.lhs_lt⟩
  · intro info member kind among
    obtain ⟨production, rfl, shaped⟩ := described info member
    rw [symbols] at among
    obtain ⟨symbol, inside, rfl⟩ := List.mem_map.mp among
    unfold Table.HasKind
    rw [compiled.kinds_eq]
    exact symbolKind_has numbered (shaped.symbols symbol inside)
  · intro info member plain
    obtain ⟨production, rfl, shaped⟩ := described info member
    have low := shaped.plain plain
    unfold Table.isRepeat
    rw [lhsIndex production shaped, compiled.terminalCount_eq, compiled.ruleCount_eq,
      Bool.and_eq_false_iff]
    exact Or.inl (decide_eq_false (by omega))
  · intro info member base
    obtain ⟨production, rfl, shaped⟩ := described info member
    obtain ⟨high, nonempty⟩ := shaped.base base
    have bound := shaped.lhs_lt
    refine ⟨?_, ?_⟩
    · unfold Table.isRepeat
      rw [lhsIndex production shaped, compiled.terminalCount_eq, compiled.ruleCount_eq,
        compiled.kinds_eq]
      simp only [Bool.and_eq_true, decide_eq_true_eq]
      exact ⟨by omega, bound⟩
    · intro empty
      exact nonempty (List.map_eq_nil_iff.mp empty)
  · intro info member join
    obtain ⟨production, rfl, shaped⟩ := described info member
    obtain ⟨high, joined⟩ := shaped.join join
    have bound := shaped.lhs_lt
    refine ⟨?_, ?_, ?_⟩
    · unfold Table.isRepeat
      rw [lhsIndex production shaped, compiled.terminalCount_eq, compiled.ruleCount_eq,
        compiled.kinds_eq]
      simp only [Bool.and_eq_true, decide_eq_true_eq]
      exact ⟨by omega, bound⟩
    · rw [joined]
      rfl
    · rw [symbols, joined]
      rfl

end Lalr

end IncrementalParsing
