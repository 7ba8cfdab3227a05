import IncrementalParsing.Proofs.Grammar.Counting
import IncrementalParsing.Proofs.Lalr.Making

/-!
Numbers in a table. States, nonterminals and lexing modes are stored with 16 bits, and so are the
productions of reductions. A table is made, refused, or broken off because there are too many modes; the
numbers of states and modes in a table are the numbers that they were made with, and that of a production
keeps its low 16 bits.
-/

namespace IncrementalParsing

namespace Lalr

/-! ### Rows that are refused -/

structure Refuses (grammar : Grammar) (failure : Failure ConfigurationError) : Prop where
  strict : grammar.policy = .strict
  refused : ∃ reason, failure = .refused reason

variable {grammar : Grammar} {failure : Failure ConfigurationError}

theorem settle_refuses {state terminal : Nat} {claims : Claims} {row : SettledRow}
    (broken : settle grammar state claims row terminal = .error failure) : Refuses grammar failure := by
  unfold settle at broken
  split at broken
  · cases broken
  · split at broken
    · cases broken
    · cases broken
    · cases broken
    · split at broken
      · cases broken
      · cases broken
      · split at broken
        · rename_i policy
          cases broken
          exact ⟨policy, _, rfl⟩
        · cases broken

theorem actionRow_refuses {state : Nat} {claims : Claims} {edges : List (Symbol × Nat)}
    (broken : actionRow grammar state claims edges = .error failure) : Refuses grammar failure := by
  obtain ⟨_, _, _, settled⟩ := foldlM_error broken
  exact settle_refuses settled

section Rows

variable {automaton : Automaton} {sets : Array TerminalSet}

theorem actionRows_refuses
    (broken : actionRows grammar (.ofGrammar grammar) (.ofConstruction (.ofGrammar grammar))
      (.ofAutomaton automaton) sets automaton = .error failure) : Refuses grammar failure := by
  unfold actionRows at broken
  rw [Array.mapM_eq_mapM_toList] at broken
  cases each : (Array.range automaton.kernels.size).toList.mapM fun state =>
      actionRow grammar state (claimsAt grammar automaton sets state) (automaton.edgesOf state) with
  | ok rows =>
      unfold claimsAt at each
      rw [each] at broken
      cases broken
  | error other =>
      obtain ⟨_, _, here⟩ := mapM_error each
      unfold claimsAt at each
      rw [each] at broken
      cases broken
      exact actionRow_refuses here

theorem actionRows_size {rows : Array SettledRow}
    (settled : actionRows grammar (.ofGrammar grammar) (.ofConstruction (.ofGrammar grammar))
      (.ofAutomaton automaton) sets automaton = .ok rows) : rows.size = automaton.kernels.size := by
  unfold actionRows at settled
  rw [Array.mapM_eq_mapM_toList, map_ok] at settled
  obtain ⟨listed, done, rfl⟩ := settled
  simpa using (mapM_ok _ _ listed done).1

end Rows

end Lalr

/-! ### Tables that are not made -/

open Lalr in
/-- There are as many states as there can be, and no two of them admit the same terminals. -/
def Grammar.Diverse (grammar : Grammar) : Prop :=
  ∃ automaton sets rows, Automaton.ofRules (.ofGrammar grammar) = .ok automaton ∧
    lookaheads (.ofGrammar grammar) (.ofConstruction (.ofGrammar grammar)) (.ofAutomaton automaton) automaton =
      .ok sets ∧
    actionRows grammar (.ofGrammar grammar) (.ofConstruction (.ofGrammar grammar)) (.ofAutomaton automaton) sets
      automaton = .ok rows ∧
    automaton.kernels.size = Automaton.stateLimit ∧ (rows.toList.map fun row => Modes.admitted row.actions).Nodup

namespace Lalr

theorem Modes.assign_error {modes : Modes} {row : Array Action} {fault : Fault}
    (broken : modes.assign row = .error fault) : fault = .arithmeticOverflow := by
  unfold Modes.assign at broken
  dsimp only at broken
  split at broken
  · cases broken
  · split at broken
    · cases broken
      rfl
    · cases broken

theorem compile_error {grammar : Grammar} {failure : Failure ConfigurationError} {automaton : Automaton}
    {sets : Array TerminalSet} (made : Automaton.ofRules (.ofGrammar grammar) = .ok automaton)
    (computed : lookaheads (.ofGrammar grammar) (.ofConstruction (.ofGrammar grammar)) (.ofAutomaton automaton)
      automaton = .ok sets)
    (broken : compile grammar = .error failure) :
    Refuses grammar failure ∨ ∃ rows, actionRows grammar (.ofGrammar grammar) (.ofConstruction (.ofGrammar grammar))
        (.ofAutomaton automaton) sets automaton = .ok rows ∧ failure = .fault .arithmeticOverflow := by
  have same : Automaton.ofRules (Construction.ofGrammar grammar).rules = .ok automaton := made
  unfold compile at broken
  dsimp only at broken
  rw [same] at broken
  rcases bind_error.mp broken with none | ⟨_, ⟨⟩, broken⟩
  · cases none
  rcases bind_error.mp broken with none | ⟨found, again, broken⟩
  · rw [computed] at none
    cases none
  cases (lift_ok.mp again).symm.trans computed
  rcases bind_error.mp broken with refused | ⟨rows, settled, broken⟩
  · exact Or.inl (actionRows_refuses refused)
  rcases bind_error.mp broken with assigning | ⟨_, _, none⟩
  · rw [← Array.foldlM_toList] at assigning
    obtain ⟨row, modes, _, full⟩ := foldlM_error assigning
    refine Or.inr ⟨rows, settled, ?_⟩
    cases assigned : modes.assign row.actions with
    | ok after =>
        rw [assigned] at full
        cases full
    | error fault =>
        rw [assigned] at full
        cases full
        rw [Modes.assign_error assigned]
  · cases none

section Outcome

variable {grammar : Grammar} (numbered : grammar.Numbered) (productive : grammar.unproductive? = none)

include numbered productive

/-- A table that is not made is refused, or there are too many modes. -/
theorem compile_concludes :
    Concludes (fun table => Nonempty (Compiled grammar table))
      (fun fault => fault = .arithmeticOverflow ∧ grammar.Diverse) (compile grammar) := by
  cases outcome : compile grammar with
  | ok table => exact compile_ok outcome
  | error failure =>
      cases made : Automaton.ofRules (.ofGrammar grammar) with
      | error reason =>
          have same : Automaton.ofRules (Construction.ofGrammar grammar).rules = .error reason := made
          unfold compile at outcome
          dsimp only at outcome
          rw [same] at outcome
          cases outcome
          exact trivial
      | ok automaton =>
          have explored := Automaton.ofRules_explored made
          obtain ⟨sets, _, computed, _⟩ := lookaheads_settled numbered productive explored
          rcases compile_error made computed outcome with ⟨_, reason, rfl⟩ | ⟨rows, settled, rfl⟩
          · exact trivial
          · refine ⟨rfl, automaton, sets, rows, made, computed, settled, ?_⟩
            have size : rows.toList.length = automaton.kernels.size := actionRows_size settled
            have most := explored.size_le
            have fewer := (List.dedup_sublist (rows.toList.map fun row => Modes.admitted row.actions)).length_le
            have many : 65535 ≤ (rows.toList.map fun row => Modes.admitted row.actions).dedup.length := by
              refine Nat.le_of_not_lt fun few => ?_
              obtain ⟨table, compiled, _⟩ := exists_compile_of_rows made computed settled few
              cases compiled.symm.trans outcome
            unfold Automaton.stateLimit at most ⊢
            rw [List.length_map] at fewer
            refine ⟨by omega, List.dedup_eq_self.mp ?_⟩
            exact (List.dedup_sublist _).eq_of_length_le (by rw [List.length_map]; omega)

theorem exists_compile_of_few (policy : grammar.policy = .preferShift) {automaton : Automaton}
    (made : Automaton.ofRules (.ofGrammar grammar) = .ok automaton)
    (few : automaton.kernels.size < Automaton.stateLimit) : ∃ table, compile grammar = .ok table := by
  obtain ⟨sets, _, computed, _⟩ := lookaheads_settled numbered productive (Automaton.ofRules_explored made)
  have concludes := compile_concludes numbered productive
  cases outcome : compile grammar with
  | ok table => exact ⟨table, rfl⟩
  | error failure =>
      exfalso
      rcases compile_error made computed outcome with ⟨strict, _⟩ | ⟨_, _, rfl⟩
      · cases policy.symm.trans strict
      · obtain ⟨_, other, _, _, again, _, _, full, _⟩ := concludes.fault outcome
        cases made.symm.trans again
        omega

end Outcome

/-! ### Modes of states -/

/-- The modes that some rows have got: each of them is found under the number of its row's mode, and none of
them has two numbers. The mode of recovery has the number 0, which no row gets. -/
structure Modes.Exact (rows : List (Array Action)) (modes : Modes) : Prop where
  positive : 0 < modes.sets.size
  fits : modes.sets.size < 65536
  distinct : (modes.sets.toList.drop 1).Nodup
  length : modes.ofStates.size = rows.length
  found : ∀ (place : Nat) (row : Array Action), rows[place]? = some row → ∃ mode, modes.ofStates[place]? = some mode ∧
    0 < mode.index ∧ modes.sets[mode.index]? = some (admitted row)

theorem Modes.Exact.push {rows : List (Array Action)} {before after : Modes} {row : Array Action} {mode : LexMode}
    (known : before.Exact rows)
    (grown : ∀ (place : Nat) (set : TerminalSet), before.sets[place]? = some set → after.sets[place]? = some set)
    (states : after.ofStates = before.ofStates.push mode) (behind : 0 < mode.index)
    (here : after.sets[mode.index]? = some (admitted row)) (place : Nat) (wanted : Array Action)
    (listed : (rows ++ [row])[place]? = some wanted) :
    ∃ mode, after.ofStates[place]? = some mode ∧ 0 < mode.index ∧
      after.sets[mode.index]? = some (admitted wanted) := by
  have length := known.length
  rw [states, Array.getElem?_push]
  by_cases last : place = rows.length
  · subst last
    rw [List.getElem?_concat_length] at listed
    cases listed
    rw [if_pos length.symm]
    exact ⟨mode, rfl, behind, here⟩
  · have inside := (List.getElem?_eq_some_iff.mp listed).1
    rw [List.length_append, List.length_singleton] at inside
    rw [List.getElem?_append_left (by omega)] at listed
    rw [if_neg (by omega)]
    obtain ⟨earlier, at_, positive, set⟩ := known.found place wanted listed
    exact ⟨earlier, at_, positive, grown _ _ set⟩

theorem Modes.number?_some {modes : Modes} {set : TerminalSet} {mode : LexMode} (fits : modes.sets.size < 65536)
    (search : modes.number? set = some mode) : 0 < mode.index ∧ modes.sets[mode.index]? = some set := by
  unfold Modes.number? at search
  obtain ⟨place, among, rfl⟩ := Option.map_eq_some_iff.mp search
  obtain ⟨inside, same, _⟩ := List.findIdx?_eq_some_iff_getElem.mp among
  have here : modes.sets[place + 1]? = some set := by
    have listed := List.getElem?_eq_getElem inside
    rw [List.getElem?_drop, beq_iff_eq.mp same, Array.getElem?_toList, Nat.add_comm] at listed
    exact listed
  have below := (Array.getElem?_eq_some_iff.mp here).1
  have index : (LexMode.ofIndex (place + 1)).index = place + 1 := LexMode_index_ofIndex (by omega)
  rw [index]
  exact ⟨Nat.succ_pos place, here⟩

theorem Modes.number?_none {modes : Modes} {set : TerminalSet} (search : modes.number? set = none) :
    set ∉ modes.sets.toList.drop 1 := by
  intro old
  unfold Modes.number? at search
  have away := List.findIdx?_eq_none_iff.mp (Option.map_eq_none_iff.mp search) _ old
  simp at away

theorem Modes.assign_exact {rows : List (Array Action)} {before after : Modes} {row : Array Action}
    (known : before.Exact rows) (assigned : before.assign row = .ok after) : after.Exact (rows ++ [row]) := by
  have positive := known.positive
  have fits := known.fits
  have length : ∀ mode, (before.ofStates.push mode).size = (rows ++ [row]).length := by
    intro mode
    rw [Array.size_push, known.length, List.length_append, List.length_singleton]
  unfold Modes.assign at assigned
  dsimp only at assigned
  cases search : before.number? (admitted row) with
  | some mode =>
      rw [search] at assigned
      cases assigned
      obtain ⟨behind, here⟩ := Modes.number?_some fits search
      exact ⟨positive, fits, known.distinct, length _, known.push (fun _ _ found => found) rfl behind here⟩
  | none =>
      rw [search] at assigned
      dsimp only at assigned
      split at assigned
      · cases assigned
      · rename_i room
        cases assigned
        have fresh := Modes.number?_none search
        have index : (LexMode.ofIndex before.sets.size).index = before.sets.size := LexMode_index_ofIndex fits
        refine ⟨?_, ?_, ?_, length _, known.push ?_ rfl ?_ ?_⟩
        · rw [Array.size_push]
          omega
        · rw [Array.size_push]
          omega
        · rw [Array.toList_push, List.drop_append_of_le_length (by rw [Array.length_toList]; exact positive)]
          exact (List.perm_append_singleton (admitted row) _).symm.nodup (List.nodup_cons.mpr ⟨fresh, known.distinct⟩)
        · intro place set found
          rw [Array.getElem?_push, if_neg (Nat.ne_of_lt (Array.getElem?_eq_some_iff.mp found).1)]
          exact found
        · rw [index]
          exact positive
        · rw [index]
          exact Array.getElem?_push_size

theorem Modes.assignAll_exact : ∀ (rows : List SettledRow) {done : List (Array Action)} {before after : Modes},
    before.Exact done →
    rows.foldlM (fun modes row => (modes.assign row.actions : Except (Failure ConfigurationError) Modes))
      before = .ok after → after.Exact (done ++ rows.map (·.actions))
  | [], _, _, _, exact_, folded => by
      rw [List.foldlM_nil] at folded
      rw [List.map_nil, List.append_nil]
      exact pure_ok.mp folded ▸ exact_
  | row :: rest, _, _, _, exact_, folded => by
      rw [List.foldlM_cons] at folded
      obtain ⟨middle, assigned, remaining⟩ := bind_ok.mp folded
      have final := Modes.assignAll_exact rest (Modes.assign_exact exact_ (lift_ok.mp assigned)) remaining
      rw [List.append_assoc] at final
      exact final

theorem Modes.contains_admitted {row : Array Action} (fits : row.size ≤ 65536) {terminal : KindId} :
    (admitted row).contains terminal = true ↔ ∃ action, row[terminal.index]? = some action ∧ action ≠ .error := by
  unfold admitted
  rw [← Array.foldl_toList, Array.toList_zipIdx,
    TerminalSet.contains_foldl_add (fun entry : Action × Nat => entry.1 = .error) (·.2),
    TerminalSet.contains_withCapacity]
  · constructor
    · rintro (none | ⟨⟨action, place⟩, member, acts, rfl⟩)
      · cases none
      · rw [List.mk_mem_zipIdx_iff_getElem?, Array.getElem?_toList] at member
        exact ⟨action, member, acts⟩
    · rintro ⟨action, found, acts⟩
      refine Or.inr ⟨(action, terminal.index), ?_, acts, rfl⟩
      rw [List.mk_mem_zipIdx_iff_getElem?, Array.getElem?_toList]
      exact found
  · rintro ⟨action, place⟩ member
    rw [List.mk_mem_zipIdx_iff_getElem?, Array.getElem?_toList] at member
    have inside := (Array.getElem?_eq_some_iff.mp member).1
    change place < 64 * ((row.size + 63) / 64) ∧ place < 65536
    omega

/-! ### Exact tables -/

section Compiled

variable {grammar : Grammar} {table : Table}

/-- The numbers in a table are those of what it was made from: of the states of the automaton, of the
productions that were chosen, and of the modes behind that of recovery. The number of a production keeps its
low 16 bits. -/
structure Compiled.Exact (compiled : Compiled grammar table) : Prop where
  states : table.stateCount = compiled.automaton.kernels.size
  successors : ∀ state kind target, table.HasKind kind → table.successor state kind = some target →
    ∃ symbol, symbol.numbers.kind table.terminalCount = kind.index ∧
      (symbol, target.index) ∈ compiled.automaton.edgesOf state.index
  reductions : ∀ state terminal id, table.isTerminal terminal = true → table.action state terminal = .reduce id →
    ∃ number, (compiled.claims state.index).reducing terminal.index = some number ∧
      number < table.productions.size ∧ id.index = number % 65536
  modes : ∀ state : StateId, state.index < table.stateCount → ∃ set,
    table.lexModes[(table.lexMode state).index]? = some set ∧
      (table.lexMode state).index = (table.lexModes.toList.drop 1).idxOf set + 1 ∧
      ∀ terminal, table.isTerminal terminal = true →
        (set.contains terminal = true ↔ table.action state terminal ≠ .error)

variable (compiled : Compiled grammar table)

include compiled

theorem Compiled.modes_exact : compiled.modes.Exact (compiled.rows.toList.map (·.actions)) := by
  have initially : Modes.Exact [] ⟨#[Modes.recovery grammar], #[]⟩ :=
    ⟨Nat.one_pos, show 1 < 65536 by decide, List.nodup_nil, rfl, fun place row none => by cases none⟩
  have assigned := compiled.assigned
  rw [← Array.foldlM_toList] at assigned
  exact Modes.assignAll_exact compiled.rows.toList initially assigned

theorem Compiled.mode_row {state : StateId} (inside : state.index < table.stateCount) :
    ∃ row, compiled.rows[state.index]? = some row ∧
      table.lexModes[(table.lexMode state).index]? = some (Modes.admitted row.actions) ∧
      (table.lexMode state).index = (table.lexModes.toList.drop 1).idxOf (Modes.admitted row.actions) + 1 := by
  have assigned := compiled.modes_exact
  have states : table.stateModes.size = compiled.rows.size := by
    rw [compiled.stateModes_eq, assigned.length, List.length_map, Array.length_toList]
  have below : state.index < compiled.rows.size := states ▸ inside
  obtain ⟨row, at_⟩ : ∃ row, compiled.rows[state.index]? = some row := ⟨_, Array.getElem?_eq_getElem below⟩
  obtain ⟨mode, modeAt, behind, set⟩ := assigned.found state.index row.actions (by
    rw [List.getElem?_map, Array.getElem?_toList, at_]
    rfl)
  have lexMode : table.lexMode state = mode := by
    unfold Table.lexMode
    rw [compiled.stateModes_eq, modeAt, Option.getD_some]
  rw [lexMode, compiled.lexModes_eq]
  refine ⟨row, at_, set, ?_⟩
  have placed : (compiled.modes.sets.toList.drop 1)[mode.index - 1]? = some (Modes.admitted row.actions) := by
    rw [List.getElem?_drop, Array.getElem?_toList, Nat.add_sub_cancel' behind]
    exact set
  obtain ⟨within, same⟩ := List.getElem?_eq_some_iff.mp placed
  have place := assigned.distinct.idxOf_getElem _ within
  rw [same] at place
  omega

variable (numbered : grammar.Numbered)

include numbered

theorem Compiled.contains_mode {state : StateId} {row : SettledRow}
    (at_ : compiled.rows[state.index]? = some row) {terminal : KindId} :
    (Modes.admitted row.actions).contains terminal = true ↔
      table.isTerminal terminal = true ∧ table.action state terminal ≠ .error := by
  have width := compiled.row_size row (Array.mem_toList_iff.mpr (Array.mem_of_getElem? at_))
  have fits := numbered.kinds_le
  have room := numbered.rules_le
  unfold Declaration.symbolLimit at fits
  rw [Modes.contains_admitted (by omega)]
  unfold Table.isTerminal
  rw [decide_eq_true_eq, compiled.terminalCount_eq]
  constructor
  · rintro ⟨action, cell, acts⟩
    have low := (Array.getElem?_eq_some_iff.mp cell).1
    rw [width] at low
    refine ⟨low, ?_⟩
    rwa [compiled.action_cell low, at_, Option.bind_some, cell, Option.getD_some]
  · rintro ⟨low, acts⟩
    have cell := Array.getElem?_eq_getElem (width.symm ▸ low : terminal.index < row.actions.size)
    rw [compiled.action_cell low, at_, Option.bind_some, cell, Option.getD_some] at acts
    exact ⟨_, cell, acts⟩

theorem Compiled.exact : compiled.Exact where
  states := by
    have length := compiled.modes_exact.length
    rw [List.length_map, Array.length_toList, compiled.rows_size] at length
    exact (congrArg Array.size compiled.stateModes_eq).trans length
  successors := by
    intro state kind target known reached
    obtain ⟨kernel, symbol, found, edge, rfl⟩ := compiled.successor_edge known reached
    obtain ⟨_, _, among⟩ := compiled.explored.edge_kernel found edge
    obtain ⟨_, _, behind⟩ := successor_begun among
    refine ⟨symbol, ?_, edge⟩
    rw [symbolKind_index numbered (nextSymbol_within numbered behind).2, compiled.terminalCount_eq]
    cases symbol <;> rfl
  reductions := by
    intro state terminal id isTerminal reduced
    obtain ⟨_, _, number, below, rfl, claimed⟩ :=
      compiled.action_justified (compiled.terminal_lt isTerminal) reduced (by simp)
    refine ⟨number, ?_, compiled.productions_size.symm ▸ below, ?_⟩
    · unfold Claims.reducing
      rw [claimed]
      rfl
    · simp [ProductionId.index, ProductionId.ofIndex]
  modes := by
    intro state inside
    obtain ⟨row, at_, set, number⟩ := compiled.mode_row inside
    refine ⟨_, set, number, fun terminal isTerminal => ?_⟩
    rw [compiled.contains_mode numbered at_, and_iff_right isTerminal]

end Compiled

end Lalr

/-! ### The numbers of a declaration -/

/-- A production of a table in numbers: the kind of its left-hand side, its symbols, their labels, its own kind. -/
def ProductionInfo.numbers (info : ProductionInfo) :
    Nat × List Unbounded.Symbol × List (Option Nat) × ProductionKind :=
  (info.lhs.index, info.symbols.map Symbol.numbers, info.fields.map (Option.map FieldId.index), info.kind)

def Unbounded.Production.info (terminals : Nat) (production : Unbounded.Production) :
    Nat × List Unbounded.Symbol × List (Option Nat) × ProductionKind :=
  ((Unbounded.Symbol.nonterminal production.lhs).kind terminals, production.steps.map (·.1),
    production.steps.map (·.2), production.kind)

/-- A table has the numbers that the flattened declaration has. -/
structure Table.Counts (declaration : Declaration) (table : Table) : Prop where
  terminals : table.terminalCount = declaration.firstLiteral + declaration.literalTexts.length
  rules : table.ruleCount = declaration.rules.size
  kinds : table.kinds.size = table.terminalCount + table.ruleCount + (Unbounded.flatten declaration).helpers
  labels : table.kinds.fields.toList = (Unbounded.flatten declaration).labels
  productions : table.productions.toList.map ProductionInfo.numbers =
    (Unbounded.flatten declaration).productions.map (Unbounded.Production.info table.terminalCount)
  lexical : table.lexical.Counts declaration

theorem Lalr.Compiled.counts {declaration : Declaration} {grammar : Grammar} {table : Table}
    (compiled : Lalr.Compiled grammar table) (normalized : declaration.normalize = .ok grammar) :
    table.Counts declaration := by
  have numbered := Declaration.normalize_numbered normalized
  have counts := declaration.normalize_concludes.answer normalized
  have terminals := Declaration.normalize_terminalCount normalized
  have rules : grammar.ruleCount = declaration.rules.size := by
    obtain ⟨_, _, _, _, _, rfl⟩ := Declaration.normalize_ok normalized
    rfl
  constructor
  · rw [compiled.terminalCount_eq, terminals, Declaration.terminalCount_eq]
  · rw [compiled.ruleCount_eq, rules]
  · rw [compiled.kinds_eq, compiled.terminalCount_eq, compiled.ruleCount_eq, counts.kinds]
  · rw [compiled.kinds_eq, counts.labels]
  · rw [compiled.productions_eq, Array.toList_map, ← counts.productions, List.map_map, List.map_map]
    refine List.map_congr_left fun production member => ?_
    have shaped := numbered.productions production (Array.mem_toList_iff.mp member)
    have lhs := Lalr.symbolKind_index numbered
      (show (Symbol.nonterminal production.lhs).Within grammar.terminalCount grammar.kinds.size from shaped.lhs_lt)
    simp only [Function.comp_apply, ProductionInfo.numbers, Unbounded.Production.info, Production.numbers,
      Lalr.productionInfo, Production.symbols, List.map_map, lhs, compiled.terminalCount_eq]
    rfl
  · rw [compiled.lexical_eq]
    exact counts.lexical

/-- A declaration is compiled, refused, or has too many labels or too many modes. What it is compiled to has
the numbers that it has without a limit, but for the productions of reductions, of which the low 16 bits are
kept. -/
theorem Declaration.compile_numbers (declaration : Declaration) :
    (∀ fault, declaration.compile = .error (.fault fault) → fault = .arithmeticOverflow ∧
      (65536 ≤ (Unbounded.flatten declaration).labels.length ∨
        ∃ grammar, declaration.normalize = .ok grammar ∧ grammar.Diverse)) ∧
    ∀ table, declaration.compile = .ok table → table.Counts declaration ∧
      ∃ (grammar : Grammar) (compiled : Lalr.Compiled grammar table), declaration.normalize = .ok grammar ∧
        Lalr.Automaton.ofRules (.ofGrammar grammar) = .ok compiled.automaton ∧ compiled.Exact := by
  constructor
  · intro fault broken
    unfold Declaration.compile at broken
    rcases bind_error.mp broken with flattening | ⟨grammar, normalized, compiling⟩
    · obtain ⟨overflow, many⟩ := declaration.normalize_concludes.fault flattening
      exact ⟨overflow, Or.inl many⟩
    · obtain ⟨_, _, _, _, productive, _⟩ := normalize_ok normalized
      obtain ⟨overflow, diverse⟩ :=
        (Lalr.compile_concludes (normalize_numbered normalized) productive).fault compiling
      exact ⟨overflow, Or.inr ⟨grammar, normalized, diverse⟩⟩
  · intro table made
    obtain ⟨grammar, normalized, compiling⟩ := bind_ok.mp made
    obtain ⟨compiled, explored⟩ := Lalr.compile_made compiling
    exact ⟨compiled.counts normalized, grammar, compiled, normalized, explored,
      compiled.exact (normalize_numbered normalized)⟩

namespace Labelled

def declaration : Declaration :=
  { Declaration.empty "labelled" with rules := #[("s", .repeated (.field "letter" (.literal "a")))] }

theorem compiles : declaration.compile.toOption.isSome = true := by decide +kernel

end Labelled

theorem Declaration.compile_numbers_labelled : ∃ table, Labelled.declaration.compile = .ok table ∧
    table.kinds.fields.toList = ["letter"] ∧
    table.productions.toList.map ProductionInfo.numbers =
      [(4, [.terminal 2], [some 0], .repeatBase),
        (4, [.nonterminal 1, .nonterminal 1], [none, none], .repeatJoin),
        (3, [.nonterminal 1], [none], .plain)] ∧
    ∃ (grammar : Grammar) (compiled : Lalr.Compiled grammar table), Labelled.declaration.normalize = .ok grammar ∧
      Lalr.Automaton.ofRules (.ofGrammar grammar) = .ok compiled.automaton ∧ compiled.Exact := by
  obtain ⟨_, exact_⟩ := Declaration.compile_numbers Labelled.declaration
  obtain ⟨counts, made⟩ := exact_ _ (eq_ok_get Labelled.compiles)
  refine ⟨_, eq_ok_get Labelled.compiles, counts.labels, counts.productions.trans ?_, made⟩
  rw [counts.terminals]
  decide +kernel

end IncrementalParsing
