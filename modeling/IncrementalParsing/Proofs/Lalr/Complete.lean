import IncrementalParsing.Proofs.Grammar.LeftNested
import IncrementalParsing.Proofs.Lalr.Candidates
import IncrementalParsing.Proofs.Lalr.Viable

/-!
Plain runs of a table are complete. A run follows a derivation that nests to the left: wherever an item is
due, the symbols behind its mark are passed, and what they derive is consumed. Nothing competes with what
such a derivation asks for, except that a repetition could go on where its ropes are joined. There the table
joins, and so does the derivation: only behind a join of two ropes does the kernel hold nothing but ropes,
and no element of a repetition begins there.
-/

namespace IncrementalParsing

/-! ### Steps of a run -/

namespace Table

variable {table : Table} {first last : Configuration}

def Reaches (table : Table) : Configuration → Configuration → Prop :=
  Relation.ReflTransGen fun before after => table.runStep before = .ok (.inl after)

theorem runStep_shifted {target : StateId} (acts : table.action first.state first.lookahead = .shift target) :
    table.runStep first = .ok (.inl { first with
      states := target :: first.states
      input := first.input.drop 1
      position := first.position + 1 }) := by
  unfold runStep
  rw [acts]

theorem runStep_accepted (acts : table.action first.state first.lookahead = .accept) :
    table.runStep first = .ok (.inr (.accepted first.trace.reverse)) := by
  unfold runStep
  rw [acts]

theorem Performs.trans {middle : Configuration} {ids others : List ProductionId}
    (performs : table.Performs first ids middle) (further : table.Performs middle others last) :
    table.Performs first (ids ++ others) last := by
  induction further with
  | refl =>
      rw [List.append_nil]
      exact performs
  | shift _ acts stepped ih => exact ih.shift acts stepped
  | reduce _ acts stepped ih =>
      rw [← List.append_assoc]
      exact ih.reduce acts stepped

theorem Performs.reaches {ids : List ProductionId} (performs : table.Performs first ids last) :
    table.Reaches first last := by
  induction performs with
  | refl => exact .refl
  | shift _ _ stepped ih => exact ih.tail stepped
  | reduce _ _ stepped ih => exact ih.tail stepped

theorem Reaches.runFrom {verdict : Verdict} (reaches : table.Reaches first last)
    (stops : table.runStep last = .ok (.inr verdict)) :
    ∃ steps, ∀ fuel, steps ≤ fuel → table.runFrom fuel first = .ok verdict := by
  induction reaches using Relation.ReflTransGen.head_induction_on with
  | refl =>
      refine ⟨1, fun fuel enough => ?_⟩
      obtain ⟨fuel, rfl⟩ : ∃ less, fuel = less + 1 := ⟨fuel - 1, by omega⟩
      unfold Table.runFrom
      rw [stops]
      rfl
  | head step _ ih =>
      obtain ⟨steps, enough⟩ := ih
      refine ⟨steps + 1, fun fuel more => ?_⟩
      obtain ⟨fuel, rfl⟩ : ∃ less, fuel = less + 1 := ⟨fuel - 1, by omega⟩
      unfold Table.runFrom
      rw [step]
      exact enough fuel (by omega)

end Table

namespace Lalr

open Grammar (word)

/-! ### What is due -/

def Rules.due (rules : Rules) (item : Item) : List Symbol :=
  (rules.rhs[item.production]?.getD #[]).toList.drop item.dot

section Due

variable {rules : Rules} {grammar : Grammar} {item : Item} {symbol : Symbol} {more : List Symbol}

theorem Rules.nextSymbol_of_due (due : rules.due item = symbol :: more) :
    rules.nextSymbol item = some symbol ∧ rules.rest item = more ∧ rules.due item.advance = more := by
  unfold Rules.due at due
  have rest : (rules.rhs[item.production]?.getD #[]).toList.drop (item.dot + 1) = more := by
    rw [← List.drop_drop, due]
    rfl
  refine ⟨?_, rest, rest⟩
  have first := congrArg List.head? due
  rw [List.head?_drop, Array.getElem?_toList] at first
  exact first

theorem Rules.nextSymbol_of_due_nil (due : rules.due item = []) : rules.nextSymbol item = none := by
  unfold Rules.due at due
  have first := congrArg List.head? due
  rw [List.head?_drop, Array.getElem?_toList] at first
  exact first

theorem Rules.due_production {number : Nat} {production : Production}
    (found : grammar.productions[number]? = some production) :
    (Rules.ofGrammar grammar).due ⟨number, 0⟩ = production.symbols := by
  unfold Rules.due
  rw [rhs_production grammar found]
  rfl

theorem Canonical.pass {terminal : KindId} : ∀ {passed : List Symbol} {item : Item}
    {front : List Symbol}, Canonical grammar front item terminal →
    (Rules.ofGrammar grammar).due item = passed ++ more →
    Canonical grammar (front ++ passed) ⟨item.production, item.dot + passed.length⟩ terminal ∧
      (Rules.ofGrammar grammar).due ⟨item.production, item.dot + passed.length⟩ = more
  | [], item, front, canonical, due => by
      rw [List.append_nil]
      exact ⟨canonical, due⟩
  | symbol :: passed, item, front, canonical, due => by
      obtain ⟨next, _, later⟩ := Rules.nextSymbol_of_due due
      obtain ⟨there, left⟩ := (canonical.advance next).pass later
      have dot : item.dot + (symbol :: passed).length = item.dot + 1 + passed.length := by
        rw [List.length_cons]
        omega
      rw [List.append_assoc] at there
      rw [dot]
      exact ⟨there, left⟩

theorem firstOf_word {form : List Symbol} {kinds coming : List KindId} {tail : KindId}
    (derives : grammar.Derives form (word kinds))
    (first : grammar.FirstOf more tail (coming.head?.getD .endOfInput)) :
    grammar.FirstOf (form ++ more) tail ((kinds ++ coming).head?.getD .endOfInput) := by
  unfold Grammar.FirstOf at first ⊢
  rw [List.append_assoc]
  have whole := derives.append (.refl : grammar.Derives (more ++ [.terminal tail]) _)
  apply Grammar.Begins.of_derives whole
  cases kinds with
  | nil => exact first
  | cons kind rest => exact ⟨_, .refl⟩

end Due

/-! ### Where no ropes are joined -/

/-- The state that some symbols lead to is none in which ropes may be joined. -/
def Away (grammar : Grammar) (automaton : Automaton) (front : List Symbol) : Prop :=
  ∀ state kernel number, automaton.Leads front state → automaton.kernels[state]? = some kernel →
    ¬ Joining grammar kernel number

/-- Wherever a symbol of the form or more is due no ropes may be joined, and of a join the form has the first
rope at most. -/
structure Calm (grammar : Grammar) (automaton : Automaton) (front : List Symbol) (item : Item)
    (form more : List Symbol) : Prop where
  away : ∀ passed symbol rest, form ++ more = passed ++ symbol :: rest → Away grammar automaton (front ++ passed)
  first : (grammar.productions[item.production]? : Option Production).map (·.kind) = some .repeatJoin →
    item.dot + form.length ≤ 1

namespace Calm

variable {grammar : Grammar} {automaton : Automaton} {front form more : List Symbol} {item : Item}
  {terminal : KindId}

theorem here {symbol : Symbol} (calm : Calm grammar automaton front item (symbol :: form) more) :
    Away grammar automaton front := by
  have nothing := calm.away [] symbol (form ++ more) rfl
  rwa [List.append_nil] at nothing

theorem advance {symbol : Symbol} (calm : Calm grammar automaton front item (symbol :: form) more) :
    Calm grammar automaton (front ++ [symbol]) item.advance form more where
  away passed other rest split := by
    have there := calm.away (symbol :: passed) other rest (congrArg (symbol :: ·) split)
    rw [List.append_assoc]
    exact there
  first joins := by
    have few := calm.first joins
    rw [List.length_cons] at few
    change item.dot + 1 + form.length ≤ 1
    omega

variable (explored : automaton.Explored (.ofGrammar grammar) automaton.kernels.size)

include explored

theorem mem_kernel (canonical : Canonical grammar front item terminal) {passed : List Symbol}
    (due : (Rules.ofGrammar grammar).due item = passed ++ more) (moved : 0 < item.dot + passed.length)
    {state : Nat} {kernel : List Item} (leads : automaton.Leads (front ++ passed) state)
    (found : automaton.kernels[state]? = some kernel) :
    ⟨item.production, item.dot + passed.length⟩ ∈ kernel :=
  mem_kernel_of_dot (closed_of_canonical explored leads found (canonical.pass due).1) moved

theorem of_plain {number : Nat} {production : Production}
    (found : grammar.productions[number]? = some production) (other : production.kind ≠ .repeatJoin)
    (canonical : Canonical grammar front ⟨number, 0⟩ terminal) (away : Away grammar automaton front) :
    Calm grammar automaton front ⟨number, 0⟩ production.symbols [] where
  away passed symbol rest split := by
    cases passed with
    | nil =>
        rw [List.append_nil]
        exact away
    | cons first passed =>
        intro state kernel joining leads kernelAt joins
        have due : (Rules.ofGrammar grammar).due ⟨number, 0⟩ = (first :: passed) ++ symbol :: rest := by
          rw [Rules.due_production found, ← split, List.append_nil]
        have member := mem_kernel explored canonical due (by rw [List.length_cons]; omega) leads kernelAt
        obtain ⟨isJoin, _, _, only⟩ := joins
        have same : number = joining := by
          rcases only _ member with one | two
          · exact congrArg Item.production one
          · exact congrArg Item.production two
        rw [← same, found] at isJoin
        exact other (Option.some.inj isJoin)
  first joins := by
    dsimp only at joins
    rw [found] at joins
    exact absurd (Option.some.inj joins) other

/-- A join is begun where no ropes may be joined, and none may be joined behind its first rope either: if
nothing but ropes were in the kernel there, the join would have been begun from the first rope of a join or
behind it. -/
theorem of_join (numbered : grammar.Numbered) {joining : Nat} {join : Production} {form : List Symbol}
    {tail : KindId} (found : grammar.productions[joining]? = some join) (joins : join.kind = .repeatJoin)
    (tracked : Canonical grammar front item tail)
    (due : (Rules.ofGrammar grammar).due item = (.nonterminal join.lhs :: form) ++ more)
    (calm : Calm grammar automaton front item (.nonterminal join.lhs :: form) more)
    (canonical : Canonical grammar front ⟨joining, 0⟩ terminal) :
    Calm grammar automaton front ⟨joining, 0⟩ [.nonterminal join.lhs] [.nonterminal join.lhs] where
  away passed symbol rest split := by
    cases passed with
    | nil =>
        rw [List.append_nil]
        exact calm.here
    | cons first passed =>
        obtain ⟨rfl, later⟩ := List.cons.inj split
        cases passed with
        | cons second passed =>
            have lengths := congrArg List.length (List.cons.inj later).2
            change 0 = (passed ++ symbol :: rest).length at lengths
            rw [List.length_append, List.length_cons] at lengths
            omega
        | nil =>
            intro state kernel number leads kernelAt exactly
            have ropes := numbered.join_symbols found joins
            have begun : (Rules.ofGrammar grammar).due ⟨joining, 0⟩ =
                [.nonterminal join.lhs] ++ [.nonterminal join.lhs] := by
              rw [Rules.due_production found, ropes]
              rfl
            have mine := mem_kernel explored canonical begun (Nat.zero_lt_one) leads kernelAt
            have behind : (Rules.ofGrammar grammar).due item = [.nonterminal join.lhs] ++ (form ++ more) := due
            have its := mem_kernel explored tracked behind (Nat.succ_pos _) leads kernelAt
            have ⟨isJoin, _, _, only⟩ := exactly
            have numberEq : joining = number := by
              rcases only _ mine with one | two
              · exact congrArg Item.production one
              · exact congrArg Item.production two
            have itemEq : item.production = number := by
              rcases only _ its with one | two
              · exact congrArg Item.production one
              · exact congrArg Item.production two
            have few := calm.first (itemEq.symm ▸ isJoin)
            rw [List.length_cons] at few
            have start : item = ⟨joining, 0⟩ := by
              rw [numberEq, ← itemEq, ← show item.dot = 0 by omega]
            have formEq : form = [] := List.eq_nil_of_length_eq_zero (by omega)
            subst formEq
            rw [start, begun] at due
            obtain ⟨_, rest⟩ := List.cons.inj due
            exact calm.away [.nonterminal join.lhs] (.nonterminal join.lhs) []
              (congrArg (Symbol.nonterminal join.lhs :: ·) rest.symm) state kernel number leads kernelAt exactly
  first _ := Nat.le_refl 1

end Calm

/-! ### Runs along a derivation -/

namespace Compiled

open Table (Configuration)

variable {grammar : Grammar} {table : Table} {compiled : Compiled grammar table} (numbered : grammar.Numbered)
  {states : List StateId} {stack : List Symbol}

include numbered in
theorem Spells.leads (spells : compiled.Spells states stack) :
    compiled.automaton.Leads stack.reverse (states.head?.getD .start).index := by
  induction spells with
  | start => exact .start
  | push _ within reached ih =>
      obtain ⟨kernel, symbol, found, edge, same⟩ :=
        compiled.successor_edge (compiled.hasKind numbered within) reached
      obtain ⟨_, _, among⟩ := compiled.explored.edge_kernel found edge
      obtain ⟨_, _, behind⟩ := successor_begun among
      cases symbolKind_injective numbered (nextSymbol_within numbered behind).2 within same
      rw [List.reverse_cons]
      exact ih.step edge

variable (compiled) in
def Arrives (stack : List Symbol) (coming : List KindId) (first : Configuration) : Prop :=
  ∃ states position trace, compiled.Spells states stack ∧
    table.Reaches first ⟨states, coming, position, trace⟩

variable (compiled) in
/-- Wherever the symbols are due, a run passes them and consumes the terminals. -/
def Follows (form : List Symbol) (kinds : List KindId) : Prop :=
  ∀ (states : List StateId) (stack : List Symbol) (item : Item) (tail : KindId) (more : List Symbol)
    (coming : List KindId) (position : Nat) (trace : List Table.Reduction),
    compiled.Spells states stack → Canonical grammar stack.reverse item tail →
    (Rules.ofGrammar grammar).due item = form ++ more →
    Calm grammar compiled.automaton stack.reverse item form more →
    grammar.FirstOf more tail (coming.head?.getD .endOfInput) →
    compiled.Arrives (form.reverse ++ stack) coming ⟨states, kinds ++ coming, position, trace⟩

theorem Arrives.andThen {middle last : List Symbol} {coming later : List KindId} {first : Configuration}
    (arrives : compiled.Arrives middle coming first)
    (goes : ∀ states position trace, compiled.Spells states middle →
      compiled.Arrives last later ⟨states, coming, position, trace⟩) :
    compiled.Arrives last later first := by
  obtain ⟨states, position, trace, spells, reaches⟩ := arrives
  obtain ⟨after, place, notes, spelled, more⟩ := goes states position trace spells
  exact ⟨after, place, notes, spelled, reaches.trans more⟩

variable {item : Item} {tail : KindId} {coming : List KindId} {position : Nat} {trace : List Table.Reduction}

include numbered in
/-- A production is begun where its left-hand side is due. -/
theorem begin_production {front : List Symbol} {terminal : KindId} {number : Nat} {production : Production}
    (found : grammar.productions[number]? = some production) (canonical : Canonical grammar front item tail)
    (next : (Rules.ofGrammar grammar).nextSymbol item = some (.nonterminal production.lhs))
    (first : grammar.FirstOf ((Rules.ofGrammar grammar).rest item) tail terminal) :
    Canonical grammar front ⟨number, 0⟩ terminal := by
  have bound := (numbered.productions production (Array.mem_of_getElem? found)).lhs_lt
  refine canonical.start next ((Rules.mem_productionsOf grammar).mpr ⟨?_, production, found, rfl⟩) first
  unfold Grammar.nonterminalCount
  omega

theorem Follows.nil : compiled.Follows [] [] :=
  fun states _ _ _ _ _ position trace spells _ _ _ _ => ⟨states, position, trace, spells, .refl⟩

theorem Follows.behind {id : NonterminalId} {rest more : List Symbol} {kinds : List KindId}
    (later : compiled.Follows rest kinds) (spells : compiled.Spells states (.nonterminal id :: stack))
    (canonical : Canonical grammar stack.reverse item tail)
    (due : (Rules.ofGrammar grammar).due item = (.nonterminal id :: rest) ++ more)
    (calm : Calm grammar compiled.automaton stack.reverse item (.nonterminal id :: rest) more)
    (first : grammar.FirstOf more tail (coming.head?.getD .endOfInput)) :
    compiled.Arrives ((.nonterminal id :: rest).reverse ++ stack) coming
      ⟨states, kinds ++ coming, position, trace⟩ := by
  obtain ⟨next, _, behind⟩ := Rules.nextSymbol_of_due due
  rw [List.reverse_cons, List.append_assoc]
  exact later _ _ item.advance tail more coming position trace spells
    (List.reverse_cons ▸ canonical.advance next) behind (List.reverse_cons ▸ calm.advance) first

/-! ### Steps of a run -/

theorem Spells.shifts (spells : compiled.Spells states stack) {kind : KindId} {target : StateId}
    (within : (Symbol.terminal kind).Within grammar.terminalCount grammar.kinds.size)
    (acts : table.action (states.head?.getD .start) kind = .shift target) :
    compiled.Spells (target :: states) (.terminal kind :: stack) := by
  have isTerminal : table.isTerminal kind = true := by
    unfold Table.isTerminal
    rw [compiled.terminalCount_eq]
    exact decide_eq_true within.2
  apply spells.push within
  change table.successor _ kind = _
  unfold Table.successor
  rw [if_pos isTerminal, acts]

include numbered in
/-- The left-hand side of a production that is reduced takes the place of its right-hand side, where something
has it behind its mark. -/
theorem Spells.reduces (small : grammar.productions.size ≤ 65536) {number : Nat} {production : Production}
    (found : grammar.productions[number]? = some production)
    (spells : compiled.Spells states (production.symbols.reverse ++ stack))
    (tracked : Canonical grammar stack.reverse item tail)
    (next : (Rules.ofGrammar grammar).nextSymbol item = some (.nonterminal production.lhs))
    (acts : table.action (states.head?.getD .start) (coming.head?.getD .endOfInput) = .reduce (.ofIndex number)) :
    ∃ target, compiled.Spells (target :: states.drop production.symbols.length) (.nonterminal production.lhs :: stack) ∧
      table.runStep ⟨states, coming, position, trace⟩ =
        .ok (.inl ⟨target :: states.drop production.symbols.length, coming, position,
          ⟨grammar.symbolKind (.nonterminal production.lhs), position⟩ :: trace⟩) := by
  have below := spells.drop production.symbols.length
  rw [← List.length_reverse, List.drop_left, List.length_reverse] at below
  have belowLeads := below.leads numbered
  obtain ⟨belowKernel, belowAt⟩ := compiled.explored.leads_lt belowLeads
  have member : compiled.Items ((states.drop production.symbols.length).head?.getD .start) item :=
    ⟨belowKernel, belowAt, closed_of_canonical compiled.explored belowLeads belowAt tracked⟩
  have within := (nextSymbol_within numbered next).2
  obtain ⟨inside, _⟩ := Array.getElem?_eq_some_iff.mp found
  have index : (ProductionId.ofIndex number).index = number := ProductionId.index_ofIndex (by omega)
  have infoAt : table.productions[(ProductionId.ofIndex number).index]? =
      some (productionInfo grammar production) := by
    rw [index, compiled.productions_getElem?, found]
    rfl
  have lhs := (compile_numbered numbered compiled).lhs _ (Array.mem_of_getElem? infoAt)
  obtain ⟨target, goes⟩ := (compile_chart numbered compiled small).goes _ _ _ member
    (compiled.nextKind_of_nextSymbol numbered next) lhs.1
  have room : (productionInfo grammar production).length ≤ states.length := by
    rw [spells.length_eq, List.length_append, List.length_reverse]
    exact Nat.le_add_right _ _
  refine ⟨target, .push below within ?_,
    @Table.runStep_reduced table ⟨states, coming, position, trace⟩ _ _ _ acts infoAt room goes⟩
  unfold Table.successor
  change (if table.isTerminal (productionInfo grammar production).lhs = true then _ else
    table.goto _ (productionInfo grammar production).lhs) = _
  rw [lhs.1]
  exact goes

variable (productive : grammar.unproductive? = none) (small : grammar.productions.size ≤ 65536)
  (uncontested : Uncontested grammar compiled.automaton compiled.sets)

include numbered productive uncontested

theorem Spells.shift_next (spells : compiled.Spells states stack)
    (canonical : Canonical grammar stack.reverse item tail) {kind : KindId}
    (next : (Rules.ofGrammar grammar).nextSymbol item = some (.terminal kind))
    (away : Away grammar compiled.automaton stack.reverse) :
    ∃ target, compiled.Spells (target :: states) (.terminal kind :: stack) ∧
      table.runStep ⟨states, kind :: coming, position, trace⟩ =
        .ok (.inl ⟨target :: states, coming, position + 1, trace⟩) := by
  have leads := spells.leads numbered
  obtain ⟨kernel, found⟩ := compiled.explored.leads_lt leads
  obtain ⟨target, _, acts⟩ := action_shift numbered productive uncontested found leads canonical next
    (fun number => away _ kernel number leads found)
  exact ⟨.ofIndex target, spells.shifts (nextSymbol_within numbered next).2 acts,
    @Table.runStep_shifted table ⟨states, kind :: coming, position, trace⟩ _ acts⟩

include small

/-- A production that is on the stack is reduced, and its left-hand side takes its place. -/
theorem Spells.reduce_next {number : Nat} {production : Production}
    (found : grammar.productions[number]? = some production)
    (spells : compiled.Spells states (production.symbols.reverse ++ stack))
    (begun : Canonical grammar stack.reverse ⟨number, 0⟩ (coming.head?.getD .endOfInput))
    (tracked : Canonical grammar stack.reverse item tail)
    (next : (Rules.ofGrammar grammar).nextSymbol item = some (.nonterminal production.lhs)) :
    compiled.Arrives (.nonterminal production.lhs :: stack) coming ⟨states, coming, position, trace⟩ := by
  have leads := spells.leads numbered
  obtain ⟨kernel, kernelAt⟩ := compiled.explored.leads_lt leads
  have due : (Rules.ofGrammar grammar).due ⟨number, 0⟩ = production.symbols ++ [] := by
    rw [Rules.due_production found, List.append_nil]
  obtain ⟨complete, ended⟩ := begun.pass due
  rw [← List.reverse_reverse production.symbols, ← List.reverse_append, List.reverse_reverse] at complete
  have acts := action_reduce numbered productive uncontested kernelAt leads complete
    (Rules.nextSymbol_of_due_nil ended)
  obtain ⟨inside, _⟩ := Array.getElem?_eq_some_iff.mp found
  unfold reduction at acts
  rw [if_pos inside] at acts
  obtain ⟨target, spelled, step⟩ := spells.reduces numbered small found tracked next acts
  exact ⟨_, _, _, spelled, .single step⟩

/-- A production that is no join is passed where its left-hand side is due. -/
theorem Follows.produce {number : Nat} {production : Production} {kinds : List KindId}
    (inner : compiled.Follows production.symbols kinds)
    (found : grammar.productions[number]? = some production) (other : production.kind ≠ .repeatJoin)
    (spells : compiled.Spells states stack) (tracked : Canonical grammar stack.reverse item tail)
    (next : (Rules.ofGrammar grammar).nextSymbol item = some (.nonterminal production.lhs))
    (away : Away grammar compiled.automaton stack.reverse)
    (begun : Canonical grammar stack.reverse ⟨number, 0⟩ (coming.head?.getD .endOfInput)) :
    compiled.Arrives (.nonterminal production.lhs :: stack) coming
      ⟨states, kinds ++ coming, position, trace⟩ := by
  have due : (Rules.ofGrammar grammar).due ⟨number, 0⟩ = production.symbols ++ [] := by
    rw [Rules.due_production found, List.append_nil]
  have passed := inner states stack ⟨number, 0⟩ _ [] coming position trace spells begun due
    (Calm.of_plain compiled.explored found other begun away) (Grammar.firstOf_iff.mpr (Or.inr ⟨.refl, rfl⟩))
  apply passed.andThen
  intro after place notes spelled
  exact spelled.reduce_next numbered productive small uncontested found begun tracked next

omit small in
theorem Follows.terminal {kind : KindId} {rest : List Symbol} {kinds : List KindId}
    (later : compiled.Follows rest kinds) : compiled.Follows (.terminal kind :: rest) (kind :: kinds) := by
  intro states stack item tail more coming position trace spells canonical due calm first
  obtain ⟨next, _, behind⟩ := Rules.nextSymbol_of_due due
  obtain ⟨target, pushed, step⟩ :=
    spells.shift_next numbered productive uncontested canonical next calm.here
  rw [List.reverse_cons, List.append_assoc]
  obtain ⟨after, place, notes, spelled, reaches⟩ := later _ _ item.advance tail more coming _ trace pushed
    (List.reverse_cons ▸ canonical.advance next) behind (List.reverse_cons ▸ calm.advance) first
  exact ⟨after, place, notes, spelled, .head step reaches⟩

theorem Follows.plain {number : Nat} {production : Production} {rest : List Symbol} {inner kinds : List KindId}
    (found : grammar.productions[number]? = some production) (other : production.kind ≠ .repeatJoin)
    (passes : compiled.Follows production.symbols inner) (derives : grammar.Derives rest (word kinds))
    (later : compiled.Follows rest kinds) :
    compiled.Follows (.nonterminal production.lhs :: rest) (inner ++ kinds) := by
  intro states stack item tail more coming position trace spells canonical due calm first
  obtain ⟨next, ahead, _⟩ := Rules.nextSymbol_of_due due
  have follows := firstOf_word derives first
  rw [show rest ++ more = _ from ahead.symm] at follows
  have begun := begin_production numbered found canonical next follows
  rw [List.append_assoc]
  have passed : compiled.Arrives (.nonterminal production.lhs :: stack) (kinds ++ coming)
      ⟨states, inner ++ (kinds ++ coming), position, trace⟩ :=
    passes.produce numbered productive small uncontested found other spells canonical next calm.here begun
  apply passed.andThen
  intro after place notes spelled
  exact later.behind spelled canonical due calm first

/-- A join is passed by its first rope, a rope that no join makes, and two reductions. -/
theorem Follows.join {joining number : Nat} {join production : Production} {rest : List Symbol}
    {first second kinds : List KindId} (found : grammar.productions[joining]? = some join)
    (joins : join.kind = .repeatJoin) (base : grammar.productions[number]? = some production)
    (other : production.kind ≠ .repeatJoin) (same : production.lhs = join.lhs)
    (front : compiled.Follows [.nonterminal join.lhs] first)
    (secondDerives : grammar.Derives production.symbols (word second))
    (back : compiled.Follows production.symbols second) (derives : grammar.Derives rest (word kinds))
    (later : compiled.Follows rest kinds) :
    compiled.Follows (.nonterminal join.lhs :: rest) (first ++ second ++ kinds) := by
  intro states stack item tail more coming position trace spells canonical due calm leading
  obtain ⟨next, ahead, _⟩ := Rules.nextSymbol_of_due due
  have follows := firstOf_word derives leading
  rw [show rest ++ more = _ from ahead.symm] at follows
  have begun := begin_production numbered found canonical next follows
  have ropes : (Rules.ofGrammar grammar).due ⟨joining, 0⟩ =
      [.nonterminal join.lhs] ++ [.nonterminal join.lhs] := by
    rw [Rules.due_production found, numbered.join_symbols found joins]
    rfl
  have quiet := Calm.of_join compiled.explored numbered found joins canonical due calm begun
  have ropeDerives : grammar.Derives [.nonterminal join.lhs] (word second) := by
    rw [← same]
    exact (Grammar.derives_production base).trans secondDerives
  have vanishing : ∀ terminal, grammar.FirstOf [] terminal terminal :=
    fun _ => Grammar.firstOf_iff.mpr (Or.inr ⟨.refl, rfl⟩)
  have behindFirst := firstOf_word ropeDerives (vanishing ((kinds ++ coming).head?.getD .endOfInput))
  rw [List.append_nil] at behindFirst
  rw [List.append_assoc, List.append_assoc]
  apply (front states stack ⟨joining, 0⟩ _ [.nonterminal join.lhs] (second ++ (kinds ++ coming)) position trace
    spells begun ropes quiet behindFirst).andThen
  intro middle place notes half
  obtain ⟨nextRope, restRope, dueRope⟩ := Rules.nextSymbol_of_due ropes
  have secondDue := begun.advance nextRope
  rw [← List.reverse_cons] at secondDue
  obtain ⟨nextSecond, restSecond, _⟩ := Rules.nextSymbol_of_due dueRope
  have away : Away grammar compiled.automaton (Symbol.nonterminal join.lhs :: stack).reverse := by
    rw [List.reverse_cons]
    exact quiet.away [.nonterminal join.lhs] (.nonterminal join.lhs) [] rfl
  have nextBase : (Rules.ofGrammar grammar).nextSymbol (Item.advance ⟨joining, 0⟩) =
      some (.nonterminal production.lhs) := same.symm ▸ nextSecond
  have baseBegun := begin_production numbered base secondDue nextBase (restSecond.symm ▸ vanishing _)
  have passed : compiled.Arrives (.nonterminal production.lhs :: .nonterminal join.lhs :: stack)
      (kinds ++ coming) ⟨middle, second ++ (kinds ++ coming), place, notes⟩ :=
    back.produce numbered productive small uncontested base other half secondDue nextBase away baseBegun
  apply passed.andThen
  intro both placeBoth notesBoth whole
  have handle : compiled.Spells both (join.symbols.reverse ++ stack) := by
    rw [numbered.join_symbols found joins]
    exact same ▸ whole
  have joined : compiled.Arrives (.nonterminal join.lhs :: stack) (kinds ++ coming)
      ⟨both, kinds ++ coming, placeBoth, notesBoth⟩ :=
    handle.reduce_next numbered productive small uncontested found begun canonical next
  apply joined.andThen
  intro after placeAfter notesAfter spelled
  exact later.behind spelled canonical due calm leading

theorem Follows.of_leftNested {form : List Symbol} {kinds : List KindId}
    (nested : grammar.LeftNested form kinds) : compiled.Follows form kinds := by
  induction nested with
  | nil => exact .nil
  | terminal _ ih => exact ih.terminal numbered productive uncontested
  | plain found other _ later innerIh ih =>
      exact .plain numbered productive small uncontested found other innerIh (later.derives numbered) ih
  | join found joins base other same _ back later frontIh backIh ih =>
      exact .join numbered productive small uncontested found joins base other same frontIh
        (back.derives numbered) backIh (later.derives numbered) ih

omit numbered productive uncontested small in
theorem calm_start : Calm grammar compiled.automaton [] ⟨grammar.productions.size, 0⟩
    [.nonterminal Grammar.start] [] where
  away passed symbol rest split := by
    have none : passed = [] := by
      have lengths := congrArg List.length split
      rw [List.length_append, List.length_append, List.length_cons] at lengths
      exact List.eq_nil_of_length_eq_zero (by simp at lengths; omega)
    subst none
    intro state kernel number leads found joins
    generalize begins : ([] ++ [] : List Symbol) = front at leads
    cases leads with
    | start =>
        cases compiled.explored.first.symm.trans found
        obtain ⟨_, one, _⟩ := joins
        cases List.mem_singleton.mp one
    | step leads edge =>
        have lengths := congrArg List.length begins
        rw [List.length_append, List.length_append] at lengths
        simp at lengths
  first joins := by
    dsimp only at joins
    rw [Array.getElem?_eq_none (Nat.le_refl _)] at joins
    cases joins

theorem exists_accepted {input : List KindId} (sentence : grammar.Sentence input) :
    ∃ last trace, table.Reaches (.initial input) last ∧ table.runStep last = .ok (.inr (.accepted trace)) := by
  have augmented : (Rules.ofGrammar grammar).due ⟨grammar.productions.size, 0⟩ =
      [.nonterminal Grammar.start] ++ [] := by
    unfold Rules.due
    rw [Rules.rhs_augmented]
    rfl
  have begun : Canonical grammar [] ⟨grammar.productions.size, 0⟩ .endOfInput := by
    refine .kernel ⟨?_, rfl⟩
    rw [Rules.augmented_ofGrammar]
  have follows : compiled.Follows [.nonterminal Grammar.start] input :=
    .of_leftNested numbered productive small uncontested (.of_derives numbered sentence)
  obtain ⟨states, position, trace, spells, reaches⟩ := follows [] [] _ _ [] [] 0 [] .start begun augmented
    calm_start (Grammar.firstOf_iff.mpr (Or.inr ⟨.refl, rfl⟩))
  rw [List.append_nil] at reaches
  have leads := spells.leads numbered
  obtain ⟨kernel, found⟩ := compiled.explored.leads_lt leads
  obtain ⟨complete, ended⟩ := begun.pass augmented
  have acts := action_reduce numbered productive uncontested found leads complete
    (Rules.nextSymbol_of_due_nil ended)
  unfold reduction at acts
  rw [if_neg (Nat.lt_irrefl _)] at acts
  exact ⟨_, _, reaches, @Table.runStep_accepted table ⟨states, [], position, trace⟩ acts⟩

end Compiled

end Lalr

/-! ### Completeness -/

/-- A table that was made without a conflict accepts every sentence of its grammar. A shift may compete with a
join of two ropes where nothing but these ropes is in the kernel; there the table joins, and it still loses
no sentence. -/
theorem Table.run_complete {declaration : Declaration} {grammar : Grammar} {table : Table}
    (normalized : declaration.normalize = .ok grammar) (compiled : Lalr.compile grammar = .ok table)
    (small : grammar.productions.size ≤ 65536) (free : Lalr.ConflictFree grammar) {input : List KindId}
    (sentence : grammar.Sentence input) :
    ∃ steps trace, ∀ fuel, steps ≤ fuel → table.runFrom fuel (.initial input) = .ok (.accepted trace) := by
  have numbered := Declaration.normalize_numbered normalized
  obtain ⟨_, _, _, _, productive, _⟩ := Declaration.normalize_ok normalized
  obtain ⟨source, made⟩ := Lalr.compile_made compiled
  obtain ⟨automaton, sets, madeToo, computed, uncontested⟩ := free
  cases made.symm.trans madeToo
  cases source.lookaheads.symm.trans computed
  obtain ⟨last, trace, reaches, stops⟩ :=
    Lalr.Compiled.exists_accepted numbered productive small uncontested sentence
  obtain ⟨steps, enough⟩ := reaches.runFrom stops
  exact ⟨steps, trace, enough⟩

/-! ### Lists -/

namespace Lists

def declaration : Declaration :=
  { Declaration.empty "lists" with
    rules := #[("list", .sequence [.literal "[", .repeated (.literal "a"), .literal "]"])] }

theorem normalizes : declaration.normalize.toOption.isSome = true := by decide +kernel

def grammar : Grammar := declaration.normalize.toOption.get normalizes

theorem compiles : (Lalr.compile grammar).toOption.isSome = true := by decide +kernel

def table : Table := (Lalr.compile grammar).toOption.get compiles

theorem explores : (Lalr.Automaton.ofRules (.ofGrammar grammar)).toOption.isSome = true := by
  obtain ⟨_, made⟩ := Lalr.compile_made (eq_ok_get compiles)
  rw [made]
  rfl

def automaton : Lalr.Automaton := (Lalr.Automaton.ofRules (.ofGrammar grammar)).toOption.get explores

theorem computes : (Lalr.lookaheads (.ofGrammar grammar) (.ofConstruction (.ofGrammar grammar))
    (.ofAutomaton automaton) automaton).toOption.isSome = true := by
  obtain ⟨source, made⟩ := Lalr.compile_made (eq_ok_get compiles)
  have same : automaton = source.automaton := Except.ok.inj ((eq_ok_get explores).symm.trans made)
  rw [same, source.lookaheads]
  rfl

theorem conflictFree : Lalr.ConflictFree grammar :=
  ⟨automaton, _, eq_ok_get explores, eq_ok_get computes, by decide +kernel⟩

def letters : NonterminalId := ⟨1⟩

theorem productions_eq : grammar.productions =
    #[⟨letters, [⟨.terminal ⟨3⟩, none, 0⟩], 0, .none, .repeatBase⟩, Flatten.joinProduction letters,
      ⟨Grammar.start, [⟨.terminal ⟨2⟩, none, 0⟩, ⟨.nonterminal letters, none, 0⟩, ⟨.terminal ⟨4⟩, none, 0⟩], 0,
        .none, .plain⟩] := by
  decide +kernel

theorem small : grammar.productions.size ≤ 65536 := by
  rw [productions_eq]
  decide

def text : List KindId := [⟨2⟩, ⟨3⟩, ⟨3⟩, ⟨3⟩, ⟨4⟩]

theorem derives_letter : grammar.Derives [.nonterminal letters] (Grammar.word [⟨3⟩]) :=
  @Grammar.derives_production grammar 0 _ (congrArg (·[0]?) productions_eq)

theorem derives_join : grammar.Derives [.nonterminal letters] [.nonterminal letters, .nonterminal letters] :=
  @Grammar.derives_production grammar 1 _ (congrArg (·[1]?) productions_eq)

theorem sentence : grammar.Sentence text := by
  have two : grammar.Derives [.nonterminal letters] (Grammar.word [⟨3⟩, ⟨3⟩]) :=
    derives_join.trans (Grammar.Derives.append derives_letter derives_letter)
  have three : grammar.Derives [.nonterminal letters] (Grammar.word [⟨3⟩, ⟨3⟩, ⟨3⟩]) :=
    derives_join.trans (Grammar.Derives.append derives_letter two)
  have bracketed : grammar.Derives [.nonterminal Grammar.start]
      [.terminal ⟨2⟩, .nonterminal letters, .terminal ⟨4⟩] :=
    @Grammar.derives_production grammar 2 _ (congrArg (·[2]?) productions_eq)
  exact bracketed.trans (Grammar.Derives.append (.refl : grammar.Derives [.terminal ⟨2⟩] _)
    (Grammar.Derives.append three (.refl : grammar.Derives [.terminal ⟨4⟩] _)))

end Lists

theorem Table.run_complete_lists : Lists.grammar.Sentence Lists.text ∧
    ∃ steps trace, ∀ fuel, steps ≤ fuel →
      Lists.table.runFrom fuel (.initial Lists.text) = .ok (.accepted trace) :=
  ⟨Lists.sentence, Table.run_complete (eq_ok_get Lists.normalizes) (eq_ok_get Lists.compiles)
    Lists.small Lists.conflictFree Lists.sentence⟩

end IncrementalParsing
