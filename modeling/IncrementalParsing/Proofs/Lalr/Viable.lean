import IncrementalParsing.Lalr.Run
import IncrementalParsing.Proofs.Grammar.Derivation
import IncrementalParsing.Proofs.Lalr.Settling
import Mathlib.Data.List.Forall2

/-!
Plain runs of a table are sound. The states on the stack spell a sequence of symbols, and every item of
the topmost state says how that sequence goes on in a sentential form of the grammar, so that the
terminals that were shifted begin a sentence. Read backwards, the reductions derive these terminals from
the symbols on the stack; an accepted word is derived from the start nonterminal. Which of the actions
that compete in a state the table keeps does not matter for this: a table with fewer actions does less.
-/

namespace IncrementalParsing

namespace Table

variable {table : Table} {configuration after : Configuration}

/-- Steps of a run with the productions that they reduce, the first one first. -/
inductive Performs (table : Table) (first : Configuration) : List ProductionId → Configuration → Prop
  | refl : Performs table first [] first
  | shift {ids : List ProductionId} {before after : Configuration} {target : StateId} :
      Performs table first ids before → table.action before.state before.lookahead = .shift target →
      table.runStep before = .ok (.inl after) → Performs table first ids after
  | reduce {ids : List ProductionId} {before after : Configuration} {id : ProductionId} :
      Performs table first ids before → table.action before.state before.lookahead = .reduce id →
      table.runStep before = .ok (.inl after) → Performs table first (ids ++ [id]) after

/-- Which production a reduction of a run was made by. -/
def Reduces (table : Table) (id : ProductionId) (reduction : Reduction) : Prop :=
  ∃ production, table.productions[id.index]? = some production ∧ production.lhs = reduction.lhs

theorem runStep_reduces {id : ProductionId}
    (acts : table.action configuration.state configuration.lookahead = .reduce id)
    (stepped : table.runStep configuration = .ok (.inl after)) :
    ∃ production target, table.productions[id.index]? = some production ∧
      table.goto ((configuration.states.drop production.length).head?.getD .start) production.lhs =
        some target ∧
      after = { configuration with
        states := target :: configuration.states.drop production.length
        trace := ⟨production.lhs, configuration.position⟩ :: configuration.trace } := by
  unfold runStep at stepped
  rw [acts] at stepped
  obtain ⟨production, found, stepped⟩ := bind_ok.mp stepped
  split at stepped
  · cases stepped
  · dsimp only at stepped
    split at stepped
    · cases stepped
    · rename_i target goes
      cases pure_ok.mp stepped
      exact ⟨production, target, requireAt_ok.mp found, goes, rfl⟩

theorem runStep_reduced {id : ProductionId} {production : ProductionInfo} {target : StateId}
    (acts : table.action configuration.state configuration.lookahead = .reduce id)
    (found : table.productions[id.index]? = some production)
    (room : production.length ≤ configuration.states.length)
    (goes : table.goto ((configuration.states.drop production.length).head?.getD .start) production.lhs =
      some target) :
    table.runStep configuration = .ok (.inl { configuration with
      states := target :: configuration.states.drop production.length
      trace := ⟨production.lhs, configuration.position⟩ :: configuration.trace }) := by
  unfold runStep
  rw [acts]
  refine bind_ok.mpr ⟨production, requireAt_ok.mpr found, ?_⟩
  rw [if_neg (Nat.not_lt_of_le room)]
  dsimp only
  rw [goes]
  rfl

theorem runStep_next (stepped : table.runStep configuration = .ok (.inl after)) :
    (∃ target, table.action configuration.state configuration.lookahead = .shift target) ∨
      ∃ id, table.action configuration.state configuration.lookahead = .reduce id := by
  unfold runStep at stepped
  cases acts : table.action configuration.state configuration.lookahead with
  | accept =>
      rw [acts] at stepped
      cases stepped
  | error =>
      rw [acts] at stepped
      cases stepped
  | shift target => exact Or.inl ⟨target, rfl⟩
  | reduce id => exact Or.inr ⟨id, rfl⟩

theorem runStep_accepts {trace : List Reduction}
    (stops : table.runStep configuration = .ok (.inr (.accepted trace))) :
    table.action configuration.state configuration.lookahead = .accept ∧
      trace = configuration.trace.reverse := by
  unfold runStep at stops
  cases acts : table.action configuration.state configuration.lookahead with
  | accept =>
      rw [acts] at stops
      cases stops
      exact ⟨rfl, rfl⟩
  | error =>
      rw [acts] at stops
      cases stops
  | shift target =>
      rw [acts] at stops
      cases stops
  | reduce id =>
      rw [acts] at stops
      obtain ⟨production, _, stops⟩ := bind_ok.mp stops
      split at stops
      · cases stops
      · dsimp only at stops
        split at stops
        · cases stops
        · cases pure_ok.mp stops

end Table

namespace Lalr

open Grammar (word)

/-! ### Items and sentential forms -/

/-- How an item goes on from a sequence of symbols: what stands before its mark ends the sequence, and
its left-hand side may stand in the place of its right-hand side. -/
inductive Supports (grammar : Grammar) : List Symbol → Item → Prop
  | augmented (dot : Nat) :
      Supports grammar ([.nonterminal Grammar.start].take dot) ⟨grammar.productions.size, dot⟩
  | production {number dot : Nat} {production : Production} {before after : List Symbol} :
      grammar.productions[number]? = some production →
      grammar.Derives [.nonterminal Grammar.start] (before ++ .nonterminal production.lhs :: after) →
      Supports grammar (before ++ production.symbols.take dot) ⟨number, dot⟩

namespace Supports

variable {grammar : Grammar} {front : List Symbol} {item : Item}

theorem advance (supports : Supports grammar front item) {symbol : Symbol}
    (next : (Rules.ofGrammar grammar).nextSymbol item = some symbol) :
    Supports grammar (front ++ [symbol]) item.advance := by
  cases supports with
  | augmented dot =>
      rw [Rules.nextSymbol_augmented] at next
      have taken := List.take_add_one (l := [Symbol.nonterminal Grammar.start]) (i := dot)
      rw [next] at taken
      have here : Supports grammar _ _ := .augmented (dot + 1)
      rw [taken] at here
      exact here
  | @production number dot production before after found derives =>
      rw [Rules.nextSymbol_production grammar found] at next
      have taken := List.take_add_one (l := production.symbols) (i := dot)
      rw [next] at taken
      have here : Supports grammar (before ++ production.symbols.take (dot + 1)) ⟨number, dot + 1⟩ :=
        .production found derives
      rw [taken, ← List.append_assoc] at here
      exact here

theorem start (supports : Supports grammar front item) {id : NonterminalId} {number : Nat}
    (next : (Rules.ofGrammar grammar).nextSymbol item = some (.nonterminal id))
    (produced : number ∈ (Rules.ofGrammar grammar).productionsOf id) :
    Supports grammar front ⟨number, 0⟩ := by
  obtain ⟨_, begun, begunAt, rfl⟩ := (Rules.mem_productionsOf grammar).mp produced
  suffices derives : ∃ after, grammar.Derives [.nonterminal Grammar.start]
      (front ++ .nonterminal begun.lhs :: after) by
    obtain ⟨after, derives⟩ := derives
    have here : Supports grammar (front ++ begun.symbols.take 0) ⟨number, 0⟩ := .production begunAt derives
    rw [List.take_zero, List.append_nil] at here
    exact here
  cases supports with
  | augmented dot =>
      rw [Rules.nextSymbol_augmented] at next
      cases dot with
      | zero =>
          have same : Grammar.start = begun.lhs := Symbol.nonterminal.inj (Option.some.inj next)
          rw [← same]
          exact ⟨[], .refl⟩
      | succ dot => cases next
  | @production number dot production before after found derives =>
      rw [Rules.nextSymbol_production grammar found] at next
      refine ⟨production.symbols.drop (dot + 1) ++ after, derives.trans (.single ?_)⟩
      have produces := Grammar.Produces.apply before after found
      obtain ⟨inside, here⟩ := List.getElem?_eq_some_iff.mp next
      rw [← List.take_append_drop dot production.symbols, List.drop_eq_getElem_cons inside, here] at produces
      simpa only [List.append_assoc, List.cons_append] using produces

theorem extends_ (supports : Supports grammar front item) :
    ∃ rest, grammar.Derives [.nonterminal Grammar.start] (front ++ rest) := by
  cases supports with
  | augmented dot =>
      refine ⟨[Symbol.nonterminal Grammar.start].drop dot, ?_⟩
      rw [List.take_append_drop]
      exact .refl
  | @production number dot production before after found derives =>
      refine ⟨production.symbols.drop dot ++ after, derives.trans (.single ?_)⟩
      have produces := Grammar.Produces.apply before after found
      rw [← List.take_append_drop dot production.symbols] at produces
      simpa only [List.append_assoc] using produces

end Supports

namespace Compiled

variable {grammar : Grammar} {table : Table} (compiled : Compiled grammar table)

include compiled in
theorem hasKind (numbered : grammar.Numbered) {symbol : Symbol}
    (within : symbol.Within grammar.terminalCount grammar.kinds.size) :
    table.HasKind (grammar.symbolKind symbol) := by
  unfold Table.HasKind
  rw [compiled.kinds_eq]
  exact (symbolKind_has numbered within).2

inductive Spells (compiled : Compiled grammar table) : List StateId → List Symbol → Prop
  | start : Spells compiled [] []
  | push {states : List StateId} {next : StateId} {stack : List Symbol} {symbol : Symbol} :
      Spells compiled states stack → symbol.Within grammar.terminalCount grammar.kinds.size →
      table.successor (states.head?.getD .start) (grammar.symbolKind symbol) = some next →
      Spells compiled (next :: states) (symbol :: stack)

variable {compiled}

namespace Spells

variable {states : List StateId} {stack : List Symbol}

theorem length_eq (spells : compiled.Spells states stack) : states.length = stack.length := by
  induction spells with
  | start => rfl
  | push _ _ _ ih => rw [List.length_cons, List.length_cons, ih]

theorem drop (spells : compiled.Spells states stack) (count : Nat) :
    compiled.Spells (states.drop count) (stack.drop count) := by
  induction count generalizing states stack with
  | zero => exact spells
  | succ count ih =>
      cases spells with
      | start => exact .start
      | push below _ _ => exact ih below

variable (numbered : grammar.Numbered)

include numbered

theorem path (spells : compiled.Spells states stack) : table.Path (states ++ [.start]) := by
  induction spells with
  | start => exact .start
  | @push states next stack symbol below within reached ih =>
      have known := compiled.hasKind numbered within
      cases states with
      | nil => exact .step ih known reached
      | cons state rest => exact .step ih known reached

/-- Every item of the topmost state says how the symbols go on. The items of a kernel were advanced to
from the state before, those that were added have their mark where another item has a nonterminal. -/
theorem supports (spells : compiled.Spells states stack) {item : Item}
    (member : compiled.Items (states.head?.getD .start) item) : Supports grammar stack.reverse item := by
  induction spells generalizing item with
  | start =>
      obtain ⟨kernel, found, closed⟩ := member
      cases compiled.explored.first.symm.trans found
      induction closed with
      | kernel member =>
          unfold Automaton.startKernel at member
          rw [List.mem_singleton.mp member, Rules.augmented_ofGrammar]
          exact .augmented 0
      | start _ next produced ih => exact ih.start next produced
  | @push states next stack symbol below within reached ih =>
      obtain ⟨kernel, found, closed⟩ := member
      obtain ⟨source, target, passed, sourceAt, targetAt, among, same⟩ :=
        compiled.successor_kernel (compiled.hasKind numbered within) reached
      cases targetAt.symm.trans found
      rw [List.reverse_cons]
      induction closed with
      | kernel member =>
          obtain ⟨earlier, inClosure, behind, rfl⟩ := (mem_successor among _).mp member
          have equal : passed = symbol :=
            symbolKind_injective numbered (nextSymbol_within numbered behind).2 within same
          subst equal
          have before := ih ⟨source, sourceAt, (mem_closure (Rules.ofGrammar_consistent grammar)).mp inClosure⟩
          exact before.advance behind
      | start _ next produced ih => exact ih.start next produced

theorem exists_item (chart : table.Chart compiled.Items) (spells : compiled.Spells states stack) :
    ∃ item, compiled.Items (states.head?.getD .start) item := by
  cases spells with
  | start => exact ⟨_, compiled.items_start⟩
  | push _ within reached =>
      have known := compiled.hasKind numbered within
      obtain ⟨item, member, next⟩ := chart.led _ _ _ known reached
      exact ⟨_, chart.after _ _ _ _ known reached member next⟩

/-- The right-hand side of an item that is complete is on top of the stack. -/
theorem handle (spells : compiled.Spells states stack) {item : Item}
    (member : compiled.Items (states.head?.getD .start) item) (done : table.nextKind item = none)
    {production : Production} (found : grammar.productions[item.production]? = some production) :
    stack.reverse = (stack.drop production.symbols.length).reverse ++ production.symbols := by
  have supports := spells.supports numbered member
  obtain ⟨before, stackEq⟩ : ∃ before, stack.reverse = before ++ production.symbols := by
    generalize stack.reverse = front at supports
    cases supports with
    | augmented dot =>
        dsimp only at found
        rw [Array.getElem?_eq_none (Nat.le_refl _)] at found
        cases found
    | @production number dot begun before after begunAt _ =>
        cases found.symm.trans begunAt
        have complete : production.symbols.length ≤ dot := by
          unfold Table.nextKind at done
          dsimp only at done
          rw [compiled.rhs_production found, List.getElem?_eq_none_iff, List.length_map] at done
          exact done
        exact ⟨before, by rw [List.take_of_length_le complete]⟩
  have left : stack = production.symbols.reverse ++ before.reverse := by
    rw [← List.reverse_append, ← stackEq, List.reverse_reverse]
  have below : stack.drop production.symbols.length = before.reverse := by
    rw [left, ← List.length_reverse, List.drop_left]
  rw [below, List.reverse_reverse, stackEq]

end Spells

/-! ### Runs -/

variable (compiled) in
/-- What is known of a run after some reductions: which terminals are consumed, that the symbols on the
stack derive them by these reductions, and that the reductions were noted. -/
structure Derived (input : List KindId) (ids : List ProductionId) (configuration : Table.Configuration) :
    Prop where
  exists_stack : ∃ stack, compiled.Spells configuration.states stack ∧
    grammar.Rightmost (ids.reverse.map (·.index)) stack.reverse (word (input.take configuration.position))
  input_eq : input.take configuration.position ++ configuration.input = input
  trace : List.Forall₂ table.Reduces ids configuration.trace.reverse

section Runs

variable (numbered : grammar.Numbered) (small : grammar.productions.size ≤ 65536)
  {input : List KindId} (terminals : ∀ kind, kind ∈ input → table.isTerminal kind = true ∧ kind ≠ .endOfInput)
  {ids : List ProductionId} {configuration after : Table.Configuration}

theorem Derived.initial (input : List KindId) : compiled.Derived input [] (.initial input) :=
  ⟨⟨[], .start, .refl _⟩, rfl, .nil⟩

include numbered terminals in
theorem Derived.isTerminal_lookahead (derived : compiled.Derived input ids configuration) :
    table.isTerminal configuration.lookahead = true := by
  have consumed := derived.input_eq
  unfold Table.Configuration.lookahead
  cases coming : configuration.input with
  | nil =>
      have reserved := numbered.reserved
      rw [← compiled.terminalCount_eq] at reserved
      exact decide_eq_true (show (0 : Nat) < table.terminalCount by omega)
  | cons kind rest =>
      rw [coming] at consumed
      exact (terminals kind (consumed ▸ List.mem_append_right _ List.mem_cons_self)).1

include numbered terminals in
theorem Derived.shift (derived : compiled.Derived input ids configuration) {target : StateId}
    (acts : table.action configuration.state configuration.lookahead = .shift target)
    (stepped : table.runStep configuration = .ok (.inl after)) : compiled.Derived input ids after := by
  have isTerminal := derived.isTerminal_lookahead numbered terminals
  have proper := (compile_endsOnce numbered compiled).shifts _ _ _ isTerminal acts
  unfold Table.runStep at stepped
  rw [acts] at stepped
  cases stepped
  obtain ⟨⟨stack, spells, rightmost⟩, consumed, trace⟩ := derived
  obtain ⟨kind, rest, coming⟩ : ∃ kind rest, configuration.input = kind :: rest := by
    cases coming : configuration.input with
    | nil =>
        unfold Table.Configuration.lookahead at proper
        rw [coming] at proper
        exact absurd proper (by decide)
    | cons kind rest => exact ⟨kind, rest, rfl⟩
  have lookahead : configuration.lookahead = kind := by
    unfold Table.Configuration.lookahead
    rw [coming]
    rfl
  rw [lookahead] at isTerminal acts proper
  have ahead : input[configuration.position]? = some kind := by
    have dropped : input.drop configuration.position = kind :: rest := by
      rw [← coming]
      exact List.append_cancel_left ((List.take_append_drop _ _).trans consumed.symm)
    have first := congrArg (fun items : List KindId => items[0]?) dropped
    rw [List.getElem?_drop] at first
    exact first
  have taken : input.take (configuration.position + 1) = input.take configuration.position ++ [kind] := by
    rw [List.take_add_one, ahead]
    rfl
  refine ⟨⟨.terminal kind :: stack, ?_, ?_⟩, ?_, trace⟩
  · refine .push spells ⟨proper, compiled.terminal_lt isTerminal⟩ ?_
    change table.successor configuration.state kind = some target
    unfold Table.successor
    rw [if_pos isTerminal, acts]
  · rw [List.reverse_cons]
    change grammar.Rightmost _ _ (word (input.take (configuration.position + 1)))
    rw [taken, Grammar.word_append]
    exact rightmost.append_word [kind]
  · change input.take (configuration.position + 1) ++ configuration.input.drop 1 = input
    rw [taken, coming, List.append_assoc]
    rw [coming] at consumed
    exact consumed

include numbered small terminals in
theorem Derived.reduce (derived : compiled.Derived input ids configuration) {id : ProductionId}
    (acts : table.action configuration.state configuration.lookahead = .reduce id)
    (stepped : table.runStep configuration = .ok (.inl after)) :
    compiled.Derived input (ids ++ [id]) after := by
  have isTerminal := derived.isTerminal_lookahead numbered terminals
  obtain ⟨item, info, member, number, done, infoAt⟩ :=
    (compile_chart numbered compiled small).reduces _ _ _ isTerminal acts
  obtain ⟨production, found, rfl, shaped⟩ := compiled.production_info numbered infoAt
  obtain ⟨known, target, knownAt, goes, rfl⟩ := Table.runStep_reduces acts stepped
  cases infoAt.symm.trans knownAt
  obtain ⟨⟨stack, spells, rightmost⟩, consumed, trace⟩ := derived
  have handle := spells.handle numbered member done (number ▸ found)
  refine ⟨⟨.nonterminal production.lhs :: stack.drop production.symbols.length, ?_, ?_⟩, consumed, ?_⟩
  · refine .push (spells.drop _) shaped.lhs_lt ?_
    have lhs := (compile_numbered numbered compiled).lhs _ (Array.mem_of_getElem? infoAt)
    unfold Table.successor
    change (if table.isTerminal (productionInfo grammar production).lhs = true then _ else
      table.goto _ (productionInfo grammar production).lhs) = _
    rw [lhs.1]
    exact goes
  · rw [handle, ← List.append_nil (_ ++ _)] at rightmost
    rw [List.reverse_append, List.reverse_singleton, List.reverse_cons]
    exact @Grammar.Rightmost.step _ _ _ _ _ [] _ found rightmost
  · rw [List.reverse_cons]
    exact List.rel_append trace (.cons ⟨_, infoAt, rfl⟩ .nil)

include numbered small terminals

theorem Derived.of_performs (performs : table.Performs (.initial input) ids configuration) :
    compiled.Derived input ids configuration := by
  induction performs with
  | refl => exact .initial input
  | shift _ acts stepped ih => exact ih.shift numbered terminals acts stepped
  | reduce _ acts stepped ih => exact ih.reduce numbered small terminals acts stepped

/-- A run never goes wrong: what it reduces is on its stack. -/
theorem Derived.runStep_total (derived : compiled.Derived input ids configuration) :
    ∃ answer, table.runStep configuration = .ok answer := by
  have isTerminal := derived.isTerminal_lookahead numbered terminals
  obtain ⟨⟨stack, spells, _⟩, _, _⟩ := derived
  have path := spells.path numbered
  cases acts : table.action configuration.state configuration.lookahead with
  | accept =>
      unfold Table.runStep
      rw [acts]
      exact ⟨_, rfl⟩
  | error =>
      unfold Table.runStep
      rw [acts]
      exact ⟨_, rfl⟩
  | shift target =>
      unfold Table.runStep
      rw [acts]
      exact ⟨_, rfl⟩
  | reduce id =>
      have topAction : table.actionOn configuration.lookahead (configuration.states ++ [.start]) =
          .reduce id := by
        rw [← acts]
        unfold Table.actionOn Table.Configuration.state
        cases configuration.states <;> rfl
      obtain ⟨production, top, below, target, found, left, goes, _⟩ := path.reduces
        (compile_numbered numbered compiled) (compile_chart numbered compiled small) isTerminal topAction
      have room : production.length ≤ configuration.states.length := by
        have length := congrArg List.length left
        rw [List.length_drop, List.length_append, List.length_singleton, List.length_cons] at length
        omega
      rw [List.drop_append_of_le_length room] at left
      have topEq : (configuration.states.drop production.length).head?.getD .start = top := by
        cases states : configuration.states.drop production.length with
        | nil =>
            rw [states] at left
            exact (List.cons.inj left).1
        | cons state rest =>
            rw [states] at left
            exact (List.cons.inj left).1
      exact ⟨_, Table.runStep_reduced acts found room (topEq ▸ goes)⟩

omit terminals in
theorem Derived.exists_sentence (productive : grammar.unproductive? = none)
    (derived : compiled.Derived input ids configuration) :
    ∃ others, grammar.Sentence (input.take configuration.position ++ others) := by
  obtain ⟨⟨stack, spells, rightmost⟩, _, _⟩ := derived
  obtain ⟨item, member⟩ := spells.exists_item numbered (compile_chart numbered compiled small)
  obtain ⟨rest, extended⟩ := (spells.supports numbered member).extends_
  exact Grammar.exists_sentence numbered productive extended rightmost.derives

theorem Derived.accepted (derived : compiled.Derived input ids configuration) {trace : List Table.Reduction}
    (stops : table.runStep configuration = .ok (.inr (.accepted trace))) :
    configuration.input = [] ∧ trace = configuration.trace.reverse ∧
      grammar.Rightmost (ids.reverse.map (·.index)) [.nonterminal Grammar.start] (word input) := by
  have isTerminal := derived.isTerminal_lookahead numbered terminals
  obtain ⟨⟨stack, spells, rightmost⟩, consumed, _⟩ := derived
  obtain ⟨acts, rfl⟩ := Table.runStep_accepts stops
  obtain ⟨ended, member⟩ := (compile_chart numbered compiled small).accepts _ _ isTerminal acts
  have empty : configuration.input = [] := by
    cases coming : configuration.input with
    | nil => rfl
    | cons kind rest =>
        unfold Table.Configuration.lookahead at ended
        rw [coming] at ended consumed
        have among : kind ∈ input := consumed ▸ List.mem_append_right _ List.mem_cons_self
        exact absurd ended (terminals kind among).2
  refine ⟨empty, rfl, ?_⟩
  rw [empty, List.append_nil] at consumed
  rw [consumed] at rightmost
  have supports := spells.supports numbered member
  rw [compiled.productions_size] at supports
  generalize stack.reverse = front at supports rightmost
  cases supports with
  | augmented => exact rightmost
  | production found _ =>
      rw [Array.getElem?_eq_none (Nat.le_refl _)] at found
      cases found

end Runs

end Compiled

end Lalr

namespace Table

theorem runFrom_performs {table : Table} {first : Configuration} {verdict : Verdict} (fuel : Nat) :
    ∀ {ids : List ProductionId} {configuration : Configuration}, table.Performs first ids configuration →
      table.runFrom fuel configuration = .ok verdict →
      ∃ ids last, table.Performs first ids last ∧ table.runStep last = .ok (.inr verdict) := by
  induction fuel with
  | zero => exact fun _ impossible => nomatch impossible
  | succ fuel ih =>
      intro ids configuration performs done
      obtain ⟨answer, stepped, done⟩ := bind_ok.mp done
      cases answer with
      | inl after =>
          rcases runStep_next stepped with ⟨target, acts⟩ | ⟨id, acts⟩
          · exact ih (.shift performs acts stepped) done
          · exact ih (.reduce performs acts stepped) done
      | inr last =>
          cases pure_ok.mp done
          exact ⟨ids, configuration, performs, stepped⟩

/-- Plain runs are sound. At every point of a run over some terminals those that were consumed begin a
sentence of the normal form, and the run goes on or ends with a verdict. If it accepts, all of them were
consumed, they are a sentence, and the reductions read backwards are a rightmost derivation of it. -/
theorem run_sound {declaration : Declaration} {grammar : Grammar} {table : Table}
    (normalized : declaration.normalize = .ok grammar) (compiled : Lalr.compile grammar = .ok table)
    (small : grammar.productions.size ≤ 65536) {input : List KindId}
    (terminals : ∀ kind, kind ∈ input → table.isTerminal kind = true ∧ kind ≠ .endOfInput) :
    (∀ ids configuration, table.Performs (.initial input) ids configuration →
      input.take configuration.position ++ configuration.input = input ∧
        (∃ others, grammar.Sentence (input.take configuration.position ++ others)) ∧
        ∃ answer, table.runStep configuration = .ok answer ∧
          ∀ trace, answer = .inr (.accepted trace) →
            configuration.input = [] ∧ grammar.Sentence input ∧
              grammar.Rightmost (ids.reverse.map (·.index)) [.nonterminal Grammar.start]
                (Grammar.word input)) ∧
      ∀ trace, table.run input = .ok (.accepted trace) →
        grammar.Sentence input ∧ ∃ ids, List.Forall₂ table.Reduces ids trace ∧
          grammar.Rightmost (ids.reverse.map (·.index)) [.nonterminal Grammar.start]
            (Grammar.word input) := by
  have numbered := Declaration.normalize_numbered normalized
  obtain ⟨_, _, _, _, productive, _⟩ := Declaration.normalize_ok normalized
  obtain ⟨details⟩ := Lalr.compile_ok compiled
  constructor
  · intro ids configuration performs
    have derived : details.Derived input ids _ := .of_performs numbered small terminals performs
    obtain ⟨answer, stepped⟩ := derived.runStep_total numbered small terminals
    refine ⟨derived.input_eq, derived.exists_sentence numbered small productive, answer, stepped, ?_⟩
    rintro trace rfl
    obtain ⟨empty, _, rightmost⟩ := derived.accepted numbered small terminals stepped
    exact ⟨empty, rightmost.derives, rightmost⟩
  · intro trace done
    obtain ⟨ids, last, performs, stops⟩ := runFrom_performs _ .refl done
    have derived : details.Derived input ids _ := .of_performs numbered small terminals performs
    obtain ⟨_, rfl, rightmost⟩ := derived.accepted numbered small terminals stops
    exact ⟨rightmost.derives, ids, derived.trace, rightmost⟩

end Table

/-! ### Sums -/

namespace Sums

/-- Sums of numbers. That they begin with the leftmost operands is settled by associativity. -/
def declaration : Declaration :=
  { Declaration.empty "sums" with
    rules := #[("sum",
      .choice
        [.precedence 0 .left (.sequence [.symbol "sum", .literal "+", .symbol "sum"]), .literal "n"])] }

theorem normalizes : declaration.normalize.toOption.isSome = true := by decide +kernel

def grammar : Grammar := declaration.normalize.toOption.get normalizes

theorem compiles : (Lalr.compile grammar).toOption.isSome = true := by decide +kernel

def table : Table := (Lalr.compile grammar).toOption.get compiles

def text : List KindId := [⟨3⟩, ⟨2⟩, ⟨3⟩]

def trace : List Table.Reduction := [⟨⟨4⟩, 1⟩, ⟨⟨4⟩, 3⟩, ⟨⟨4⟩, 3⟩]

theorem small_terminals : grammar.productions.size ≤ 65536 ∧
    ∀ kind, kind ∈ text → table.isTerminal kind = true ∧ kind ≠ .endOfInput := by
  decide +kernel

theorem run_eq : table.run text = .ok (.accepted trace) := eq_ok_of_toOption (by decide +kernel)

end Sums

theorem Table.run_sound_sums : Sums.grammar.Sentence Sums.text ∧
    ∃ ids, List.Forall₂ Sums.table.Reduces ids Sums.trace ∧
      Sums.grammar.Rightmost (ids.reverse.map (·.index)) [.nonterminal Grammar.start]
        (Grammar.word Sums.text) :=
  (Table.run_sound (eq_ok_get Sums.normalizes) (eq_ok_get Sums.compiles) Sums.small_terminals.1
    Sums.small_terminals.2).2 Sums.trace Sums.run_eq

end IncrementalParsing
