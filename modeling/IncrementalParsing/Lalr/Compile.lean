import IncrementalParsing.Grammar.Normalize
import IncrementalParsing.Lalr.Actions

/-!
Compilation of a grammar into its table: the automaton, the lookaheads of its kernel items, a row of
actions and gotos for each state, and a lexing mode for each set of admitted terminals.
-/

namespace IncrementalParsing.Lalr

/-- Lexing modes in the order of their numbers. The first mode is that of recovery and belongs to no
state, even if a state admits the same terminals. -/
structure Modes where
  sets : Array TerminalSet
  ofStates : Array LexMode

namespace Modes

def recovery (grammar : Grammar) : TerminalSet :=
  (List.range grammar.terminalCount).foldl
    (fun set index =>
      let kind := KindId.ofIndex index
      if kind == .error || grammar.lexical.externals.contains kind then set else set.add kind)
    (.withCapacity grammar.terminalCount)

def admitted (row : Array Action) : TerminalSet :=
  row.zipIdx.foldl
    (fun set entry => if entry.1 = .error then set else set.add (.ofIndex entry.2))
    (.withCapacity row.size)

def number? (modes : Modes) (terminals : TerminalSet) : Option LexMode :=
  ((modes.sets.toList.drop 1).findIdx? (· == terminals)).map (fun place => .ofIndex (place + 1))

/-- Gives the next state the mode of the terminals that it admits. Modes are numbered with
16 bits. -/
def assign (modes : Modes) (row : Array Action) : Except Fault Modes :=
  let terminals := admitted row
  match modes.number? terminals with
  | some mode => .ok { modes with ofStates := modes.ofStates.push mode }
  | none =>
      if (modes.sets.size + 1) % 65536 = 0 then .error .arithmeticOverflow
      else
        .ok ⟨modes.sets.push terminals, modes.ofStates.push (.ofIndex modes.sets.size)⟩

end Modes

def kernelWithLookaheads (placement : Placement) (sets : Array TerminalSet) (automaton : Automaton)
    (state : Nat) : List (Item × TerminalSet) :=
  (automaton.kernels[state]?.getD []).zipIdx.map fun entry =>
    (entry.1, sets[placement.base state + entry.2]?.getD (.withCapacity 0))

/-- The actions of every state, one row after another. A conflict in an earlier state is reported
before one in a later state. -/
def actionRows (grammar : Grammar) (construction : Construction) (closures : Closures)
    (placement : Placement) (sets : Array TerminalSet) (automaton : Automaton) :
    Except (Failure ConfigurationError) (Array SettledRow) :=
  (Array.range automaton.kernels.size).mapM fun state =>
    let kernel := kernelWithLookaheads placement sets automaton state
    actionRow grammar state (claimsOf grammar construction closures kernel)
      (automaton.edgesOf state)

def productionInfo (grammar : Grammar) (production : Production) : ProductionInfo :=
  { lhs := grammar.symbolKind (.nonterminal production.lhs)
    symbols := production.symbols
    fields := production.steps.map (·.field)
    kind := production.kind }

def compile (grammar : Grammar) : Except (Failure ConfigurationError) Table := do
  let construction := Construction.ofGrammar grammar
  let automaton ←
    match Automaton.ofRules construction.rules with
    | .ok automaton => pure automaton
    | .error reason => refuse reason
  let closures := Closures.ofConstruction construction
  let placement := Placement.ofAutomaton automaton
  let sets ← lookaheads construction closures placement automaton
  let rows ← actionRows grammar construction closures placement sets automaton
  let modes ← rows.foldlM (fun modes row => modes.assign row.actions)
    (⟨#[Modes.recovery grammar], #[]⟩ : Modes)
  return {
    name := grammar.name
    version := grammar.version
    kinds := grammar.kinds
    terminalCount := grammar.terminalCount
    ruleCount := grammar.ruleCount
    productions := grammar.productions.map (productionInfo grammar)
    actions := rows.foldl (fun actions row => actions ++ row.actions) #[]
    gotos := (Array.range automaton.kernels.size).foldl
      (fun gotos state =>
        gotos ++ gotoRow grammar.nonterminalCount (automaton.edgesOf state)) #[]
    stateModes := modes.ofStates
    lexModes := modes.sets
    lexical := grammar.lexical
    conflicts := sumOf (rows.toList.map (·.conflicts)) }

end IncrementalParsing.Lalr

namespace IncrementalParsing

def Declaration.compile (declaration : Declaration) :
    Except (Failure ConfigurationError) Table := do
  let grammar ← declaration.normalize
  Lalr.compile grammar

end IncrementalParsing
