import IncrementalParsing.Grammar.Normal
import IncrementalParsing.Lalr.TerminalSet

/-!
Parse tables. A table says for every state what to do on each terminal, where to go after each
nonterminal, and which terminals the lexer should look for. States that admit the same terminals
share a lexing mode.
-/

namespace IncrementalParsing

inductive Action where
  | error
  | shift (target : StateId)
  | reduce (production : ProductionId)
  | accept
deriving DecidableEq, Repr

structure ProductionInfo where
  lhs : KindId
  symbols : List Symbol
  fields : List (Option FieldId)
  kind : ProductionKind
deriving DecidableEq, Repr

namespace ProductionInfo

def length (production : ProductionInfo) : Nat := production.symbols.length

def isEmpty (production : ProductionInfo) : Bool := production.symbols.isEmpty

end ProductionInfo

/-- What tells tables apart: the values that a table's identity is made of, in order. The names of
fields, and whether a kind is named, are not among them. -/
structure Fingerprint where
  name : String
  version : Nat
  kinds : List (String × Bool)
  productions : Array ProductionInfo
  actions : Array Action
  gotos : Array (Option StateId)
  stateModes : Array LexMode
deriving DecidableEq

/-- A compiled grammar. Actions and gotos are rows of equal length, one for each state. -/
structure Table where
  name : String
  version : Nat
  kinds : KindTable
  terminalCount : Nat
  /-- How many nonterminals are declared rules; the others are helpers of repetitions. -/
  ruleCount : Nat
  productions : Array ProductionInfo
  actions : Array Action
  gotos : Array (Option StateId)
  stateModes : Array LexMode
  lexModes : Array TerminalSet
  lexical : LexicalGrammar
  /-- How many conflicts were settled by the policy of the grammar. -/
  conflicts : Nat
deriving DecidableEq

namespace Table

def nonterminalCount (table : Table) : Nat := table.kinds.size - table.terminalCount

def stateCount (table : Table) : Nat := table.stateModes.size

def lexModeCount (table : Table) : Nat := table.lexModes.size

def isTerminal (table : Table) (kind : KindId) : Bool := kind.index < table.terminalCount

def symbol (table : Table) (kind : KindId) : Symbol :=
  if table.isTerminal kind then .terminal kind
  else .nonterminal (.ofIndex (kind.index - table.terminalCount))

def symbolKind (table : Table) : Symbol → KindId
  | .terminal kind => kind
  | .nonterminal id => .ofIndex (table.terminalCount + id.index)

/-- Hidden kinds have no node of their own in a finished tree. -/
def isHidden (table : Table) (kind : KindId) : Bool :=
  match table.kinds.kinds[kind.index]? with
  | some info => !info.visible
  | none => false

/-- Helpers of repetitions, which are kept as ropes. -/
def isRepeat (table : Table) (kind : KindId) : Bool :=
  table.terminalCount + table.ruleCount ≤ kind.index && kind.index < table.kinds.size

def action (table : Table) (state : StateId) (terminal : KindId) : Action :=
  table.actions[state.index * table.terminalCount + terminal.index]?.getD .error

def goto (table : Table) (state : StateId) (nonterminal : KindId) : Option StateId :=
  if table.isTerminal nonterminal then none
  else
    let column := nonterminal.index - table.terminalCount
    (table.gotos[state.index * table.nonterminalCount + column]?).getD none

def successor (table : Table) (state : StateId) (kind : KindId) : Option StateId :=
  if table.isTerminal kind then
    match table.action state kind with
    | .shift target => some target
    | _ => none
  else table.goto state kind

/-- The state reached from the first one by pushing symbols by their names, or the first name with
which there is no way on. -/
def stateAfter (table : Table) (names : List String) : Except String StateId :=
  names.foldlM
    (fun state name =>
      match (table.kinds.kindId? name).bind (table.successor state) with
      | some next => .ok next
      | none => .error name)
    StateId.start

def production (table : Table) (id : ProductionId) : Except Fault ProductionInfo :=
  requireAt table.productions id.index

def lexMode (table : Table) (state : StateId) : LexMode :=
  table.stateModes[state.index]?.getD .error

def modeTerminals (table : Table) (mode : LexMode) : Except Fault TerminalSet :=
  requireAt table.lexModes mode.index

/-- The terminals on which a state has something to do, in increasing order. -/
def expected (table : Table) (state : StateId) : List KindId :=
  match table.lexModes[(table.lexMode state).index]? with
  | some terminals => terminals.toList
  | none => []

def fingerprint (table : Table) : Fingerprint :=
  { name := table.name
    version := table.version
    kinds := table.kinds.kinds.toList.map (fun info => (info.name, info.visible))
    productions := table.productions
    actions := table.actions
    gotos := table.gotos
    stateModes := table.stateModes }

end Table

end IncrementalParsing
