import IncrementalParsing.Kind
import IncrementalParsing.Grammar.Declaration

/-!
Grammars in normal form. A grammar is a list of productions over numbered symbols. Nonterminals are
numbered from zero: the declared rules come first, in their order, and the helpers of repetitions
follow. The kind of a nonterminal is its number plus the number of terminals.
-/

namespace IncrementalParsing

structure NonterminalId where
  raw : UInt16
deriving DecidableEq, Hashable, Repr

namespace NonterminalId

def index (id : NonterminalId) : Nat := id.raw.toNat

def ofIndex (index : Nat) : NonterminalId := ⟨index.toUInt16⟩

end NonterminalId

structure ProductionId where
  raw : UInt16
deriving DecidableEq, Hashable, Repr

namespace ProductionId

def index (id : ProductionId) : Nat := id.raw.toNat

def ofIndex (index : Nat) : ProductionId := ⟨index.toUInt16⟩

end ProductionId

inductive Symbol where
  | terminal (kind : KindId)
  | nonterminal (id : NonterminalId)
deriving DecidableEq, Hashable, Repr

inductive ProductionKind where
  | plain
  /-- The elements of one repetition, which become a rope of their own. -/
  | repeatBase
  /-- Two ropes of one repetition, which are concatenated. -/
  | repeatJoin
deriving DecidableEq, Hashable, Repr

/-- One symbol of a right-hand side with its label and the precedence in force there. -/
structure Step where
  symbol : Symbol
  field : Option FieldId
  precedence : Int
deriving DecidableEq, Repr

structure Production where
  lhs : NonterminalId
  steps : List Step
  /-- The precedence in force at the end of the production. -/
  precedence : Int
  assoc : Assoc
  kind : ProductionKind
deriving DecidableEq, Repr

def Production.symbols (production : Production) : List Symbol := production.steps.map (·.symbol)

structure LexicalGrammar where
  literals : Array (String × KindId)
  tokens : Array KindId
  externals : Array KindId
  word : Option KindId
deriving DecidableEq, Repr

structure Grammar where
  name : String
  version : Nat
  kinds : KindTable
  terminalCount : Nat
  /-- How many nonterminals are declared rules; the others are helpers of repetitions. -/
  ruleCount : Nat
  productions : Array Production
  lexical : LexicalGrammar
  policy : ConflictPolicy

namespace Grammar

def nonterminalCount (grammar : Grammar) : Nat := grammar.kinds.size - grammar.terminalCount

def start : NonterminalId := ⟨0⟩

def symbolKind (grammar : Grammar) : Symbol → KindId
  | .terminal kind => kind
  | .nonterminal id => .ofIndex (grammar.terminalCount + id.index)

def symbolName (grammar : Grammar) (symbol : Symbol) : String :=
  grammar.kinds.name (grammar.symbolKind symbol)

end Grammar

end IncrementalParsing
