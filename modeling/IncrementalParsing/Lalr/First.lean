import IncrementalParsing.Grammar.Normal
import IncrementalParsing.Lalr.TerminalSet
import IncrementalParsing.Saturation

/-!
Nullable nonterminals and FIRST sets. A nonterminal is nullable when it derives the empty sequence;
its FIRST set holds the terminals that a sequence derived from it can begin with. Both are saturated
together, production by production.
-/

namespace IncrementalParsing.Lalr

structure FirstSets where
  nullable : Array Bool
  first : Array TerminalSet

namespace FirstSets

def isNullable (sets : FirstSets) (id : NonterminalId) : Bool := sets.nullable[id.index]?.getD false

def ofNonterminal (sets : FirstSets) (id : NonterminalId) : TerminalSet :=
  sets.first[id.index]?.getD (.withCapacity 0)

def addTerminal (sets : FirstSets) (id : NonterminalId) (kind : KindId) : FirstSets :=
  { sets with first := sets.first.modify id.index (·.add kind) }

def addAll (sets : FirstSets) (id : NonterminalId) (members : TerminalSet) : FirstSets :=
  { sets with first := sets.first.modify id.index (·.union members) }

def markNullable (sets : FirstSets) (id : NonterminalId) : FirstSets :=
  { sets with nullable := sets.nullable.setIfInBounds id.index true }

/-- Adds what a right-hand side of `lhs` contributes, up to its first symbol that is not nullable,
and answers whether that is news. -/
def contribute (lhs : NonterminalId) (sets : FirstSets) (changed : Bool) :
    List Symbol → FirstSets × Bool
  | [] =>
      if sets.isNullable lhs then (sets, changed) else (sets.markNullable lhs, true)
  | .terminal kind :: _ =>
      if (sets.ofNonterminal lhs).contains kind then (sets, changed)
      else (sets.addTerminal lhs kind, true)
  | .nonterminal id :: rest =>
      let members := sets.ofNonterminal id
      let grows := ((sets.ofNonterminal lhs).unionGrew members).2
      let next := if grows then sets.addAll lhs members else sets
      if next.isNullable id then contribute lhs next (changed || grows) rest
      else (next, changed || grows)

def round (productions : Array Production) (sets : FirstSets) : FirstSets × Bool :=
  productions.foldl
    (fun (sets, changed) production => contribute production.lhs sets changed production.symbols)
    (sets, false)

/-- Nothing known yet. One place beyond the terminals is kept free in every set. -/
def initial (grammar : Grammar) : FirstSets :=
  ⟨Array.replicate grammar.nonterminalCount false,
    Array.replicate grammar.nonterminalCount (.withCapacity (grammar.terminalCount + 1))⟩

/-- The sets of a grammar. Each round but the last finds a nullable nonterminal or a member. -/
def ofGrammar (grammar : Grammar) : FirstSets :=
  saturate (round grammar.productions)
    (grammar.nonterminalCount * (grammar.terminalCount + 2) + 1) (initial grammar)

/-- The terminals that a sequence of symbols can begin with, or those of `tail` as well if all of
the symbols are nullable. -/
def ofSymbols (sets : FirstSets) (tail : TerminalSet) : List Symbol → TerminalSet
  | [] => tail
  | .terminal kind :: _ => (TerminalSet.withCapacity (64 * tail.slots)).add kind
  | .nonterminal id :: rest =>
      let members := (TerminalSet.withCapacity (64 * tail.slots)).union (sets.ofNonterminal id)
      if sets.isNullable id then members.union (sets.ofSymbols tail rest) else members

end FirstSets

end IncrementalParsing.Lalr
