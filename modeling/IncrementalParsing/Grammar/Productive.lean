import IncrementalParsing.Grammar.Normal
import IncrementalParsing.Saturation

/-!
Productive nonterminals: those from which some sequence of terminals can be derived.
-/

namespace IncrementalParsing.Grammar

/-- Whether every nonterminal of a right-hand side is already known to be productive. -/
def derivesFrom (known : Array Bool) (production : Production) : Bool :=
  production.steps.all fun step =>
    match step.symbol with
    | .terminal _ => true
    | .nonterminal id => known[id.index]?.getD false

/-- Applies all productions once and answers whether a nonterminal was found. -/
def productiveRound (productions : Array Production) (known : Array Bool) : Array Bool × Bool :=
  productions.foldl
    (fun (known, changed) production =>
      if known[production.lhs.index]?.getD false then (known, changed)
      else if derivesFrom known production then
        (known.setIfInBounds production.lhs.index true, true)
      else (known, changed))
    (known, false)

def productive (grammar : Grammar) : Array Bool :=
  saturate (productiveRound grammar.productions) (grammar.nonterminalCount + 1)
    (Array.replicate grammar.nonterminalCount false)

def unproductive? (grammar : Grammar) : Option NonterminalId :=
  (grammar.productive.findIdx? (!·)).map .ofIndex

end IncrementalParsing.Grammar
