import IncrementalParsing.Grammar.Error
import IncrementalParsing.Grammar.Normal

/-!
The LR(0) automaton. An item is a production with a mark in its right-hand side. A state is given by
its kernel, the items that lead into it; the closure adds the beginnings of every nonterminal that
stands behind a mark. States are numbered in the order in which they are met, and the edges of a
state in the order in which its closure brings up their symbols.
-/

namespace IncrementalParsing.Lalr

structure Item where
  production : Nat
  dot : Nat
deriving DecidableEq, Hashable, Repr

namespace Item

def advance (item : Item) : Item := { item with dot := item.dot + 1 }

def before (left right : Item) : Bool :=
  left.production < right.production
    || (left.production == right.production && left.dot < right.dot)

end Item

/-- The productions of a grammar as the construction looks them up. The augmented production, whose
right-hand side is the start nonterminal alone, has the number after the last one. -/
structure Rules where
  rhs : Array (Array Symbol)
  byLhs : Array (List Nat)
  /-- For each nonterminal the nonterminals that its right-hand sides begin with, in order. -/
  leading : Array (List NonterminalId)

namespace Rules

def leadingOf (rhs : Array Symbol) : Option NonterminalId :=
  match (rhs[0]? : Option Symbol) with
  | some (.nonterminal id) => some id
  | _ => none

def ofGrammar (grammar : Grammar) : Rules :=
  let rhs := grammar.productions.map (fun production => production.symbols.toArray)
  let byLhs := (grammar.productions.zipIdx.foldr
    (fun (production, index) lists => lists.modify production.lhs.index (index :: ·))
    (Array.replicate grammar.nonterminalCount []))
  { rhs := rhs.push #[.nonterminal Grammar.start]
    byLhs
    leading := byLhs.map (fun productions =>
      productions.filterMap (fun index => leadingOf (rhs[index]?.getD #[]))) }

def augmented (rules : Rules) : Nat := rules.rhs.size - 1

def nextSymbol (rules : Rules) (item : Item) : Option Symbol :=
  (rules.rhs[item.production]?.getD #[])[item.dot]?

def rest (rules : Rules) (item : Item) : List Symbol :=
  (rules.rhs[item.production]?.getD #[]).toList.drop (item.dot + 1)

def productionsOf (rules : Rules) (id : NonterminalId) : List Nat :=
  rules.byLhs[id.index]?.getD []

def leadingIn (rules : Rules) (id : NonterminalId) : List NonterminalId :=
  rules.leading[id.index]?.getD []

/-- The items with the mark at the beginning of a right-hand side of `id`. -/
def startsOf (rules : Rules) (id : NonterminalId) : List Item :=
  (rules.productionsOf id).map (⟨·, 0⟩)

end Rules

structure Visited where
  order : Array NonterminalId
  seen : Array Bool

namespace Visited

def visit (visited : Visited) (id : NonterminalId) : Visited :=
  if visited.seen[id.index]?.getD true then visited
  else ⟨visited.order.push id, visited.seen.setIfInBounds id.index true⟩

/-- Visits what the right-hand sides of each visited nonterminal begin with, from the one at `index`
on, for at most `rounds` nonterminals. -/
def follow (rules : Rules) : Nat → Nat → Visited → Visited
  | 0, _, visited => visited
  | rounds + 1, index, visited =>
      match visited.order[index]? with
      | none => visited
      | some id => follow rules rounds (index + 1) ((rules.leadingIn id).foldl visit visited)

end Visited

/-- The nonterminals that stand behind a mark in the closure of some items, in the order in which
the closure meets them. -/
def entered (rules : Rules) (items : List Item) : List NonterminalId :=
  let initial : Visited := ⟨#[], Array.replicate rules.byLhs.size false⟩
  let seeds := items.filterMap fun item =>
    match rules.nextSymbol item with
    | some (.nonterminal id) => some id
    | _ => none
  (Visited.follow rules rules.byLhs.size 0 (seeds.foldl Visited.visit initial)).order.toList

def closure (rules : Rules) (kernel : List Item) : List Item :=
  kernel ++ (entered rules kernel).flatMap rules.startsOf

def insertItem (item : Item) : List Item → List Item
  | [] => [item]
  | first :: rest =>
      if item = first then first :: rest
      else if first.before item then first :: insertItem item rest
      else item :: first :: rest

def orderItems (items : List Item) : List Item := items.foldr insertItem []

/-- Items grouped by a symbol, the groups in the order of their first items. -/
abbrev Groups := List (Symbol × List Item)

def Groups.add (symbol : Symbol) (item : Item) : Groups → Groups
  | [] => [(symbol, [item])]
  | (other, items) :: rest =>
      if other = symbol then (other, item :: items) :: rest
      else (other, items) :: Groups.add symbol item rest

def advances (rules : Rules) (items : List Item) : Groups :=
  items.foldl
    (fun groups item =>
      match rules.nextSymbol item with
      | some symbol => groups.add symbol item.advance
      | none => groups)
    []

def successors (rules : Rules) (kernel : List Item) : List (Symbol × List Item) :=
  (advances rules (closure rules kernel)).map (fun entry => (entry.1, orderItems entry.2))

/-- The states met so far, each at its number, and the edges of those that are done. -/
structure Automaton where
  kernels : Array (List Item)
  edges : Array (List (Symbol × Nat))

namespace Automaton

/-- States are numbered with 16 bits, and the last number means that there is none. -/
def stateLimit : Nat := 65535

def number (automaton : Automaton) (kernel : List Item) :
    Except ConfigurationError (Nat × Automaton) :=
  match automaton.kernels.findIdx? (· == kernel) with
  | some state => .ok (state, automaton)
  | none =>
      let state := automaton.kernels.size
      if state ≥ stateLimit then
        .error (.tooMany .states stateLimit)
      else
        .ok (state, { automaton with kernels := automaton.kernels.push kernel })

def connect : List (Symbol × List Item) → List (Symbol × Nat) → Automaton →
    Except ConfigurationError Automaton
  | [], edges, automaton => .ok { automaton with edges := automaton.edges.push edges.reverse }
  | (symbol, kernel) :: rest, edges, automaton => do
      let (target, next) ← automaton.number kernel
      connect rest ((symbol, target) :: edges) next

/-- Gives edges to the states from `state` on, for at most `rounds` states. -/
def explore (rules : Rules) : Nat → Nat → Automaton → Except ConfigurationError Automaton
  | 0, _, automaton => .ok automaton
  | rounds + 1, state, automaton =>
      match automaton.kernels[state]? with
      | none => .ok automaton
      | some kernel => do
          let next ← connect (successors rules kernel) [] automaton
          explore rules rounds (state + 1) next

def startKernel (rules : Rules) : List Item := [⟨rules.augmented, 0⟩]

def ofRules (rules : Rules) : Except ConfigurationError Automaton :=
  explore rules (stateLimit + 1) 0 ⟨#[startKernel rules], #[]⟩

def edgesOf (automaton : Automaton) (state : Nat) : List (Symbol × Nat) :=
  automaton.edges[state]?.getD []

end Automaton

end IncrementalParsing.Lalr
