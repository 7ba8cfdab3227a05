import IncrementalParsing.Lalr.Automaton
import IncrementalParsing.Lalr.First

/-!
Lookaheads. Each kernel item is closed on its own, under a placeholder terminal that stands for
whatever may follow the item. Terminals that turn up in the lookahead of a closed item arise
spontaneously; where the placeholder survives, the lookaheads of the kernel item flow on to the item
that the closed one advances to. The lookaheads of all kernel items are the least sets that contain
the spontaneous ones and are closed under the flow.
-/

namespace IncrementalParsing.Lalr

structure Construction where
  rules : Rules
  first : FirstSets
  terminalCount : Nat

namespace Construction

def ofGrammar (grammar : Grammar) : Construction :=
  ⟨.ofGrammar grammar, .ofGrammar grammar, grammar.terminalCount⟩

/-- The placeholder terminal: the first number that no terminal has. -/
def marker (construction : Construction) : KindId := .ofIndex construction.terminalCount

def emptySet (construction : Construction) : TerminalSet :=
  .withCapacity (construction.terminalCount + 1)

def markerSet (construction : Construction) : TerminalSet :=
  construction.emptySet.add construction.marker

/-- For each nonterminal its lookaheads where it stands behind a mark. -/
abbrev Behind := Array TerminalSet

def lookaheadOf (construction : Construction) (behind : Behind) (id : NonterminalId) :
    TerminalSet :=
  behind[id.index]?.getD construction.emptySet

/-- Adds lookaheads of a nonterminal and answers whether they are news. -/
def addBehind (construction : Construction) (behind : Behind) (id : NonterminalId)
    (lookahead : TerminalSet) : Behind × Bool :=
  let (merged, grew) := (construction.lookaheadOf behind id).unionGrew lookahead
  if grew then (behind.setIfInBounds id.index merged, true) else (behind, false)

/-- Passes the lookaheads of a nonterminal on to the nonterminals that its right-hand sides begin
with. -/
def passOn (construction : Construction) (state : Behind × Bool) (id : NonterminalId) :
    Behind × Bool :=
  (construction.rules.startsOf id).foldl
    (fun (behind, changed) item =>
      match construction.rules.nextSymbol item with
      | some (.nonterminal next) =>
          let lookahead := construction.first.ofSymbols (construction.lookaheadOf behind id)
            (construction.rules.rest item)
          let (merged, grew) := construction.addBehind behind next lookahead
          (merged, changed || grew)
      | _ => (behind, changed))
    state

structure ClosedItem where
  item : Item
  lookahead : TerminalSet

def closure (construction : Construction) (seed : Item) : List ClosedItem :=
  match construction.rules.nextSymbol seed with
  | some (.nonterminal id) =>
      let order := entered construction.rules [seed]
      let lookahead :=
        construction.first.ofSymbols construction.markerSet (construction.rules.rest seed)
      let initial : Behind :=
        (Array.replicate construction.rules.byLhs.size construction.emptySet).setIfInBounds
          id.index lookahead
      let behind := saturate
        (fun behind => order.foldl construction.passOn (behind, false))
        (order.length * (construction.terminalCount + 1) + 1) initial
      ⟨seed, construction.markerSet⟩ :: order.flatMap fun id =>
        (construction.rules.startsOf id).map (⟨·, construction.lookaheadOf behind id⟩)
  | _ => [⟨seed, construction.markerSet⟩]

end Construction

/-- The closures of all items by production and mark, each made once however many states have the
item in their kernels. -/
abbrev Closures := Array (Array (List Construction.ClosedItem))

def Closures.ofConstruction (construction : Construction) : Closures :=
  (Array.range construction.rules.rhs.size).map fun production =>
    (Array.range ((construction.rules.rhs[production]?.getD #[]).size + 1)).map fun dot =>
      construction.closure ⟨production, dot⟩

def Closures.of (closures : Closures) (item : Item) : List Construction.ClosedItem :=
  (closures[item.production]?.getD #[])[item.dot]?.getD []

def placeBetween? (kernel : Array Item) (item : Item) (low high : Nat) : Option Nat :=
  if _ordered : low < high then
    let middle := (low + high) / 2
    match (kernel[middle]? : Option Item) with
    | none => none
    | some found =>
        if found = item then some middle
        else if found.before item then placeBetween? kernel item (middle + 1) high
        else placeBetween? kernel item low middle
  else none
termination_by high - low
decreasing_by all_goals omega

/-- Kernel items numbered throughout the automaton: those of a state follow those of the state
before it. -/
structure Placement where
  kernels : Array (Array Item)
  /-- The number of the first kernel item of each state. -/
  bases : Array Nat
  total : Nat

namespace Placement

def ofAutomaton (automaton : Automaton) : Placement :=
  let (bases, total) := automaton.kernels.foldl
    (fun ((bases, total) : Array Nat × Nat) kernel => (bases.push total, total + kernel.length))
    (#[], 0)
  ⟨automaton.kernels.map (·.toArray), bases, total⟩

def base (placement : Placement) (state : Nat) : Nat := placement.bases[state]?.getD 0

def place (placement : Placement) (state : Nat) (item : Item) : Except Fault Nat :=
  let kernel := placement.kernels[state]?.getD #[]
  match placeBetween? kernel item 0 kernel.size with
  | some slot => .ok (placement.base state + slot)
  | none => .error .malformedArgument

end Placement

/-- Lookaheads of kernel items by number, and along which pairs of items they flow. -/
structure Flow where
  sets : Array TerminalSet
  arcs : Array (Nat × Nat)

namespace Flow

def add (flow : Flow) (place : Nat) (lookahead : TerminalSet) : Flow :=
  { flow with sets := flow.sets.modify place (·.union lookahead) }

/-- What one item of a closure contributes: `origin` is the number of the kernel item that was
closed, and `targets` are the edges of its state. -/
def contribute (construction : Construction) (placement : Placement)
    (targets : List (Symbol × Nat)) (origin : Nat) (flow : Flow)
    (closed : Construction.ClosedItem) : Except Fault Flow :=
  match construction.rules.nextSymbol closed.item with
  | none => .ok flow
  | some symbol =>
      match targets.lookup symbol with
      | none => .error .malformedArgument
      | some target => do
          let place ← placement.place target closed.item.advance
          let spontaneous := closed.lookahead.remove construction.marker
          let next := if spontaneous.isEmpty then flow else flow.add place spontaneous
          if closed.lookahead.contains construction.marker then
            return { next with arcs := next.arcs.push (origin, place) }
          else
            return next

def contributeState (construction : Construction) (closures : Closures) (placement : Placement)
    (automaton : Automaton) (flow : Flow) (state : Nat) : Except Fault Flow :=
  let targets := automaton.edgesOf state
  (automaton.kernels[state]?.getD []).zipIdx.foldlM
    (fun flow entry =>
      (closures.of entry.1).foldlM
        (contribute construction placement targets (placement.base state + entry.2)) flow)
    flow

/-- The end of the input follows the start item; all other sets are empty. -/
def initial (construction : Construction) (placement : Placement) : Flow :=
  ⟨(Array.replicate placement.total construction.emptySet).modify 0 (·.add .endOfInput), #[]⟩

/-- Lets lookaheads flow along every arc once. -/
def round (arcs : Array (Nat × Nat)) (sets : Array TerminalSet) : Array TerminalSet × Bool :=
  arcs.foldl
    (fun (sets, changed) arc =>
      match sets[arc.1]?, sets[arc.2]? with
      | some source, some target =>
          let (merged, grew) := target.unionGrew source
          if grew then (sets.setIfInBounds arc.2 merged, true) else (sets, changed)
      | _, _ => (sets, changed))
    (sets, false)

end Flow

def lookaheads (construction : Construction) (closures : Closures) (placement : Placement)
    (automaton : Automaton) : Except Fault (Array TerminalSet) := do
  let flow ← (List.range automaton.kernels.size).foldlM
    (Flow.contributeState construction closures placement automaton)
    (Flow.initial construction placement)
  return saturate (Flow.round flow.arcs)
    (placement.total * (construction.terminalCount + 1) + 1) flow.sets

end IncrementalParsing.Lalr
