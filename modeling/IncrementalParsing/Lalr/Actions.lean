import IncrementalParsing.Lalr.Lookahead
import IncrementalParsing.Lalr.Table

/-!
Rows of actions. In each state every terminal may be claimed by a shift and by reductions. Of two
reductions the one declared first wins, and accepting wins over both. A shift and a reduction are
settled by precedence, then by associativity, and at last by the policy of the grammar.
-/

namespace IncrementalParsing.Lalr

/-- What the items of a state claim for each terminal: the lowest and the highest precedence of its
shifts, and a production to reduce. -/
structure Claims where
  shifts : Array (Option (Int × Int))
  reductions : Array (Option Nat)

namespace Claims

def none (terminalCount : Nat) : Claims :=
  ⟨Array.replicate terminalCount Option.none, Array.replicate terminalCount Option.none⟩

def shift (claims : Claims) (terminal : KindId) (precedence : Int) : Claims :=
  { claims with shifts := claims.shifts.modify terminal.index fun
      | some (low, high) => some (min low precedence, max high precedence)
      | .none => some (precedence, precedence) }

/-- Among two productions, the augmented one or else the one declared first. -/
def preferred (augmented left right : Nat) : Nat :=
  if left = augmented ∨ right = augmented then augmented else min left right

def reduce (claims : Claims) (augmented : Nat) (terminal : KindId) (production : Nat) : Claims :=
  { claims with reductions := claims.reductions.modify terminal.index fun
      | some existing => some (preferred augmented existing production)
      | .none => some production }

end Claims

def stepPrecedence (grammar : Grammar) (item : Item) : Int :=
  match (grammar.productions[item.production]? : Option Production) with
  | some production => (production.steps[item.dot]?.map (·.precedence)).getD 0
  | none => 0

/-- Adds the claim of a closed item; `following` is what may follow the kernel item that was
closed. -/
def claim (grammar : Grammar) (construction : Construction) (following : TerminalSet)
    (claims : Claims) (closed : Construction.ClosedItem) : Claims :=
  match construction.rules.nextSymbol closed.item with
  | some (.terminal terminal) => claims.shift terminal (stepPrecedence grammar closed.item)
  | some (.nonterminal _) => claims
  | none =>
      let lookahead :=
        if closed.lookahead.contains construction.marker then
          (closed.lookahead.remove construction.marker).union following
        else closed.lookahead
      lookahead.toList.foldl
        (fun claims terminal =>
          claims.reduce construction.rules.augmented terminal closed.item.production)
        claims

def claimsOf (grammar : Grammar) (construction : Construction) (closures : Closures)
    (kernel : List (Item × TerminalSet)) : Claims :=
  kernel.foldl
    (fun claims entry =>
      (closures.of entry.1).foldl (claim grammar construction entry.2) claims)
    (.none construction.terminalCount)

inductive Resolution where
  | shift
  | reduce
  | unresolved
deriving DecidableEq, Repr

/-- Settles a shift of precedences between `low` and `high` against a reduction. A repetition always
joins its ropes as soon as it can. -/
def resolve (production : Production) (low high : Int) : Resolution :=
  if production.kind = .repeatJoin then .reduce
  else if low > production.precedence then .shift
  else if high < production.precedence then .reduce
  else if low = production.precedence ∧ high = production.precedence then
    match production.assoc with
    | .left => .reduce
    | .right => .shift
    | .none => .unresolved
  else .unresolved

def describe (grammar : Grammar) (production : Production) : String :=
  production.steps.foldl
    (fun text step => text ++ " " ++ grammar.symbolName step.symbol)
    (grammar.symbolName (.nonterminal production.lhs) ++ " ->")

def shiftRow (terminalCount : Nat) (edges : List (Symbol × Nat)) : Array Action :=
  edges.foldl
    (fun row edge =>
      match edge.1 with
      | .terminal terminal => row.setIfInBounds terminal.index (.shift (.ofIndex edge.2))
      | .nonterminal _ => row)
    (Array.replicate terminalCount .error)

def gotoRow (nonterminalCount : Nat) (edges : List (Symbol × Nat)) : Array (Option StateId) :=
  edges.foldl
    (fun row edge =>
      match edge.1 with
      | .terminal _ => row
      | .nonterminal id => row.setIfInBounds id.index (some (.ofIndex edge.2)))
    (Array.replicate nonterminalCount none)

structure SettledRow where
  actions : Array Action
  conflicts : Nat

def settle (grammar : Grammar) (state : Nat) (claims : Claims) (row : SettledRow)
    (terminal : Nat) : Except (Failure ConfigurationError) SettledRow :=
  match (claims.reductions[terminal]?).getD none with
  | none => .ok row
  | some number =>
      match (grammar.productions[number]? : Option Production),
          (claims.shifts[terminal]?).getD none with
      | none, none => .ok { row with actions := row.actions.setIfInBounds terminal .accept }
      | none, some _ => .ok row
      | some _, none =>
          .ok { row with
            actions := row.actions.setIfInBounds terminal (.reduce (.ofIndex number)) }
      | some production, some (low, high) =>
          match resolve production low high with
          | .shift => .ok row
          | .reduce =>
              .ok { row with
                actions := row.actions.setIfInBounds terminal (.reduce (.ofIndex number)) }
          | .unresolved =>
              match grammar.policy with
              | .strict =>
                  refuse (.conflict state
                    ⟨grammar.kinds.name (.ofIndex terminal), describe grammar production⟩)
              | .preferShift => .ok { row with conflicts := row.conflicts + 1 }

def actionRow (grammar : Grammar) (state : Nat) (claims : Claims) (edges : List (Symbol × Nat)) :
    Except (Failure ConfigurationError) SettledRow :=
  (List.range grammar.terminalCount).foldlM (settle grammar state claims)
    ⟨shiftRow grammar.terminalCount edges, 0⟩

end IncrementalParsing.Lalr
