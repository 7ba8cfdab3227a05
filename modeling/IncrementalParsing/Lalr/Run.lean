import IncrementalParsing.Lalr.Table

/-!
Plain runs of a table: a stack of states is driven over a sequence of terminals, without trees, text
or recovery. A run answers whether the sequence is accepted and which reductions it made, each with
the number of terminals consumed before it.
-/

namespace IncrementalParsing.Table

structure Reduction where
  lhs : KindId
  position : Nat
deriving DecidableEq, Repr

inductive Verdict where
  | accepted (trace : List Reduction)
  /-- Nothing to do on the terminal at `position` in `state`. -/
  | rejected (trace : List Reduction) (position : Nat) (state : StateId)
deriving DecidableEq, Repr

/-- Where a run stands: the states from the top of the stack down, the terminals to come, how many
are consumed, and the reductions so far, the last one first. -/
structure Configuration where
  states : List StateId
  input : List KindId
  position : Nat
  trace : List Reduction

namespace Configuration

def initial (input : List KindId) : Configuration := ⟨[], input, 0, []⟩

def state (configuration : Configuration) : StateId := configuration.states.head?.getD .start

/-- The next terminal; the end of the input follows the last one. -/
def lookahead (configuration : Configuration) : KindId :=
  configuration.input.head?.getD .endOfInput

end Configuration

def runStep (table : Table) (configuration : Configuration) :
    Except Fault (Configuration ⊕ Verdict) :=
  match table.action configuration.state configuration.lookahead with
  | .accept => .ok (.inr (.accepted configuration.trace.reverse))
  | .error =>
      .ok (.inr (.rejected configuration.trace.reverse configuration.position configuration.state))
  | .shift target =>
      .ok (.inl { configuration with
        states := target :: configuration.states
        input := configuration.input.drop 1
        position := configuration.position + 1 })
  | .reduce id => do
      let production ← table.production id
      if production.length > configuration.states.length then
        .error .malformedArgument
      else
        let below := configuration.states.drop production.length
        match table.goto (below.head?.getD .start) production.lhs with
        | none => .error .malformedArgument
        | some target =>
            return .inl { configuration with
              states := target :: below
              trace := ⟨production.lhs, configuration.position⟩ :: configuration.trace }

def runFrom (table : Table) : Nat → Configuration → Except Fault Verdict
  | 0, _ => .error .outOfFuel
  | fuel + 1, configuration => do
      match ← table.runStep configuration with
      | .inl next => table.runFrom fuel next
      | .inr verdict => return verdict

/-- More steps than any run of practical length takes. -/
def stepLimit : Nat := 1 <<< 62

def run (table : Table) (input : List KindId) : Except Fault Verdict :=
  table.runFrom stepLimit (.initial input)

end IncrementalParsing.Table
