import IncrementalParsing.Grammar.Error
import IncrementalParsing.Grammar.Normal
import Std.Data.TreeMap

/-!
Flattening of rules into productions. A choice becomes one production for each alternative, a
sequence combines the alternatives of its parts, and a repetition gets a hidden helper `h` with the
productions `h -> body` and `h -> h h`. The annotations in force are carried down to the symbols that
they reach.
-/

namespace IncrementalParsing.Flatten

structure Context where
  level : Int
  assoc : Assoc
  field : Option FieldId

def Context.plain : Context := ⟨0, .none, none⟩

structure Alternative where
  steps : List Step
  /-- The precedence and associativity of the last step, if there is one. -/
  ending : Option (Int × Assoc)

structure Names where
  terminalCount : Nat
  symbols : Std.TreeMap String Symbol
  literals : Std.TreeMap String KindId
  rule : String

structure State where
  kinds : KindTable
  productions : Array Production
  helpers : Nat

abbrev Outcome (α : Type) := Except (Failure ConfigurationError) α

def Alternative.single (context : Context) (symbol : Symbol) : Alternative :=
  ⟨[⟨symbol, context.field, context.level⟩], some (context.level, context.assoc)⟩

def Alternative.append (first second : Alternative) : Alternative :=
  ⟨first.steps ++ second.steps, second.ending.or first.ending⟩

/-- Every alternative of the first list followed by every one of the second, the first list being
the slower to change. -/
def combine (firsts seconds : List Alternative) : List Alternative :=
  firsts.flatMap (fun first => seconds.map first.append)

def Alternative.production (alternative : Alternative) (lhs : NonterminalId) (context : Context)
    (kind : ProductionKind) : Production :=
  let ending := alternative.ending.getD (context.level, context.assoc)
  ⟨lhs, alternative.steps, ending.1, ending.2, kind⟩

/-- A rule name without the underscores that it begins with. -/
def bareName (name : String) : String := String.ofList (name.toList.dropWhile (· == '_'))

def helperInfo (rule : String) (number : Nat) : KindInfo :=
  ⟨s!"{bareName rule}_repeat{number}", true, false, false⟩

def joinProduction (id : NonterminalId) : Production :=
  let half : Step := ⟨.nonterminal id, none, 0⟩
  ⟨id, [half, half], 0, .none, .repeatJoin⟩

mutual

def expand (names : Names) (context : Context) : Rule → State → Outcome (List Alternative × State)
  | .blank, state => .ok ([⟨[], none⟩], state)
  | .literal text, state =>
      match names.literals[text]? with
      | some kind => .ok ([.single context (.terminal kind)], state)
      | none => .error (.fault .indexOutOfRange)
  | .symbol name, state =>
      match names.symbols[name]? with
      | some symbol => .ok ([.single context symbol], state)
      | none => refuse (.undefinedSymbol names.rule name)
  | .sequence rules, state => expandSequence names context [⟨[], none⟩] rules state
  | .choice rules, state => expandChoice names context rules state
  | .repeated body, state => do
      let number := state.helpers + 1
      let id := NonterminalId.ofIndex (state.kinds.size - names.terminalCount)
      let kinds := (state.kinds.push (helperInfo names.rule number)).1
      let inner : Context := { context with field := none }
      let (alternatives, after) ← expand names inner body { state with kinds, helpers := number }
      if alternatives.any (·.steps.isEmpty) then
        refuse (.emptyRepeat names.rule)
      else
        let bases := alternatives.map (·.production id inner .repeatBase)
        let productions := (after.productions ++ bases.toArray).push (joinProduction id)
        return ([.single context (.nonterminal id)], { after with productions })
  | .precedence level assoc rule, state => expand names { context with level, assoc } rule state
  | .field name rule, state => do
      let (kinds, field) ← (state.kinds.pushField name : Except Fault _)
      expand names { context with field := some field } rule { state with kinds }

def expandSequence (names : Names) (context : Context) (prior : List Alternative) :
    List Rule → State → Outcome (List Alternative × State)
  | [], state => .ok (prior, state)
  | rule :: rest, state => do
      let (parts, after) ← expand names context rule state
      expandSequence names context (combine prior parts) rest after

def expandChoice (names : Names) (context : Context) :
    List Rule → State → Outcome (List Alternative × State)
  | [], state => .ok ([], state)
  | rule :: rest, state => do
      let (first, after) ← expand names context rule state
      let (others, last) ← expandChoice names context rest after
      return (first ++ others, last)

end

def rule (names : Names) (index : Nat) (name : String) (rule : Rule) (state : State) :
    Outcome State := do
  let (alternatives, after) ←
    expand { names with rule := name } .plain rule { state with helpers := 0 }
  let plain := alternatives.map (·.production (.ofIndex index) .plain .plain)
  return { after with productions := after.productions ++ plain.toArray }

def rules (names : Names) : Nat → List (String × Rule) → State → Outcome State
  | _, [], state => .ok state
  | index, (name, body) :: rest, state => do
      let after ← rule names index name body state
      rules names (index + 1) rest after

end IncrementalParsing.Flatten
