import IncrementalParsing.Parsing.Machine

/-!
Recovery from errors. Where there is nothing to do on the lookahead, some tokens are skipped, the
lookahead being the first of them, and some entries are popped off the stack. The cheapest way is
taken after which the automaton gets on with the token that follows: the fewest skipped tokens and
popped entries together, and among those the fewest popped entries. What was removed is wrapped into
an error node, which stays on the stack as an extra. Where no way leads on, the lookahead alone is
wrapped, or at the end of the input everything.
-/

namespace IncrementalParsing.Recovery

/-- Whether the automaton, from the states of a stack, comes to shift or accept a terminal. -/
def canContinueFrom (table : Table) (terminal : KindId) : Nat → List StateId → Except Fault Bool
  | 0, _ => .error .outOfFuel
  | fuel + 1, states =>
      match table.action (states.head?.getD .start) terminal with
      | .shift _ => .ok true
      | .accept => .ok true
      | .error => .ok false
      | .reduce id => do
          let production ← table.production id
          match states.drop production.length with
          | [] => return false
          | top :: below =>
              match table.goto top production.lhs with
              | some next => canContinueFrom table terminal fuel (next :: top :: below)
              | none => return false

def canContinue (job : Job) (states : List StateId) (terminal : KindId) : Except Fault Bool :=
  canContinueFrom job.table terminal job.stepLimit states

def statesBelow : ParseStack → List (List StateId)
  | [] => [[.start]]
  | entry :: below =>
      let rest := statesBelow below
      let states := (rest.head?).getD [.start]
      (if entry.extra then states else entry.state :: states) :: rest

structure Skips where
  tokens : Array LexedToken
  ended : Bool

namespace Skips

def start (lookahead : LexedToken) : Skips :=
  if lookahead.kind = .endOfInput then ⟨#[], true⟩ else ⟨#[lookahead], false⟩

def stopAfter (skips : Skips) (position count : Nat) : Nat :=
  match count with
  | 0 => position
  | before + 1 => (skips.tokens[before]?.map (·.stop)).getD position

/-- Lexes one more token, in the mode of recovery. The end of the input cannot be skipped. -/
def grow (job : Job) (position : Nat) (skips : Skips) : Except Fault Skips := do
  let token ← job.lex (skips.stopAfter position skips.tokens.size) .error
  return if token.kind = .endOfInput then { skips with ended := true }
    else { skips with tokens := skips.tokens.push token }

end Skips

structure Repair where
  skipped : List LexedToken
  popped : Nat
  resume : LexedToken

/-- Where a search stands: what to parse, where the lookahead begins, the states below each number of
popped entries, and how many tokens may be skipped. -/
structure Search where
  job : Job
  position : Nat
  states : Array (List StateId)
  maxSkipped : Nat

namespace Search

def depth (search : Search) : Nat := search.states.size - 1

def attempt (search : Search) (skips : Skips) (skipped popped : Nat) :
    Except Fault (Option Repair) := do
  let states := search.states[popped]?.getD [.start]
  let mode := search.job.table.lexMode (states.head?.getD .start)
  let resume ← search.job.lex (skips.stopAfter search.position skipped) mode
  let possible ← canContinue search.job states resume.kind
  return if possible then some ⟨(skips.tokens.toList.take skipped), popped, resume⟩ else none

/-- Tries the ways of one cost, from `popped` entries on, for `count` numbers of entries. -/
def tryPopping (search : Search) (skips : Skips) (cost : Nat) :
    Nat → Nat → Except Fault (Option Repair)
  | 0, _ => .ok none
  | count + 1, popped =>
      let skipped := cost - popped
      if skipped > search.maxSkipped ∨ skipped > skips.tokens.size then
        search.tryPopping skips cost count (popped + 1)
      else do
        match ← search.attempt skips skipped popped with
        | some repair => return some repair
        | none => search.tryPopping skips cost count (popped + 1)

/-- Tries all ways by increasing cost, from `cost` on, for `count` costs. -/
def tryCosts (search : Search) : Nat → Nat → Skips → Except Fault (Option Repair)
  | 0, _, _ => .ok none
  | count + 1, cost, skips => do
      let more := !skips.ended && skips.tokens.size < min cost search.maxSkipped
      let known ← if more then skips.grow search.job search.position else pure skips
      match ← search.tryPopping known cost (min cost search.depth + 1) 0 with
      | some repair => return some repair
      | none => search.tryCosts count (cost + 1) known

end Search

/-- The search of a machine. No more tokens than bytes can be skipped. -/
def searchFor (job : Job) (machine : Machine) : Search where
  job
  position := machine.position
  states := (statesBelow machine.stack).toArray
  maxSkipped := min job.maxSkipped job.text.size

/-- The cheapest repair. The highest cost of any has to be a size. -/
def cheapest? (job : Job) (machine : Machine) (lookahead : LexedToken) :
    Except Fault (Option Repair) :=
  let search := searchFor job machine
  if job.maxSkipped + machine.stack.length < sizeLimit then
    search.tryCosts (search.maxSkipped + search.depth) 1 (.start lookahead)
  else .error .arithmeticOverflow

def leaves (serial : Nat) (tokens : List LexedToken) : List Green.Element :=
  (tokens.zipIdx serial).map (fun entry => .token (entry.1.toGreen entry.2))

/-- Pushes an error node over `elements`, together with an error node right below. -/
def pushError (job : Job) (machine : Machine) (elements : List Green.Element)
    (examinedEnd : Nat) : Machine :=
  let (elements, stack) :=
    match machine.stack with
    | top :: below => if top.extra then (top.element :: elements, below) else (elements, machine.stack)
    | [] => (elements, machine.stack)
  let node := ParseStack.errorNode job.table machine.nextSerial elements (ParseStack.state stack)
    (examinedEnd - ParseStack.stop stack)
  { machine with
    stack := ParseStack.pushExtra stack node.element
    nextSerial := machine.nextSerial + 1 }

def apply (job : Job) (machine : Machine) (repair : Repair) : Machine :=
  let popped := (machine.stack.take repair.popped).reverse.map (·.element)
  let skipped := leaves machine.nextSerial repair.skipped
  let shortened : Machine :=
    { machine with
      stack := machine.stack.drop repair.popped
      position := (repair.skipped.getLast?.map (·.stop)).getD machine.position
      nextSerial := machine.nextSerial + repair.skipped.length }
  { pushError job shortened (popped ++ skipped) repair.resume.examinedEnd with
    mode := some repair.resume.lexMode
    pending := some (.lexed repair.resume) }

/-- Wraps the lookahead alone, or at the end of the input the whole stack. -/
def giveUp (job : Job) (machine : Machine) (lookahead : LexedToken) : Machine ⊕ Green.Node :=
  if lookahead.kind = .endOfInput then
    let last := Machine.endToken lookahead machine.nextSerial
    .inr (machine.stack.toErrorRoot job.table (machine.nextSerial + 1) last)
  else
    let wrapped : Machine :=
      { machine with position := lookahead.stop, nextSerial := machine.nextSerial + 1 }
    .inl { pushError job wrapped (leaves machine.nextSerial [lookahead]) lookahead.examinedEnd with
      mode := none }

def recover (job : Job) (machine : Machine) (lookahead : LexedToken) :
    Except Fault (Machine ⊕ Green.Node) := do
  match ← cheapest? job machine lookahead with
  | some repair => return .inl (apply job machine repair)
  | none => return giveUp job machine lookahead

end IncrementalParsing.Recovery
