import IncrementalParsing.Parsing.Language
import IncrementalParsing.Parsing.Reuse
import IncrementalParsing.Parsing.Stack

/-!
The parsing machine. A machine holds the parse stack, how much of the text is consumed and the
lookahead; each step shifts, reduces or looks closer at what is ahead. The lookahead is a token from
the lexer, or an element of the old tree that the automaton treats as its first token until it can be
pushed as a whole. What happens on an error is described elsewhere. What is examined for a token and for
the decisions on it is added up as numbers without a width, and is to fit the offsets.
-/

namespace IncrementalParsing

structure Job where
  language : Language
  text : Array UInt8
  maxSkipped : Nat
  /-- How many steps a simulation of the automaton may take. -/
  stepLimit : Nat

namespace Job

def table (job : Job) : Table := job.language.table

/-- The token at a position. One that ends beyond the offsets is refused: no tree is made of a text with
such a token, since a root has to be as long as its text. -/
def lex (job : Job) (position : Nat) (mode : LexMode) : Except Fault LexedToken := do
  let token ← job.language.lexer.read job.text position mode
  if token.stop < offsetLimit then token.narrowed else .error .arithmeticOverflow

end Job

inductive Lookahead where
  | lexed (token : LexedToken)
  /-- An element of the old tree whose first token is what the lexer would answer in `mode`. -/
  | reused (element : Green.Element) (mode : LexMode)

namespace Lookahead

def kind : Lookahead → KindId
  | .lexed token => token.kind
  | .reused element _ => (element.firstToken?.map (·.kind)).getD .error

def lexMode : Lookahead → LexMode
  | .lexed token => token.lexMode
  | .reused _ mode => mode

def examinedEnd (position : Nat) : Lookahead → Nat
  | .lexed token => token.examinedEnd
  | .reused element _ =>
      match element.firstToken? with
      | some token => position + token.textLength + token.lookahead
      | none => position

end Lookahead

structure Machine where
  stack : ParseStack
  position : Nat
  /-- The mode of the token at `position`, kept from the first request for it on. -/
  mode : Option LexMode
  pending : Option Lookahead
  reuse : Option ReuseCursor
  /-- The serial number of the next token or node. -/
  nextSerial : Nat

namespace Machine

def start (reuse : Option ReuseCursor) (nextSerial : Nat) : Machine :=
  ⟨[], 0, none, none, reuse, nextSerial⟩

def dueMode (machine : Machine) (table : Table) : LexMode :=
  machine.mode.getD (table.lexMode machine.stack.state)

def offer (machine : Machine) : Option Green.Element × Machine :=
  match machine.reuse with
  | none => (none, machine)
  | some cursor =>
      let (found, next) := cursor.candidate machine.position
      (found, { machine with reuse := some next })

/-- Whether a fresh token shows that the first token of an old element would be lexed again without
looking further than before. -/
def confirms (position : Nat) (token : LexedToken) (first : Green.Token) : Bool :=
  token.kind == first.kind && token.length == first.textLength
    && token.examinedEnd ≤ position + first.textLength + first.lookahead

/-- Finds the next lookahead. An old element is taken if its first token was lexed in the mode that is
due, or would be lexed the same in it. -/
def nextLookahead (job : Job) (machine : Machine) : Except Fault (Lookahead × Machine) := do
  let mode := machine.dueMode job.table
  let (offered, next) := { machine with mode := some mode }.offer
  match offered, offered.bind (·.firstToken?) with
  | some element, some first =>
      if first.lexMode = mode then return (.reused element mode, next)
      else
        let token ← job.lex machine.position mode
        if confirms machine.position token first then return (.reused element mode, next)
        else return (.lexed token, next)
  | _, _ =>
      let token ← job.lex machine.position mode
      return (.lexed token, next)

def lookahead (job : Job) (machine : Machine) : Except Fault (Lookahead × Machine) :=
  match machine.pending with
  | some lookahead => .ok (lookahead, { machine with pending := none })
  | none => machine.nextLookahead job

/-- Looks at the children of the old element on offer instead of the element. -/
def descend (machine : Machine) : Machine :=
  { machine with reuse := machine.reuse.map (·.descend) }

def reduce (job : Job) (machine : Machine) (id : ProductionId) (lookahead : Lookahead) :
    Except Fault Machine := do
  let production ← job.table.production id
  let stack ← machine.stack.reduce job.table machine.nextSerial production
    (lookahead.examinedEnd machine.position) lookahead.lexMode
  return { machine with
    stack
    pending := some lookahead
    nextSerial := machine.nextSerial + 1 }

def shiftToken (machine : Machine) (target : StateId) (token : LexedToken) : Machine :=
  { machine with
    stack := machine.stack.push target (.token (token.toGreen machine.nextSerial))
    position := token.stop
    mode := none
    nextSerial := machine.nextSerial + 1 }

def shiftReused (machine : Machine) (target : StateId) (token : Green.Token) : Machine :=
  { machine with
    stack := machine.stack.push target (.token token)
    position := machine.position + token.textLength
    mode := none }

/-- Pushes a node of the old tree in the state in which it was begun, and looks at its children in any
other state. The token after the node is due in the mode in which it was lexed before. -/
def pushReused (job : Job) (machine : Machine) (head : Green.Head)
    (children : List Green.Child) : Machine :=
  let state := machine.stack.state
  if head.info.preState = state then
    match job.table.goto state head.kind with
    | some target =>
        { machine with
          stack := machine.stack.push target (.node head children)
          position := machine.position + head.textLength
          mode := some head.info.nextLexMode }
    | none => machine.descend
  else machine.descend

/-- The token that ends the input, if there is any text before it. -/
def endToken (token : LexedToken) (serial : Nat) : Option Green.Token :=
  if token.length = 0 then none else some (token.toGreen serial)

end Machine

end IncrementalParsing
