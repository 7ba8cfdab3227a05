import IncrementalParsing.Parsing.Recovery
import IncrementalParsing.Tree.Basic

/-!
Parsing and parsing again. A text is parsed by running the machine from its beginning to a root; this
never refuses a text, since errors end up in error nodes. After an edit the machine runs over the new
text with a cursor over the old tree, and shares every subtree that the edit cannot have influenced.
-/

namespace IncrementalParsing

namespace Machine

def step (job : Job) (machine : Machine) : Except Fault (Machine ⊕ Green.Node) := do
  let (lookahead, next) ← machine.lookahead job
  match job.table.action next.stack.state lookahead.kind, lookahead with
  | .reduce id, lookahead => return .inl (← next.reduce job id lookahead)
  | .shift target, .lexed token => return .inl (next.shiftToken target token)
  | .shift target, .reused (.token token) _ => return .inl (next.shiftReused target token)
  | .shift _, .reused (.node head children) _ => return .inl (next.pushReused job head children)
  | .accept, .lexed token =>
      let last := endToken token next.nextSerial
      return .inr (next.stack.toRoot job.table (next.nextSerial + 1) last)
  | .error, .lexed token => Recovery.recover job next token
  | _, .reused (.node _ _) _ => return .inl next.descend
  | _, .reused (.token _) mode =>
      let token ← job.lex next.position mode
      return .inl { next with pending := some (.lexed token) }

def run (job : Job) : Nat → Machine → Except Fault Green.Node
  | 0, _ => .error .outOfFuel
  | fuel + 1, machine => do
      match ← machine.step job with
      | .inl next => run job fuel next
      | .inr root => return root

end Machine

structure ParsedTree extends Tree where
  language : LanguageId
  /-- Above every serial number in the tree and in the trees that it was made from. -/
  serialBound : Nat

inductive ReparseError where
  | incompatible (expected found : LanguageId)
  | edit (error : EditError)

structure Parser where
  language : Language
  /-- How many tokens a single recovery may skip. -/
  maxSkipped : Nat

namespace Parser

def defaultMaxSkipped : Nat := 16

def ofLanguage (language : Language) : Parser := ⟨language, defaultMaxSkipped⟩

/-- More steps than a run or a simulation of practical length takes. -/
def stepLimit : Nat := 1 <<< 62

def job (parser : Parser) (limit : Nat) (text : Array UInt8) : Job :=
  ⟨parser.language, text, parser.maxSkipped, limit⟩

/-- Every machine hands out serial numbers from its first one on; the root gets the last of them. -/
def runFrom (parser : Parser) (limit : Nat) (text : Array UInt8) (machine : Machine) :
    Except Fault ParsedTree := do
  let root ← Machine.run (parser.job limit text) limit machine
  let tree ← Tree.make root text parser.language.table.kinds
  return { tree with
    language := parser.language.id
    serialBound := root.head.serial + 1 }

def parseWithin (parser : Parser) (limit : Nat) (text : Array UInt8) : Except Fault ParsedTree :=
  parser.runFrom limit text (.start none 0)

def parse (parser : Parser) (text : Array UInt8) : Except Fault ParsedTree :=
  parser.parseWithin stepLimit text

/-- Parses the text that an edit makes of the text of an old tree, in at most `limit` steps. An edit
that changes nothing answers the old tree. -/
def reparseWithin (parser : Parser) (limit : Nat) (old : ParsedTree) (edit : InputEdit)
    (text : Array UInt8) : Except (Failure ReparseError) ParsedTree := do
  if old.language ≠ parser.language.id then
    refuse (.incompatible parser.language.id old.language)
  (edit.validate old.text.size text.size).mapError (·.map ReparseError.edit)
  let change := Change.narrow edit old.text text
  if change.isEmpty then
    return old
  else
    let cursor := ReuseCursor.start old.root change
    (parser.runFrom limit text (.start (some cursor) old.serialBound) : Except Fault _)

def reparse (parser : Parser) (old : ParsedTree) (edit : InputEdit) (text : Array UInt8) :
    Except (Failure ReparseError) ParsedTree :=
  parser.reparseWithin stepLimit old edit text

/-- The edit between two texts about which nothing is known. -/
def wholeEdit (old new : Array UInt8) : InputEdit := .ofOffsets 0 old.size new.size

end Parser

end IncrementalParsing
