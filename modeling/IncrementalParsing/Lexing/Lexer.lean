import IncrementalParsing.Grammar.Error
import IncrementalParsing.Lalr.Table
import IncrementalParsing.Lexing.Scanner

/-!
Lexing by modes. The parser asks for one token at a time and says in which mode; the lexer prefers
the tokens that the mode admits. An immediate token comes first, scanned without trivia. Otherwise
trivia are passed over, and among the literals that the text goes on with and the token that the
scanner finds the longest one wins that the mode admits, or the longest of all if none is admitted; a
literal wins over a scanned token of its length. A text that looks like the word token and equals a
literal is that literal where the literal is admitted.
-/

namespace IncrementalParsing

structure LexedToken where
  kind : KindId
  leading : List TriviaPiece
  start : Nat
  stop : Nat
  /-- The end of the bytes that were examined to produce the token: one past the end of the text
  when more input was looked for. -/
  examinedEnd : Nat
  lexMode : LexMode
deriving DecidableEq, Repr

namespace LexedToken

def textStart (token : LexedToken) : Nat := token.start + triviaLength token.leading

def length (token : LexedToken) : Nat := token.stop - token.start

/-- How many bytes past the end were examined. -/
def lookahead (token : LexedToken) : Nat := max token.examinedEnd token.stop - token.stop

/-- The token in the widths that tokens have: offsets and lengths are cut to 32 bits. An extent that no
place in memory has is refused, and so are pieces of trivia whose lengths do not add up to an offset and
a range that would end before it begins. -/
def narrowed (token : LexedToken) : Except Fault LexedToken :=
  let leading := token.leading.map (fun piece => { piece with length := piece.length % offsetLimit })
  let stop := token.stop % offsetLimit
  if token.examinedEnd < sizeLimit ∧ triviaLength leading < offsetLimit then
    if token.start ≤ stop then
      .ok { token with leading, stop, examinedEnd := token.examinedEnd % offsetLimit }
    else .error .malformedArgument
  else .error .arithmeticOverflow

def toGreen (token : LexedToken) (serial : Nat) : Green.Token :=
  ⟨serial, token.kind, token.leading, token.length, token.lexMode, token.lookahead⟩

end LexedToken

/-- The terminals of a table together with the scanner of its language. -/
structure Lexer where
  table : Table
  scanner : Scanner
  /-- The kinds of the tokens and of the immediate tokens of the scanner, by position. -/
  tokenKinds : Array KindId
  externalKinds : Array KindId
  /-- The literals that do not look like the word token, by first byte and then longest first. -/
  literals : Array (List (List UInt8 × KindId))
  keywords : List (List UInt8 × KindId)
  /-- For each mode which immediate tokens it admits, or nothing if it admits none. -/
  externalModes : Array (Option (List Bool))

namespace Lexer

abbrev Outcome (α : Type) := Except (Failure ConfigurationError) α

def resolve (table : Table) (declared : Array KindId) (names : List String) :
    Outcome (List KindId) :=
  names.mapM fun name =>
    match table.kinds.kindId? name with
    | some kind =>
        if declared.contains kind then .ok kind
        else refuse (.undefinedSymbol "<scanner>" name)
    | none => refuse (.undefinedSymbol "<scanner>" name)

/-- Whether the scanner takes a whole literal text for the word token. -/
def looksLikeWord (table : Table) (scanner : Scanner) (tokens : Array KindId)
    (bytes : List UInt8) : Except Fault Bool := do
  let (found, cursor) := scanner.scan.run (.start bytes.toArray 0)
  match found with
  | none => return false
  | some index =>
      let kind ← requireAt tokens index
      return table.lexical.word == some kind && cursor.position == bytes.length

def insertLiteral (literal : List UInt8 × KindId) :
    List (List UInt8 × KindId) → List (List UInt8 × KindId)
  | [] => [literal]
  | first :: rest =>
      if first.1.length ≤ literal.1.length then literal :: first :: rest
      else first :: insertLiteral literal rest

def bucket (literals : List (List UInt8 × KindId)) (byte : UInt8) : List (List UInt8 × KindId) :=
  (literals.filter (fun entry => entry.1.head? == some byte)).foldr insertLiteral []

def make (table : Table) (scanner : Scanner) : Outcome Lexer := do
  let tokens ← resolve table table.lexical.tokens scanner.tokens
  let externals ← resolve table table.lexical.externals scanner.externals
  let declared := table.lexical.tokens.toList ++ table.lexical.externals.toList
  if let some kind := declared.find? (fun kind => !tokens.contains kind && !externals.contains kind) then
    refuse (.unscannedToken (table.kinds.name kind))
  let marked ← table.lexical.literals.toList.mapM fun (text, kind) => do
    let bytes := text.toUTF8.toList
    let word ← (looksLikeWord table scanner tokens.toArray bytes : Except Fault Bool)
    return (bytes, kind, word)
  let entries := fun word =>
    (marked.filter (fun entry => entry.2.2 == word)).map (fun entry => (entry.1, entry.2.1))
  return {
    table
    scanner
    tokenKinds := tokens.toArray
    externalKinds := externals.toArray
    literals := (Array.range 256).map (fun byte => bucket (entries false) byte.toUInt8)
    keywords := entries true
    externalModes := table.lexModes.map fun terminals =>
      let admitted := externals.map terminals.contains
      if admitted.contains true then some admitted else none }

structure Candidate where
  length : Nat
  kind : KindId
  literal : Bool
deriving DecidableEq, Repr

/-- Longer wins, and a literal wins over a scanned token of its length. -/
def Candidate.beats (candidate : Candidate) : Option Candidate → Bool
  | none => true
  | some other =>
      candidate.length > other.length
        || (candidate.length == other.length && candidate.literal && !other.literal)

structure Choice where
  admitted : Option Candidate
  any : Option Candidate

def Choice.consider (valid : TerminalSet) (choice : Choice) (candidate : Candidate) : Choice :=
  { admitted :=
      if valid.contains candidate.kind && candidate.beats choice.admitted then some candidate
      else choice.admitted
    any := if candidate.beats choice.any then some candidate else choice.any }

/-- The pieces of trivia that follow one another up to the next token. -/
def triviaPieces (scanner : Scanner) (limit : Nat) (cursor : Cursor) :
    List TriviaPiece × Cursor :=
  match scanner.trivia.run cursor with
  | (some kind, next) =>
      if _moved : cursor.position < next.position ∧ next.position ≤ limit then
        let (pieces, last) := triviaPieces scanner limit next
        (⟨kind, next.position - cursor.position⟩ :: pieces, last)
      else ([], next.rewind cursor.position)
  | (none, next) => ([], next.rewind cursor.position)
termination_by limit - cursor.position

def considerLiterals (valid : TerminalSet) (position : Nat) :
    List (List UInt8 × KindId) → Choice → Cursor → Choice × Cursor
  | [], choice, cursor => (choice, cursor)
  | (bytes, kind) :: rest, choice, cursor =>
      let (found, looked) := cursor.eatBytes bytes
      considerLiterals valid position rest
        (if found then choice.consider valid ⟨bytes.length, kind, true⟩ else choice)
        (looked.rewind position)

/-- What a scanned token counts as: the keyword of its text if that is admitted, or else itself. -/
def scannedCandidate (lexer : Lexer) (valid : TerminalSet) (mode : LexMode) (kind : KindId)
    (text : List UInt8) : Candidate :=
  let keyword :=
    if lexer.table.lexical.word = some kind then
      (lexer.keywords.lookup text).filter (fun keyword => mode == .error || valid.contains keyword)
    else none
  match keyword with
  | some keyword => ⟨text.length, keyword, true⟩
  | none => ⟨text.length, kind, false⟩

def finish (mode : LexMode) (kind : KindId) (leading : List TriviaPiece) (start stop : Nat)
    (cursor : Cursor) : LexedToken :=
  ⟨kind, leading, start, stop, max cursor.examined stop, mode⟩

/-- The immediate token at a position, if the mode admits one and the scanner finds it; and how far
the scanner has looked. -/
def external? (lexer : Lexer) (mode : LexMode) (cursor : Cursor) :
    Except Fault (Option LexedToken × Cursor) :=
  match (lexer.externalModes[mode.index]?).getD none with
  | none => .ok (none, cursor)
  | some admitted =>
      match (lexer.scanner.scanExternal admitted).run cursor with
      | (some index, next) =>
          if cursor.position < next.position then do
            let kind ← requireAt lexer.externalKinds index
            return (some (finish mode kind [] cursor.position next.position next), next)
          else .ok (none, next.rewind cursor.position)
      | (none, next) => .ok (none, next.rewind cursor.position)

def considerScanned (lexer : Lexer) (valid : TerminalSet) (mode : LexMode) (cursor : Cursor)
    (choice : Choice) : Option Nat × Cursor → Except Fault Choice
  | (none, _) => .ok choice
  | (some index, scanned) =>
      if cursor.position < scanned.position then do
        let kind ← requireAt lexer.tokenKinds index
        let text := (cursor.text.extract cursor.position scanned.position).toList
        return choice.consider valid (lexer.scannedCandidate valid mode kind text)
      else .ok choice

/-- The token of a choice at a position after some trivia; a single byte of unrecognised input if there
is nothing to choose. -/
def Choice.token (choice : Choice) (mode : LexMode) (start : Nat) (leading : List TriviaPiece)
    (position : Nat) (cursor : Cursor) : LexedToken :=
  match choice.admitted.or choice.any with
  | some candidate => finish mode candidate.kind leading start (position + candidate.length) cursor
  | none => finish mode .error leading start (position + 1) cursor

def afterTrivia (lexer : Lexer) (mode : LexMode) (start : Nat) (leading : List TriviaPiece)
    (byte : UInt8) (cursor : Cursor) : Except Fault LexedToken := do
  let valid ← lexer.table.modeTerminals mode
  let literals := considerLiterals valid cursor.position
    (lexer.literals[byte.toNat]?.getD []) ⟨none, none⟩ cursor
  let scanned := lexer.scanner.scan.run literals.2
  let choice ← lexer.considerScanned valid mode cursor literals.1 scanned
  return choice.token mode start leading cursor.position scanned.2

/-- Reads the token at a position, with the trivia in front of it. A position beyond the text counts
as its end. -/
def read (lexer : Lexer) (text : Array UInt8) (position : Nat) (mode : LexMode) :
    Except Fault LexedToken := do
  let start := min position text.size
  let (immediate, cursor) ← lexer.external? mode (.start text start)
  match immediate with
  | some token => return token
  | none =>
      let (leading, after) := triviaPieces lexer.scanner text.size cursor
      let looked := after.examine after.position
      match text[after.position]? with
      | none => return finish mode .endOfInput leading start after.position looked
      | some byte => lexer.afterTrivia mode start leading byte looked

def next (lexer : Lexer) (text : Array UInt8) (position : Nat) (mode : LexMode) :
    Except Fault LexedToken := do
  let token ← lexer.read text position mode
  token.narrowed

def tokensFrom (lexer : Lexer) (text : Array UInt8) (mode : LexMode) :
    Nat → Nat → Except Fault (List LexedToken)
  | 0, _ => .error .outOfFuel
  | count + 1, position => do
      let token ← lexer.next text position mode
      if token.kind = .endOfInput then return [token]
      else return token :: (← lexer.tokensFrom text mode count token.stop)

/-- All tokens of a text in one mode, up to and including the end of the input. Every other token has
a byte of its own. -/
def tokens (lexer : Lexer) (text : Array UInt8) (mode : LexMode) :
    Except Fault (List LexedToken) :=
  lexer.tokensFrom text mode (text.size + 1) 0

end Lexer

end IncrementalParsing
