import IncrementalParsing.Grammar.Flatten
import IncrementalParsing.Grammar.Productive
import Std.Data.TreeSet

/-!
The normal form of a declaration. Names are checked first, then every terminal and every rule gets
its number, then the rules are flattened one after another. A declaration that makes no sense is
refused for the first reason that applies, in the order in which this module looks for them.
-/

namespace IncrementalParsing

/-- The first name of a list that stands in it, or in `seen`, before. -/
def firstRepeated? (seen : Std.TreeSet String) : List String → Option String
  | [] => none
  | name :: rest =>
      if seen.contains name then some name else firstRepeated? (seen.insert name) rest

namespace Declaration

def ruleNames (declaration : Declaration) : List String :=
  declaration.rules.toList.map (·.1)

def checkNames (declaration : Declaration) : Flatten.Outcome Unit := do
  let some start := declaration.ruleNames.head?
    | refuse (.missingStart declaration.name)
  if isHiddenName start then
    refuse (.hiddenStart start)
  if let some name := firstRepeated? ∅ declaration.ruleNames then
    refuse (.duplicateName name)
  if let some name := firstRepeated? ∅
      (declaration.tokens.toList ++ declaration.externals.toList ++ declaration.ruleNames) then
    refuse (.duplicateName name)
  if let some word := declaration.word then
    if !declaration.tokens.contains word then
      refuse (.invalidWord word)

/-- The literal texts of all rules in the order of their first use. -/
def literalTexts (declaration : Declaration) : List String :=
  (declaration.rules.toList.flatMap (·.2.literals)).eraseDups

def emptyLiteralRule? (declaration : Declaration) : Option String :=
  (declaration.rules.toList.find? (·.2.literals.contains "")).map (·.1)

def declaredInfo (terminal : Bool) (name : String) : KindInfo :=
  ⟨name, true, !isHiddenName name, terminal⟩

def reservedKinds : Array KindInfo :=
  #[⟨"end", true, true, true⟩, ⟨"ERROR", true, true, true⟩]

def terminalKinds (declaration : Declaration) : Array KindInfo :=
  reservedKinds
    ++ (declaration.tokens ++ declaration.externals).map (declaredInfo true)
    ++ (declaration.literalTexts.map (fun text => ⟨text, false, true, true⟩)).toArray

def numbered (first : Nat) (names : List String) : List (String × Nat) := names.zipIdx first

def names (declaration : Declaration) : Flatten.Names :=
  let terminals := numbered reservedKinds.size
    (declaration.tokens.toList ++ declaration.externals.toList)
  let rules := numbered 0 declaration.ruleNames
  let firstLiteral :=
    reservedKinds.size + declaration.tokens.size + declaration.externals.size
  let literals := numbered firstLiteral declaration.literalTexts
  { terminalCount := firstLiteral + literals.length
    symbols := Std.TreeMap.ofList
      (terminals.map (fun entry => (entry.1, Symbol.terminal (.ofIndex entry.2)))
        ++ rules.map (fun entry => (entry.1, Symbol.nonterminal (.ofIndex entry.2))))
    literals := Std.TreeMap.ofList (literals.map (fun entry => (entry.1, KindId.ofIndex entry.2)))
    rule := "" }

/-- The terminals of the declaration as the lexer sees them. -/
def lexicalGrammar (declaration : Declaration) : LexicalGrammar :=
  let firstExternal := reservedKinds.size + declaration.tokens.size
  let firstLiteral := firstExternal + declaration.externals.size
  { literals := ((numbered firstLiteral declaration.literalTexts).map
      (fun entry => (entry.1, KindId.ofIndex entry.2))).toArray
    tokens := (Array.range declaration.tokens.size).map
      (fun index => .ofIndex (reservedKinds.size + index))
    externals := (Array.range declaration.externals.size).map
      (fun index => .ofIndex (firstExternal + index))
    word := declaration.word.bind fun word =>
      (declaration.tokens.findIdx? (· == word)).map
        (fun index => .ofIndex (reservedKinds.size + index)) }

/-- Symbols are numbered with 16 bits, and the last number is not used. -/
def symbolLimit : Nat := 65535

def normalize (declaration : Declaration) : Flatten.Outcome Grammar := do
  declaration.checkNames
  if let some rule := declaration.emptyLiteralRule? then
    refuse (.emptyLiteral rule)
  let ruleKinds := (declaration.ruleNames.map (declaredInfo false)).toArray
  let initial : Flatten.State := ⟨⟨declaration.terminalKinds ++ ruleKinds, #[]⟩, #[], 0⟩
  let final ← Flatten.rules declaration.names 0 declaration.rules.toList initial
  if final.kinds.size > symbolLimit then
    refuse (.tooMany .symbols symbolLimit)
  let grammar : Grammar :=
    { name := declaration.name
      version := declaration.version
      kinds := final.kinds
      terminalCount := declaration.names.terminalCount
      ruleCount := declaration.rules.size
      productions := final.productions
      lexical := declaration.lexicalGrammar
      policy := declaration.policy }
  match grammar.unproductive? with
  | some id => refuse (.unproductiveRule (grammar.symbolName (.nonterminal id)))
  | none => return grammar

end Declaration

end IncrementalParsing
