import IncrementalParsing.Grammar.Rule

/-!
Declarations of a language. A grammar is declared by its rules, the first of which is where texts
start, and by the tokens that its scanner produces. Names that begin with an underscore are hidden:
the children of such a node stand in its place. Whether a declaration makes sense is decided when it
is flattened, so declarations are collected as they come.
-/

namespace IncrementalParsing

/-- What to do where a shift and a reduction compete and precedence does not decide. -/
inductive ConflictPolicy where
  | strict
  /-- Shift, and count the conflict. -/
  | preferShift
deriving DecidableEq, Repr

structure Declaration where
  name : String
  version : Nat
  rules : Array (String × Rule)
  tokens : Array String
  /-- Immediate tokens: scanned where the previous token ends, before any trivia, and only where the
  grammar admits them. -/
  externals : Array String
  /-- The token whose text is compared with the literals that look like it. -/
  word : Option String
  policy : ConflictPolicy

namespace Declaration

def empty (name : String) : Declaration := ⟨name, 1, #[], #[], #[], none, .strict⟩

def withVersion (declaration : Declaration) (version : Nat) : Declaration :=
  { declaration with version }

def withPolicy (declaration : Declaration) (policy : ConflictPolicy) : Declaration :=
  { declaration with policy }

def rule (declaration : Declaration) (name : String) (rule : Rule) : Declaration :=
  { declaration with rules := declaration.rules.push (name, rule) }

def token (declaration : Declaration) (name : String) : Declaration :=
  { declaration with tokens := declaration.tokens.push name }

def external (declaration : Declaration) (name : String) : Declaration :=
  { declaration with externals := declaration.externals.push name }

def withWord (declaration : Declaration) (name : String) : Declaration :=
  { declaration with word := some name }

end Declaration

def isHiddenName (name : String) : Bool := name.toList.head? == some '_'

end IncrementalParsing
