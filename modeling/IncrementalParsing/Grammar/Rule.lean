/-!
Rules. A rule describes a set of token sequences by literal texts, references to other rules and
tokens, sequences, choices and repetitions. Precedences and field labels are annotations: they do not
change the sequences described, only how ties are settled and how the children of a node are named.
-/

namespace IncrementalParsing

inductive Assoc where
  | none
  | left
  | right
deriving DecidableEq, Repr, Hashable

inductive Rule where
  | blank
  /-- A text matched as it stands, which becomes an anonymous token. -/
  | literal (text : String)
  /-- A rule, a scanned token or an immediate token by its name. -/
  | symbol (name : String)
  | sequence (rules : List Rule)
  | choice (rules : List Rule)
  | repeated (body : Rule)
  | precedence (level : Int) (assoc : Assoc) (rule : Rule)
  | field (name : String) (rule : Rule)

namespace Rule

def optional (rule : Rule) : Rule := .choice [rule, .blank]

def many (rule : Rule) : Rule := optional (.repeated rule)

def separated1 (rule : Rule) (separator : String) : Rule :=
  .sequence [rule, many (.sequence [.literal separator, rule])]

def separated (rule : Rule) (separator : String) : Rule := optional (separated1 rule separator)

mutual

/-- The literal texts of a rule in the order in which they are written, with repetitions. -/
def literals : Rule → List String
  | .blank => []
  | .literal text => [text]
  | .symbol _ => []
  | .sequence rules => literalsOfAll rules
  | .choice rules => literalsOfAll rules
  | .repeated body => body.literals
  | .precedence _ _ rule => rule.literals
  | .field _ rule => rule.literals

def literalsOfAll : List Rule → List String
  | [] => []
  | rule :: rest => rule.literals ++ literalsOfAll rest

end

end Rule

end IncrementalParsing
