import IncrementalParsing.Builtin.Expressions
import IncrementalParsing.Builtin.Items
import IncrementalParsing.Builtin.Scanner
import IncrementalParsing.Builtin.Statements
import IncrementalParsing.Parsing.Language

/-!
The built-in language.
-/

namespace IncrementalParsing.Builtin

def languageName : String := "razen"

def rules : List (String × Rule) :=
  ("source_file", (ref "_statement").many)
    :: (statementRules ++ itemRules ++ typeRules ++ expressionRules ++ literalRules)

/-- The grammar. A sign before and an update after an operand leave it open which of them comes
first, so conflicts are settled by shifting. -/
def declaration : Declaration :=
  { name := languageName
    version := 1
    rules := rules.toArray
    tokens := tokenNames.toArray
    externals := externalNames.toArray
    word := some "identifier"
    policy := .preferShift }

def language : Except (Failure ConfigurationError) Language :=
  Language.compile declaration scanner

end IncrementalParsing.Builtin
