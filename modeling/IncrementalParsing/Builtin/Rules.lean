import IncrementalParsing.Grammar.Declaration

/-!
Shorthands for writing rules, shared by the modules that declare the built-in language.
-/

namespace IncrementalParsing.Builtin

def text (literal : String) : Rule := .literal literal

def ref (name : String) : Rule := .symbol name

def anyText (literals : List String) : Rule := .choice (literals.map text)

def anyRef (names : List String) : Rule := .choice (names.map ref)

def maybe (rule : Rule) : Rule := rule.optional

def commaList (rule : Rule) : Rule := .sequence [rule.separated1 ",", maybe (text ",")]

/-- A comma list, which may be missing, between two texts. -/
def delimited (opening : String) (rule : Rule) (closing : String) : Rule :=
  .sequence [text opening, maybe (commaList rule), text closing]

end IncrementalParsing.Builtin
