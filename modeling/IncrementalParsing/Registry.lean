import IncrementalParsing.Builtin.Language
import IncrementalParsing.Parsing.Parser

/-!
Registries of languages, and parsing by the name of a language. A registry holds languages of
different names in the order in which they were registered. It is put in place once; the built-in
language is in the registry that is there from the beginning.
-/

namespace IncrementalParsing

inductive RegistryError where
  | alreadyInstalled
  | duplicate (name : String)
deriving DecidableEq, Repr

def RegistryError.message : RegistryError → String
  | .alreadyInstalled => "the language registry is already installed"
  | .duplicate name => s!"language `{name}` is registered twice"

structure Registry where
  languages : List Language

namespace Registry

def ofLanguages (languages : List Language) : Except RegistryError Registry :=
  match firstRepeated? ∅ (languages.map (·.name)) with
  | some name => .error (.duplicate name)
  | none => .ok ⟨languages⟩

def builtin : Except (Failure ConfigurationError) Registry := do
  let language ← Builtin.language
  return ⟨[language]⟩

def get? (registry : Registry) (name : String) : Option Language :=
  registry.languages.find? (·.name == name)

def install (place : Option Registry) (languages : List Language) :
    Except RegistryError Registry := do
  let registry ← ofLanguages languages
  match place with
  | some _ => .error .alreadyInstalled
  | none => return registry

def lookup (registry : Registry) (name : String) :
    Except (Failure ConfigurationError) Language :=
  match registry.get? name with
  | some language => .ok language
  | none => refuse (.unknownLanguage name)

end Registry

/-- Parses a text, or with an old tree parses it again. Without an edit the whole texts are compared;
an edit without an old tree has nothing to apply to and is ignored. -/
def Parser.parseOver (parser : Parser) (text : Array UInt8) (old : Option ParsedTree)
    (edit : Option InputEdit) : Except (Failure ReparseError) ParsedTree :=
  match old with
  | none => (parser.parse text : Except Fault _)
  | some old =>
      parser.reparse old (edit.getD (Parser.wholeEdit old.text text)) text

end IncrementalParsing
