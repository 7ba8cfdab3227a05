import IncrementalParsing.Lalr.Compile
import IncrementalParsing.Lexing.Lexer

/-!
Languages. A language is a compiled grammar with its lexer. Trees remember the identity of the
language that they were made with, and only a language of the same identity can parse them again.
-/

namespace IncrementalParsing

structure LanguageId where
  name : String
  version : Nat
  fingerprint : Fingerprint
deriving DecidableEq

structure Language where
  lexer : Lexer

namespace Language

def table (language : Language) : Table := language.lexer.table

def id (language : Language) : LanguageId :=
  ⟨language.table.name, language.table.version, language.table.fingerprint⟩

def name (language : Language) : String := language.table.name

def compile (declaration : Declaration) (scanner : Scanner) :
    Except (Failure ConfigurationError) Language := do
  let table ← declaration.compile
  let lexer ← Lexer.make table scanner
  return ⟨lexer⟩

end Language

end IncrementalParsing
