import IncrementalParsing.Builtin.Rules

/-!
Statements of the built-in language.
-/

namespace IncrementalParsing.Builtin

def statementNames : List String :=
  ["variable_declaration", "constant_declaration", "function_declaration", "struct_declaration",
    "enum_declaration", "impl_block", "type_alias", "module_declaration", "use_statement",
    "if_statement", "while_statement", "for_statement", "match_statement", "try_statement",
    "return_statement", "break_statement", "continue_statement", "throw_statement",
    "expression_statement", "block"]

/-- A condition and the block that depends on it, behind a keyword. -/
def guarded (keyword : String) : List Rule :=
  [text keyword, .field "condition" (ref "_expression"), .field "consequence" (ref "block")]

def statementRules : List (String × Rule) :=
  [ ("_statement", anyRef statementNames),
    ("if_statement",
      .sequence (guarded "if" ++ [(ref "elif_clause").many, maybe (ref "else_clause")])),
    ("elif_clause", .sequence (guarded "elif")),
    ("else_clause", .sequence [text "else", .field "body" (ref "block")]),
    ("while_statement",
      .sequence [text "while", .field "condition" (ref "_expression"),
        .field "body" (ref "block")]),
    ("for_statement",
      .sequence [text "for", ref "identifier", text "in", .field "iterable" (ref "_expression"),
        .field "body" (ref "block")]),
    ("match_statement",
      .sequence [text "match", .field "value" (ref "_expression"), text "\x7b",
        (ref "match_arm").many, text "\x7d"]),
    ("match_arm",
      .sequence [ref "pattern", text "=>", .choice [ref "_expression", ref "block"], text ","]),
    ("pattern", .choice [ref "identifier", ref "_literal", text "_"]),
    ("try_statement",
      .sequence [text "try", ref "block", .repeated (ref "catch_clause")]),
    ("catch_clause",
      .sequence [text "catch", maybe (.sequence [text "(", ref "identifier", text ")"]),
        ref "block"]),
    ("return_statement", .sequence [text "return", maybe (ref "_expression"), text ";"]),
    ("break_statement", .sequence [text "break", text ";"]),
    ("continue_statement", .sequence [text "continue", text ";"]),
    ("throw_statement", .sequence [text "throw", ref "_expression", text ";"]),
    ("expression_statement", .sequence [ref "_expression", text ";"]),
    ("block", .sequence [text "\x7b", (ref "_statement").many, text "\x7d"]) ]

end IncrementalParsing.Builtin
