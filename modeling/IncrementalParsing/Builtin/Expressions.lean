import IncrementalParsing.Builtin.Rules

/-!
Expressions and literals of the built-in language.
-/

namespace IncrementalParsing.Builtin

inductive Binding where
  | assign
  | ternary
  | or
  | and
  | comparative
  | bitwiseOr
  | bitwiseXor
  | bitwiseAnd
  | shift
  | additive
  | multiplicative
  | power
  | unary
  | primary
deriving DecidableEq, Repr

/-- The precedence of a group; the operators that combine bits alone begin at zero. -/
def Binding.level : Binding → Int
  | .assign => -5
  | .ternary => -4
  | .or => -3
  | .and => -2
  | .comparative => -1
  | .bitwiseOr => 0
  | .bitwiseXor => 1
  | .bitwiseAnd => 2
  | .shift => 3
  | .additive => 4
  | .multiplicative => 5
  | .power => 6
  | .unary => 7
  | .primary => 8

def expressionNames : List String :=
  ["identifier", "_literal", "binary_expression", "unary_expression", "call_expression",
    "index_expression", "member_expression", "assignment_expression", "update_expression",
    "ternary_expression", "range_expression", "array_literal", "map_literal",
    "parenthesized_expression", "self"]

def binaryOperators : List (Binding × List String) :=
  [ (.or, ["||"]), (.and, ["&&"]), (.bitwiseOr, ["|"]), (.bitwiseXor, ["^"]),
    (.bitwiseAnd, ["&"]), (.comparative, ["==", "!=", "<", ">", "<=", ">="]),
    (.shift, ["<<", ">>"]), (.additive, ["+", "-"]), (.multiplicative, ["*", "/", "%"]),
    (.power, ["**"]) ]

def assignmentOperators : List String :=
  ["=", "+=", "-=", "*=", "/=", "%=", "&=", "|=", "^=", "<<=", ">>="]

/-- A sequence whose strength is that of a group, for operators that do not repeat. -/
def bound (binding : Binding) (assoc : Assoc) (rules : List Rule) : Rule :=
  .precedence binding.level assoc (.sequence rules)

def binaryOperation (entry : Binding × List String) : Rule :=
  bound entry.1 .left
    [.field "left" (ref "_expression"), .field "operator" (anyText entry.2),
      .field "right" (ref "_expression")]

def expressionRules : List (String × Rule) :=
  [ ("_expression", anyRef expressionNames),
    ("binary_expression", .choice (binaryOperators.map binaryOperation)),
    ("unary_expression",
      bound .unary .none
        [.field "operator" (anyText ["!", "-", "+", "~"]),
          .field "argument" (ref "_expression")]),
    ("update_expression",
      .choice
        [bound .unary .left [ref "_expression", anyText ["++", "--"]],
          bound .unary .right [anyText ["++", "--"], ref "_expression"]]),
    ("ternary_expression",
      bound .ternary .right
        [.field "condition" (ref "_expression"), text "?",
          .field "consequence" (ref "_expression"), text ":",
          .field "alternative" (ref "_expression")]),
    ("assignment_expression",
      bound .assign .right
        [.field "left" (anyRef ["identifier", "member_expression", "index_expression"]),
          .field "operator" (anyText assignmentOperators),
          .field "right" (ref "_expression")]),
    ("call_expression",
      bound .primary .none
        [.field "function" (anyRef ["identifier", "member_expression"]),
          .field "arguments" (ref "argument_list")]),
    ("argument_list", delimited "(" (ref "_expression") ")"),
    ("member_expression",
      bound .primary .none
        [.field "object" (ref "_expression"), text ".", .field "property" (ref "identifier")]),
    ("index_expression",
      bound .primary .none
        [.field "object" (ref "_expression"), text "[", .field "index" (ref "_expression"),
          text "]"]),
    ("range_expression",
      bound .comparative .left [ref "_expression", anyText ["..", "..="], ref "_expression"]),
    ("array_literal", delimited "[" (ref "_expression") "]"),
    ("map_literal",
      .precedence 1 .none (.sequence [text "\x7b", commaList (ref "map_entry"), text "\x7d"])),
    ("map_entry",
      .sequence [.field "key" (ref "_expression"), text ":", .field "value" (ref "_expression")]),
    ("parenthesized_expression", .sequence [text "(", ref "_expression", text ")"]),
    ("self", text "self") ]

def literalRules : List (String × Rule) :=
  [ ("_literal",
      anyRef ["integer_literal", "float_literal", "string_literal", "fstring_literal",
        "boolean_literal", "null_literal"]),
    ("string_literal",
      .sequence [text "\"", (anyRef ["string_content", "escape_sequence"]).many, text "\""]),
    ("fstring_literal",
      .sequence [text "f\"",
        (anyRef ["fstring_content", "fstring_interpolation", "escape_sequence"]).many,
        text "\""]),
    ("fstring_interpolation", .sequence [text "\x7b", ref "_expression", text "\x7d"]),
    ("boolean_literal", anyText ["true", "false"]),
    ("null_literal", text "null") ]

end IncrementalParsing.Builtin
