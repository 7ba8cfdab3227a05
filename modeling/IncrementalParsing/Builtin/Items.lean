import IncrementalParsing.Builtin.Rules

/-!
Declarations and types of the built-in language.
-/

namespace IncrementalParsing.Builtin

def typeAnnotation : Rule := maybe (.sequence [text ":", ref "_type"])

def declaredGroup (keyword part : String) : Rule :=
  .sequence [maybe (ref "pub"), text keyword, .field "name" (ref "identifier"), text "\x7b",
    (ref part).many, text "\x7d"]

def itemRules : List (String × Rule) :=
  [ ("variable_declaration",
      .sequence [maybe (ref "pub"), text "var", ref "identifier", typeAnnotation,
        maybe (.sequence [text "=", ref "_expression"]), text ";"]),
    ("constant_declaration",
      .sequence [maybe (ref "pub"), text "const", ref "identifier", typeAnnotation, text "=",
        ref "_expression", text ";"]),
    ("function_declaration",
      .sequence [maybe (ref "pub"), text "fun", .field "name" (ref "identifier"),
        .field "parameters" (ref "parameter_list"),
        maybe (.sequence [text "->", .field "return_type" (ref "_type")]),
        .field "body" (ref "block")]),
    ("parameter_list", delimited "(" (ref "parameter") ")"),
    ("parameter",
      .choice [ref "self", .sequence [ref "identifier", text ":", ref "_type"]]),
    ("struct_declaration", declaredGroup "struct" "struct_field"),
    ("struct_field",
      .sequence [maybe (ref "pub"), ref "identifier", text ":", ref "_type", text ","]),
    ("enum_declaration", declaredGroup "enum" "enum_variant"),
    ("enum_variant",
      .sequence [ref "identifier",
        maybe (.sequence [text "(", (ref "_type").separated ",", text ")"]), text ","]),
    ("impl_block",
      .sequence [text "impl", .field "type" (ref "identifier"), text "\x7b",
        (ref "function_declaration").many, text "\x7d"]),
    ("type_alias",
      .sequence [maybe (ref "pub"), text "type", ref "identifier", text "=", ref "_type",
        text ";"]),
    ("module_declaration",
      .sequence [text "mod", ref "identifier", .choice [text ";", ref "block"]]),
    ("use_statement",
      .sequence [text "use",
        .choice
          [ref "identifier",
            .sequence [ref "identifier", text "::", ref "identifier"],
            .sequence [text "from", ref "identifier", text "use",
              (ref "identifier").separated1 ","]],
        maybe (.sequence [text "as", ref "identifier"]), text ";"]),
    ("pub", text "pub") ]

def primitiveTypes : List String := ["int", "float", "str", "bool", "char", "any"]

def typeRules : List (String × Rule) :=
  [ ("_type", anyRef ["primitive_type", "array_type", "map_type", "identifier"]),
    ("primitive_type", anyText primitiveTypes),
    ("array_type", .sequence [text "array", text "<", ref "_type", text ">"]),
    ("map_type",
      .sequence [text "map", text "<", ref "_type", text ",", ref "_type", text ">"]) ]

end IncrementalParsing.Builtin
