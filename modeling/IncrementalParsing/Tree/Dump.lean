import IncrementalParsing.Text.Lines
import IncrementalParsing.Text.Quoted
import IncrementalParsing.Text.Utf8
import IncrementalParsing.Tree.Location

/-!
Trees as text. A node is written by its kind and its range, a token by its kind and the range without
trivia, a named token with its text as well, in which unseen characters are escaped; the field of an
element stands in front. An outline has an entry for each element, indented by its depth, and a dump is
the text of the outline by lines: an entry is one line unless the name of a kind or field in it holds a
newline.
-/

namespace IncrementalParsing

namespace Tree

def renderField (tree : Tree) (field : Option FieldId) : Except Fault String :=
  match field with
  | none => .ok ""
  | some field => do
      let name ← tree.kinds.fieldName field
      return name ++ ": "

/-- The bytes of an element with the trivia in front of it. -/
def textOf (tree : Tree) (placed : Placed) : Array UInt8 := placed.range.slice tree.text

/-- The bytes of a token without the trivia in front of it. -/
def tokenText (tree : Tree) (placed : Placed) : Array UInt8 := placed.tokenRange.slice tree.text

def kindName (tree : Tree) (placed : Placed) : String := tree.kinds.name placed.kind

def isNamed (tree : Tree) (placed : Placed) : Except Fault Bool := do
  let info ← tree.kinds.info placed.kind
  return info.named

/-- The entry of an element without its indentation. -/
def describe (tree : Tree) (placed : Placed) (unseen : Char → Bool := Quoted.isCommonlyUnseen) :
    Except Fault String := do
  let label ← tree.renderField placed.field
  let name := tree.kindName placed
  if placed.isToken then
    let range := placed.tokenRange.render
    if ← tree.isNamed placed then
      let text := Quoted.quote unseen (Utf8.decodeLossy (tree.tokenText placed).toList)
      return s!"{label}{name}@{range} {text}"
    else
      return s!"{label}'{name}'@{range}"
  else
    return s!"{label}{name}@{placed.range.render}"

def indentation (depth : Nat) : String := String.ofList (List.replicate (2 * depth) ' ')

mutual

def outlineAt (tree : Tree) (unseen : Char → Bool) (depth offset : Nat) (field : Option FieldId) :
    Green.Element → Except Fault (List String)
  | .token token => do
      let entry ← tree.describe ⟨.token token, offset, field⟩ unseen
      return [indentation depth ++ entry]
  | .node head children =>
      if head.info.ropeHeight = 0 then do
        let entry ← tree.describe ⟨.node head children, offset, field⟩ unseen
        let below ← outlineAll tree unseen (depth + 1) offset none children
        return (indentation depth ++ entry) :: below
      else outlineAll tree unseen depth offset field children

def outlineAll (tree : Tree) (unseen : Char → Bool) (depth offset : Nat) (field : Option FieldId) :
    List Green.Child → Except Fault (List String)
  | [] => .ok []
  | ⟨own, element⟩ :: rest => do
      let first ← outlineAt tree unseen depth offset (own.or field) element
      let others ← outlineAll tree unseen depth (offset + element.textLength) field rest
      return first ++ others

end

/-- The entries of a tree. The root is written as a node even if it is a rope. -/
def outline (tree : Tree) (unseen : Char → Bool) : Except Fault (List String) := do
  let entry ← tree.describe tree.placedRoot unseen
  let below ← outlineAll tree unseen 1 0 none tree.root.children
  return entry :: below

/-- The lines of a tree's outline, each entry of which is followed by a newline. -/
def dump (tree : Tree) (unseen : Char → Bool := Quoted.isCommonlyUnseen) : Except Fault (List String) := do
  let entries ← tree.outline unseen
  return entries.flatMap fun entry => Lines.ofString (entry ++ "\n")

end Tree

end IncrementalParsing
