import IncrementalParsing.Tree.Location

/-!
Diagnostics. Every error node that lies in no other error node is reported, in text order, with the
first token in it that is neither the end of the input nor an error itself.
-/

namespace IncrementalParsing

structure Diagnostic where
  message : String
  range : TextRange
deriving DecidableEq, Repr

namespace Diagnostic

def describe (kinds : KindTable) (node : Location) : Except Fault String := do
  let unexpected? := node.descendantsWithTokens.find? fun location =>
    location.isToken && location.here.kind != .endOfInput && !location.here.isError
  match unexpected? with
  | none => return "unrecognized input"
  | some token =>
      let name := kinds.name token.here.kind
      let info ← kinds.info token.here.kind
      return if info.named then s!"unexpected {name}" else s!"unexpected `{name}`"

def ofErrorNode (kinds : KindTable) (node : Location) : Except Fault Diagnostic := do
  let message ← describe kinds node
  return ⟨message, node.trimmedRange⟩

mutual

/-- The outermost error nodes at or below a place. -/
def errorNodesAt (here : Placed) (path : List Crumb) : List Location :=
  if here.isToken then []
  else if here.isError then [⟨here, path⟩]
  else errorNodesAmong here path [] here.children
termination_by 2 * here.element.weight
decreasing_by
  have := here.weight_children
  omega

/-- The outermost error nodes at or below consecutive children of `parent`. -/
def errorNodesAmong (parent : Placed) (path : List Crumb) (before : List Placed) :
    List Placed → List Location
  | [] => []
  | first :: after =>
      errorNodesAt first (⟨parent, before, after⟩ :: path)
        ++ errorNodesAmong parent path (first :: before) after
termination_by items => 2 * placedWeight items + 1
decreasing_by
  · simp only [placedWeight_cons]
    omega
  · have := first.element.weight_pos
    simp only [placedWeight_cons]
    omega

end

def collect (tree : Tree) : Except Fault (List Diagnostic) :=
  (errorNodesAt tree.placedRoot []).mapM (ofErrorNode tree.kinds)

end Diagnostic

end IncrementalParsing
