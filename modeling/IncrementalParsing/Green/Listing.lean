import IncrementalParsing.Green.Rope

/-!
Green trees as text: a line for each element, ropes included, with its depth, the field that it
fills, its kind, its offset in its parent and all its metadata. The shape of a rope shows how its
joins are nested.
-/

namespace IncrementalParsing.Green

def renderFlag (flag : Bool) : String := if flag then "1" else "0"

def renderField (kinds : KindTable) (field : Option FieldId) : Except Fault String :=
  match field with
  | none => .ok ""
  | some field => do
      let name ← kinds.fieldName field
      return name ++ "="

def renderToken (kinds : KindTable) (label : String) (offset : Nat) (token : Token) : String :=
  s!"{label}'{kinds.name token.kind}' +{offset} len={token.textLength} "
    ++ s!"trimmed={token.trimmedLength} mode={token.lexMode.index} ahead={token.lookahead}"

def renderHead (kinds : KindTable) (label : String) (offset : Nat) (head : Head) : String :=
  s!"{label}{kinds.name head.kind} +{offset} len={head.textLength} "
    ++ s!"pre={head.info.preState.index} first={head.info.firstLexMode.index} "
    ++ s!"next={head.info.nextLexMode.index} ahead={head.info.lookahead} "
    ++ s!"error={renderFlag head.info.hasError} fragile={renderFlag head.info.fragile} "
    ++ s!"rope={head.info.ropeHeight}"

mutual

def listingAt (kinds : KindTable) (depth offset : Nat) (field : Option FieldId) :
    Element → Except Fault (List String)
  | .token token => do
      let label ← renderField kinds field
      return [s!"{depth} " ++ renderToken kinds label offset token]
  | .node head children => do
      let label ← renderField kinds field
      let below ← listingAll kinds (depth + 1) 0 children
      return (s!"{depth} " ++ renderHead kinds label offset head) :: below

/-- The lines of consecutive children, the first of which begins at `offset` in its parent. -/
def listingAll (kinds : KindTable) (depth offset : Nat) :
    List Child → Except Fault (List String)
  | [] => .ok []
  | ⟨field, element⟩ :: rest => do
      let first ← listingAt kinds depth offset field element
      let others ← listingAll kinds depth (offset + element.textLength) rest
      return first ++ others

end

mutual

/-- The shape of an element: of a base rope the state in which it was begun, of a join the shapes of
its two halves in brackets. -/
def shapeOf : Element → String
  | .token _ => ""
  | .node head children =>
      if head.info.ropeHeight ≤ 1 then toString head.info.preState.index
      else "(" ++ shapeOfAll children ++ ")"

def shapeOfAll : List Child → String
  | [] => ""
  | [⟨_, element⟩] => shapeOf element
  | ⟨_, element⟩ :: rest => shapeOf element ++ " " ++ shapeOfAll rest

end

def Rope.shape (rope : Node) : String := shapeOf rope.element

def listing (kinds : KindTable) (root : Node) : Except Fault (List String) :=
  listingAt kinds 0 0 none root.element

end IncrementalParsing.Green
