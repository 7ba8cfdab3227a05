import IncrementalParsing.Green.Basic

/-!
Trees over a text. A tree is a root together with the text that its tokens lie in and the table that
names its kinds; the root has to be as long as the text, and its length is an offset.
-/

namespace IncrementalParsing

structure Tree where
  root : Green.Node
  text : Array UInt8
  kinds : KindTable

def Tree.make (root : Green.Node) (text : Array UInt8) (kinds : KindTable) : Except Fault Tree :=
  if root.textLength = text.size ∧ text.size < offsetLimit then .ok ⟨root, text, kinds⟩
  else .error .malformedArgument

end IncrementalParsing
