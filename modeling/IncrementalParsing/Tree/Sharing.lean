import IncrementalParsing.Tree.Location
import Std.Data.HashSet

/-!
What two trees share. An element is shared when it is one and the same in both trees, wherever it
stands in them; what lies below a shared node is shared along with it.
-/

namespace IncrementalParsing.Tree

/-- The serial numbers of the elements of a tree, ropes left aside. -/
def serials (tree : Tree) : Std.HashSet Nat :=
  (Location.root tree).descendantsWithTokens.foldl
    (fun known location => known.insert location.here.element.serial) ∅

mutual

/-- The outermost elements at or below a place that are among the known ones. -/
def knownAt (known : Std.HashSet Nat) (here : Placed) : List Placed :=
  if known.contains here.element.serial then [here] else knownAmong known here.children
termination_by 2 * here.element.weight
decreasing_by
  have := here.weight_children
  omega

/-- The outermost known elements at or below several places. -/
def knownAmong (known : Std.HashSet Nat) : List Placed → List Placed
  | [] => []
  | first :: rest => knownAt known first ++ knownAmong known rest
termination_by items => 2 * placedWeight items + 1
decreasing_by
  · simp only [placedWeight_cons]
    omega
  · have := first.element.weight_pos
    simp only [placedWeight_cons]
    omega

end

/-- The outermost elements of a tree that are elements of an older tree. -/
def sharedWith (tree old : Tree) : List Placed := knownAt old.serials tree.placedRoot

end IncrementalParsing.Tree
