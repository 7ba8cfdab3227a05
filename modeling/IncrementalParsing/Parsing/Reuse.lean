import IncrementalParsing.Green.Basic
import IncrementalParsing.Parsing.Edit

/-!
Reuse of old subtrees. While a new text is parsed from left to right, a cursor goes through the old
tree and offers, at each offset, the largest element there that the change cannot have affected. The
cursor holds the old elements still to come in text order, so it only moves forward: elements that
lie behind are dropped, and an element that is of no use as a whole is replaced by its children.

Offsets are added as numbers without a width. The cursor is for trees in which the end of whatever was
examined for an element is an offset itself.
-/

namespace IncrementalParsing

structure OldElement where
  start : Nat
  element : Green.Element

def OldElement.stop (old : OldElement) : Nat := old.start + old.element.textLength

def OldElement.ofChildren (start : Nat) : List Green.Child → List OldElement
  | [] => []
  | child :: rest =>
      ⟨start, child.element⟩ :: ofChildren (start + child.element.textLength) rest

/-- The old elements still to come, and the change between the texts. -/
structure ReuseCursor where
  pending : List OldElement
  change : Change

namespace ReuseCursor

/-- The number of nodes and tokens still to come. -/
def size (pending : List OldElement) : Nat := sumOf (pending.map (·.element.weight))

theorem size_ofChildren (start : Nat) (children : List Green.Child) :
    size (OldElement.ofChildren start children) = Green.weightAll children := by
  induction children generalizing start with
  | nil => rfl
  | cons child rest ih =>
      simp only [size, OldElement.ofChildren, List.map_cons, sumOf_cons, Green.weightAll]
      rw [← ih (start + child.element.textLength)]
      rfl

theorem size_append (left right : List OldElement) :
    size (left ++ right) = size left + size right := by
  simp [size]

def start (root : Green.Node) (change : Change) : ReuseCursor :=
  ⟨OldElement.ofChildren 0 root.children, change⟩

def descend (cursor : ReuseCursor) : ReuseCursor :=
  match cursor.pending with
  | ⟨start, .node _ (first :: others)⟩ :: rest =>
      { cursor with pending := OldElement.ofChildren start (first :: others) ++ rest }
  | _ => cursor

/-- Whether the change cannot have affected an element that is worth keeping: not empty, without
error, not fragile and not the end of the input. -/
def isReusable (change : Change) (old : OldElement) : Bool :=
  old.element.textLength > 0 && !old.element.hasError && !old.element.isFragile
    && old.element.kind != .endOfInput
    && !change.affects old.start (old.stop + old.element.lookahead)

/-- Goes on to the largest reusable element that begins at the old offset `target`. Empty elements
are passed over. -/
def seek (change : Change) (target : Nat) : List OldElement → Option Green.Element × List OldElement
  | [] => (none, [])
  | old :: rest =>
      if old.stop ≤ target then seek change target rest
      else if old.start > target then (none, old :: rest)
      else if old.start = target ∧ isReusable change old then (some old.element, old :: rest)
      else
        match _shape : old.element with
        | .token _ => (none, old :: rest)
        | .node _ children => seek change target (OldElement.ofChildren old.start children ++ rest)
termination_by pending => size pending
decreasing_by
  · simp only [size, List.map_cons, sumOf_cons]
    have := old.element.weight_pos
    omega
  · rw [size_append, size_ofChildren]
    simp only [size, List.map_cons, sumOf_cons, _shape, Green.Element.weight]
    omega

/-- The largest reusable old element that begins at an offset of the new text. -/
def candidate (cursor : ReuseCursor) (position : Nat) : Option Green.Element × ReuseCursor :=
  match cursor.change.toOld position with
  | none => (none, cursor)
  | some target =>
      let (found, pending) := seek cursor.change target cursor.pending
      (found, { cursor with pending })

end ReuseCursor

end IncrementalParsing
