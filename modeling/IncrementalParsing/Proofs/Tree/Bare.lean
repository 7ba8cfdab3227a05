import IncrementalParsing.Proofs.Green.Bare
import IncrementalParsing.Proofs.Parsing.Reuse
import IncrementalParsing.Tree.Dump

/-!
What a dump shows. The outline of a tree tells kinds, ranges, fields and the texts of tokens, and ropes are
not seen in it. So trees over one text have the same dump when their roots, laid bare, hold the same
children. In a text of ASCII no character has to be escaped for not being seen.
-/

namespace IncrementalParsing

open Green

namespace Green

theorem lengthOf_opened {child : Child} (spans : child.element.Spans) :
    lengthOf (opened child) = child.element.textLength := by
  unfold opened
  split
  · rename_i rope
    cases shape : child.element with
    | token leaf =>
        rw [shape] at rope
        cases rope
    | node head children =>
        rw [shape] at spans
        have relabelled := lengthOf_map (fun inner : Child => inner.inherit child.field) (fun _ => rfl) children
        exact relabelled.trans spans.symm
  · simp

theorem lengthOf_flatMap_opened : ∀ {children : List Child},
    (∀ child, child ∈ children → child.element.Spans) → lengthOf (children.flatMap opened) = lengthOf children
  | [], _ => rfl
  | child :: rest, spans => by
      rw [List.flatMap_cons, lengthOf_append, lengthOf_opened (spans child List.mem_cons_self),
        lengthOf_flatMap_opened fun other member => spans other (List.mem_cons_of_mem _ member), lengthOf_cons]

mutual

theorem Element.spans_bare : ∀ element : Element, element.Everywhere Element.Spans → element.bare.Spans
  | .token leaf, _ => by
      rw [Element.bare]
      trivial
  | .node head children, spans => by
      have within : head.textLength = lengthOf children := spans.here
      rw [Element.bare_node]
      split
      · exact within.trans (lengthOf_bareAll children).symm
      · change head.textLength = lengthOf (plainly children)
        rw [plainly, lengthOf_flatMap_opened (spans_bareAll children spans.inside), lengthOf_bareAll]
        exact within

theorem spans_bareAll : ∀ children : List Child,
    (∀ child, child ∈ children → child.element.Everywhere Element.Spans) →
    ∀ child, child ∈ bareAll children → child.element.Spans
  | [], _, child, member => by simp at member
  | ⟨field, element⟩ :: rest, spans, child, member => by
      rw [bareAll] at member
      rcases List.mem_cons.mp member with rfl | later
      · exact Element.spans_bare element (spans _ List.mem_cons_self)
      · exact spans_bareAll rest (fun other among => spans other (List.mem_cons_of_mem _ among)) child later

end

end Green

/-! ### Texts in ASCII -/

namespace Utf8

theorem continuation_zero (low high : UInt8) (value : Nat) (bytes : List UInt8) :
    continuation 0 low high value bytes = (value, 0, bytes) := by
  cases bytes <;> rfl

theorem scalars_ascii : ∀ bytes : List UInt8, (∀ byte, byte ∈ bytes → byte < 0x80) →
    scalars bytes = bytes.map fun byte => some (Char.ofNat byte.toNat)
  | [], _ => by rw [scalars, List.map_nil]
  | byte :: rest, ascii => by
      have low : byte < 0x80 := ascii byte List.mem_cons_self
      rw [scalars, lead?, if_pos low]
      simp only [continuation_zero, leadBits, if_pos, List.map_cons]
      rw [scalars_ascii rest fun later member => ascii later (List.mem_cons_of_mem _ member)]

end Utf8

namespace Quoted

theorem escape_ascii {unseen seen : Char → Bool} {char : Char} (ascii : char.toNat < 0x80) :
    escape unseen char = escape seen char := by
  unfold escape
  rw [decide_eq_false (Nat.not_le.mpr ascii), Bool.false_and, Bool.false_and]

theorem quote_ascii {unseen seen : Char → Bool} {bytes : List UInt8}
    (ascii : ∀ byte, byte ∈ bytes → byte < 0x80) :
    quote unseen (Utf8.decodeLossy bytes) = quote seen (Utf8.decodeLossy bytes) := by
  have escapes : ∀ byte, byte ∈ bytes →
      escape unseen (Char.ofNat byte.toNat) = escape seen (Char.ofNat byte.toNat) := by
    intro byte member
    have low : byte.toNat < 0x80 := ascii byte member
    refine escape_ascii ?_
    rw [Char.ofNat, dif_pos (.inl (Nat.lt_trans low (by decide)))]
    exact low
  unfold quote Utf8.decodeLossy
  rw [Utf8.scalars_ascii bytes ascii, String.toList_ofList, List.map_map, List.flatMap_map, List.flatMap_map]
  exact congrArg (fun inner => String.ofList ('"' :: inner ++ ['"'])) (List.flatMap_congr escapes)

end Quoted

namespace Tree

variable (tree : Tree) (unseen : Char → Bool) (depth : Nat)

theorem describe_bare (element : Element) (offset : Nat) (field : Option FieldId) :
    tree.describe ⟨element.bare, offset, field⟩ unseen = tree.describe ⟨element, offset, field⟩ unseen := by
  have leading : (⟨element.bare, offset, field⟩ : Placed).leading =
      (⟨element, offset, field⟩ : Placed).leading := by
    cases element with
    | token leaf => rw [Element.bare]; rfl
    | node head children => rw [Element.bare_node]; split <;> rfl
  have kind : (⟨element.bare, offset, field⟩ : Placed).kind = (⟨element, offset, field⟩ : Placed).kind :=
    Element.kind_bare element
  have isToken : (⟨element.bare, offset, field⟩ : Placed).isToken =
      (⟨element, offset, field⟩ : Placed).isToken :=
    Element.isToken_bare element
  have range : (⟨element.bare, offset, field⟩ : Placed).range = (⟨element, offset, field⟩ : Placed).range := by
    unfold Placed.range
    rw [Element.textLength_bare]
  unfold describe kindName isNamed tokenText Placed.tokenRange
  rw [leading, kind, isToken, range]

theorem outlineAll_append (field : Option FieldId) (right : List Child) : ∀ (left : List Child) (offset : Nat),
    outlineAll tree unseen depth offset field (left ++ right) = (do
      let first ← outlineAll tree unseen depth offset field left
      let others ← outlineAll tree unseen depth (offset + lengthOf left) field right
      return first ++ others)
  | [], offset => by
      rw [List.nil_append, outlineAll]
      change _ = outlineAll tree unseen depth offset field right >>= pure
      rw [bind_pure]
  | ⟨own, element⟩ :: rest, offset => by
      rw [List.cons_append, outlineAll, outlineAll, outlineAll_append field right rest, lengthOf_cons, Nat.add_assoc]
      simp only [bind_assoc, pure_bind, List.append_assoc]

theorem outlineAll_inherit (own field : Option FieldId) : ∀ (children : List Child) (offset : Nat),
    outlineAll tree unseen depth offset field (children.map (·.inherit own)) =
      outlineAll tree unseen depth offset (own.or field) children
  | [], offset => by simp [outlineAll]
  | ⟨label, element⟩ :: rest, offset => by
      rw [List.map_cons]
      change outlineAll tree unseen depth offset field (⟨label.or own, element⟩ :: rest.map (·.inherit own)) = _
      rw [outlineAll, outlineAll, outlineAll_inherit own field rest, Option.or_assoc]

theorem outlineAll_opened (field : Option FieldId) : ∀ (children : List Child) (offset : Nat),
    (∀ child, child ∈ children → child.element.Spans) →
    outlineAll tree unseen depth offset field (children.flatMap opened) =
      outlineAll tree unseen depth offset field children
  | [], _, _ => rfl
  | child :: rest, offset, spans => by
      have here := spans child List.mem_cons_self
      have first : outlineAll tree unseen depth offset field (opened child) =
          outlineAt tree unseen depth offset (child.field.or field) child.element := by
        unfold opened
        split
        · rename_i rope
          rw [outlineAll_inherit]
          cases shape : child.element with
          | token leaf =>
              rw [shape] at rope
              cases rope
          | node head children =>
              rw [shape] at rope
              rw [outlineAt, if_neg (bne_iff_ne.mp rope)]
              rfl
        · rw [outlineAll, outlineAll]
          change (do
            let first ← outlineAt tree unseen depth offset (child.field.or field) child.element
            return first ++ []) = _
          simp only [List.append_nil, bind_pure]
      rw [List.flatMap_cons, outlineAll_append, first, lengthOf_opened here,
        outlineAll_opened field rest _ fun other member => spans other (List.mem_cons_of_mem _ member), outlineAll]

mutual

theorem outlineAt_bare : ∀ (element : Element) (depth offset : Nat) (field : Option FieldId),
    element.Everywhere Element.Spans →
    outlineAt tree unseen depth offset field element.bare = outlineAt tree unseen depth offset field element
  | .token leaf, depth, offset, field, _ => by
      have entry := describe_bare tree unseen (.token leaf) offset field
      rw [Element.bare] at entry ⊢
      rw [outlineAt, outlineAt, entry]
  | .node head children, depth, offset, field, spans => by
      have entry := describe_bare tree unseen (.node head children) offset field
      rw [Element.bare_node] at entry ⊢
      by_cases ordinary : head.info.ropeHeight = 0
      · rw [if_pos ordinary] at entry ⊢
        rw [outlineAt, outlineAt, if_pos (show (Head.bare _ _ 0).info.ropeHeight = 0 from rfl), if_pos ordinary,
          entry, outlineAll_bare children (depth + 1) offset none spans.inside]
      · rw [if_neg ordinary, outlineAt, outlineAt,
          if_neg (show ¬ (Head.bare _ _ 1).info.ropeHeight = 0 from Nat.one_ne_zero), if_neg ordinary, plainly,
          outlineAll_opened tree unseen depth field _ offset (spans_bareAll children spans.inside),
          outlineAll_bare children depth offset field spans.inside]

theorem outlineAll_bare : ∀ (children : List Child) (depth offset : Nat) (field : Option FieldId),
    (∀ child, child ∈ children → child.element.Everywhere Element.Spans) →
    outlineAll tree unseen depth offset field (bareAll children) = outlineAll tree unseen depth offset field children
  | [], _, _, _, _ => by simp
  | ⟨own, element⟩ :: rest, depth, offset, field, spans => by
      rw [bareAll, outlineAll, outlineAll, outlineAt_bare element depth offset _ (spans _ List.mem_cons_self),
        outlineAll_bare rest depth _ field fun other member => spans other (List.mem_cons_of_mem _ member),
        Element.textLength_bare]

end

section SameEntries

variable {tree other : Tree} {unseen seen : Char → Bool}

mutual

/-- An outline is put together from its entries and does not look at the root. -/
theorem outlineAt_of_describe (same : ∀ placed, tree.describe placed unseen = other.describe placed seen) :
    ∀ (element : Element) (depth offset : Nat) (field : Option FieldId),
      outlineAt tree unseen depth offset field element = outlineAt other seen depth offset field element
  | .token leaf, depth, offset, field => by
      rw [outlineAt, outlineAt, same]
  | .node head children, depth, offset, field => by
      rw [outlineAt, outlineAt, same, outlineAll_of_describe same children, outlineAll_of_describe same children]

theorem outlineAll_of_describe (same : ∀ placed, tree.describe placed unseen = other.describe placed seen) :
    ∀ (children : List Child) (depth offset : Nat) (field : Option FieldId),
      outlineAll tree unseen depth offset field children = outlineAll other seen depth offset field children
  | [], _, _, _ => by rw [outlineAll, outlineAll]
  | ⟨own, element⟩ :: rest, depth, offset, field => by
      rw [outlineAll, outlineAll, outlineAt_of_describe same element, outlineAll_of_describe same rest]

end

theorem describe_sameText (text : tree.text = other.text) (kinds : tree.kinds = other.kinds) (placed : Placed) :
    tree.describe placed unseen = other.describe placed unseen := by
  unfold describe renderField kindName isNamed tokenText
  rw [text, kinds]

theorem describe_ascii (ascii : ∀ byte, byte ∈ tree.text.toList → byte < 0x80) (placed : Placed) :
    tree.describe placed unseen = tree.describe placed seen := by
  have slice : ∀ byte, byte ∈ (tree.tokenText placed).toList → byte < 0x80 := by
    intro byte member
    unfold tokenText TextRange.slice at member
    rw [Array.toList_extract] at member
    exact ascii byte (List.mem_of_mem_drop (List.mem_of_mem_take member))
  unfold describe
  rw [Quoted.quote_ascii slice]

theorem dump_ascii (ascii : ∀ byte, byte ∈ tree.text.toList → byte < 0x80) : tree.dump unseen = tree.dump seen := by
  unfold dump outline
  rw [describe_ascii ascii, outlineAll_of_describe (describe_ascii ascii)]

end SameEntries

end Tree

structure Green.Node.LooksLike (node other : Node) : Prop where
  kind : node.kind = other.kind
  textLength : node.textLength = other.textLength
  children : plainly node.children = plainly other.children

theorem Green.Node.LooksLike.tokens {node other : Node} (alike : node.LooksLike other) :
    node.element.tokens.map Token.bare = other.element.tokens.map Token.bare := by
  have seen := congrArg tokensOf alike.children
  unfold plainly at seen
  rw [tokensOf_flatMap_opened, tokensOf_flatMap_opened, tokensOf_bareAll, tokensOf_bareAll] at seen
  change (tokensOf node.children).map _ = (tokensOf other.children).map _
  exact seen

theorem Tree.dump_of_looksLike {tree other : Tree} (text : tree.text = other.text) (kinds : tree.kinds = other.kinds)
    (spans : tree.root.element.Everywhere Element.Spans) (otherSpans : other.root.element.Everywhere Element.Spans)
    (alike : tree.root.LooksLike other.root) (unseen : Char → Bool) : tree.dump unseen = other.dump unseen := by
  obtain ⟨root, bytes, names⟩ := tree
  obtain ⟨otherRoot, _, _⟩ := other
  cases text
  cases kinds
  have seen : ∀ root : Node, root.element.Everywhere Element.Spans →
      outlineAll ⟨root, bytes, names⟩ unseen 1 0 none root.children =
        outlineAll ⟨root, bytes, names⟩ unseen 1 0 none (plainly root.children) := by
    intro root spans
    rw [plainly, outlineAll_opened _ unseen 1 none _ 0 (spans_bareAll root.children spans.inside),
      outlineAll_bare _ unseen root.children 1 0 none spans.inside]
  have entry : describe ⟨root, bytes, names⟩ ⟨root.element, 0, none⟩ unseen =
      describe ⟨otherRoot, bytes, names⟩ ⟨otherRoot.element, 0, none⟩ unseen := by
    change (do
      let label ← renderField ⟨root, bytes, names⟩ none
      return s!"{label}{names.name root.kind}@{TextRange.render ⟨0, 0 + root.textLength⟩}") = _
    rw [alike.kind, alike.textLength]
    rfl
  have below : outlineAll ⟨root, bytes, names⟩ unseen 1 0 none root.children =
      outlineAll ⟨otherRoot, bytes, names⟩ unseen 1 0 none otherRoot.children := by
    rw [seen root spans, seen otherRoot otherSpans, alike.children]
    exact outlineAll_of_describe
      (@describe_sameText ⟨root, bytes, names⟩ ⟨otherRoot, bytes, names⟩ unseen rfl rfl) _ 1 0 none
  unfold dump outline
  change (do
    let entries ← (do
      let entry ← describe ⟨root, bytes, names⟩ ⟨root.element, 0, none⟩ unseen
      let below ← outlineAll ⟨root, bytes, names⟩ unseen 1 0 none root.children
      return entry :: below : Except Fault (List String))
    return entries.flatMap fun entry => Lines.ofString (entry ++ "\n")) = _
  rw [entry, below]
  rfl

end IncrementalParsing
