import IncrementalParsing.Proofs.Green.Elements

/-!
What an element holds from left to right. The tokens of a sound element are as long together as the
element, and none of them was read by looking further than the element says. A rope holds what its bases
hold one after the other, so joining ropes moves no token and no node, and loses no error.
-/

namespace IncrementalParsing.Green

/-! ### Tokens -/

theorem tokensOf_cons (child : Child) (rest : List Child) :
    tokensOf (child :: rest) = child.element.tokens ++ tokensOf rest := by
  obtain ⟨field, element⟩ := child
  rw [tokensOf]

@[simp] theorem tokensOf_append : ∀ left right : List Child,
    tokensOf (left ++ right) = tokensOf left ++ tokensOf right
  | [], right => by simp [tokensOf]
  | child :: rest, right => by
      rw [List.cons_append, tokensOf_cons, tokensOf_cons, tokensOf_append rest right, List.append_assoc]

theorem tokensOf_relabel (label : Child → Option FieldId) : ∀ children : List Child,
    tokensOf (children.map (fun child => ⟨label child, child.element⟩)) = tokensOf children
  | [] => rfl
  | child :: rest => by
      rw [List.map_cons, tokensOf_cons, tokensOf_cons, tokensOf_relabel label rest]

def lengthOfTokens (tokens : List Token) : Nat := sumOf (tokens.map (·.textLength))

@[simp] theorem lengthOfTokens_nil : lengthOfTokens [] = 0 := rfl

@[simp] theorem lengthOfTokens_cons (token : Token) (rest : List Token) :
    lengthOfTokens (token :: rest) = token.textLength + lengthOfTokens rest := by
  simp [lengthOfTokens]

@[simp] theorem lengthOfTokens_append (left right : List Token) :
    lengthOfTokens (left ++ right) = lengthOfTokens left + lengthOfTokens right := by
  simp [lengthOfTokens]

/-- The furthest byte that was examined for consecutive tokens of which the first begins at `offset`. -/
def reach (offset : Nat) : List Token → Nat
  | [] => 0
  | token :: rest =>
      max (offset + token.textLength + token.lookahead) (reach (offset + token.textLength) rest)

theorem reach_append : ∀ (left right : List Token) (offset : Nat),
    reach offset (left ++ right) = max (reach offset left) (reach (offset + lengthOfTokens left) right)
  | [], right, offset => by simp [reach]
  | token :: rest, right, offset => by
      rw [List.cons_append, reach, reach, reach_append rest right, lengthOfTokens_cons, Nat.max_assoc,
        ← Nat.add_assoc]

theorem lengthOfTokens_tokensOf : ∀ children : List Child,
    (∀ child, child ∈ children → lengthOfTokens child.element.tokens = child.element.textLength) →
    lengthOfTokens (tokensOf children) = lengthOf children
  | [], _ => by simp [tokensOf]
  | child :: rest, each => by
      rw [tokensOf_cons, lengthOfTokens_append, each child List.mem_cons_self, lengthOf_cons,
        lengthOfTokens_tokensOf rest (fun other among => each other (List.mem_cons_of_mem _ among))]

theorem lengthOfTokens_tokens {table : Table} {element : Element} (sound : element.Sound table) :
    lengthOfTokens element.tokens = element.textLength := by
  induction sound with
  | @token leaf _ => simp [Element.tokens, Element.textLength]
  | @node head children proper _ ih =>
      rw [Element.tokens, lengthOfTokens_tokensOf children ih]
      exact proper.1.textLength.symm

theorem le_examinedEnd : ∀ (children : List Child) (offset bound : Nat),
    bound ≤ examinedEnd offset bound children
  | [], _, _ => Nat.le_refl _
  | child :: rest, offset, bound => by
      rw [examinedEnd]
      exact Nat.le_trans (Nat.le_max_left _ _) (le_examinedEnd rest _ _)

theorem reach_tokensOf (base : Nat) : ∀ (children : List Child) (offset bound : Nat),
    (∀ child, child ∈ children → lengthOfTokens child.element.tokens = child.element.textLength ∧
      ∀ start, reach start child.element.tokens ≤
        start + child.element.textLength + child.element.lookahead) →
    reach (base + offset) (tokensOf children) ≤ base + examinedEnd offset bound children
  | [], _, _, _ => by simp [tokensOf, reach]
  | child :: rest, offset, bound, each => by
      obtain ⟨length, here⟩ := each child List.mem_cons_self
      have first := here (base + offset)
      have further := le_examinedEnd rest (offset + child.element.textLength)
        (max bound (offset + child.element.textLength + child.element.lookahead))
      have others := reach_tokensOf base rest (offset + child.element.textLength)
        (max bound (offset + child.element.textLength + child.element.lookahead))
        (fun other among => each other (List.mem_cons_of_mem _ among))
      rw [tokensOf_cons, reach_append, examinedEnd, length]
      rw [← Nat.add_assoc] at others
      omega

theorem reach_tokens_le {table : Table} {element : Element} (sound : element.Sound table) :
    ∀ offset, reach offset element.tokens ≤ offset + element.textLength + element.lookahead := by
  induction sound with
  | @token leaf _ =>
      intro offset
      simp [Element.tokens, reach, Element.textLength, Element.lookahead]
  | @node head children proper below ih =>
      intro offset
      obtain ⟨origin, made⟩ := proper.1
      have length : head.textLength = lengthOf children := congrArg Node.textLength made
      have lookahead : head.info.lookahead =
          examinedEnd 0 origin.decisionEnd children - lengthOf children :=
        congrArg (fun node : Node => node.info.lookahead) made
      have inner := reach_tokensOf offset children 0 origin.decisionEnd
        (fun child among => ⟨lengthOfTokens_tokens (below child among), ih child among⟩)
      change reach offset (Element.tokens (.node head children)) ≤ offset + head.textLength + head.info.lookahead
      rw [Element.tokens]
      rw [Nat.add_zero] at inner
      omega

theorem decisionEnd_le (serial : Nat) (kind : KindId) (children : List Child) (origin : Origin) :
    origin.decisionEnd ≤ (Node.make serial kind children origin).textLength +
      (Node.make serial kind children origin).info.lookahead := by
  have bound := le_examinedEnd children 0 origin.decisionEnd
  change _ ≤ lengthOf children + (examinedEnd 0 origin.decisionEnd children - lengthOf children)
  omega

theorem Element.firstToken?_eq (element : Element) : element.firstToken? = element.tokens.head? := by
  induction element using Element.induct with
  | token leaf => rw [Element.firstToken?, Element.tokens, List.head?_cons]
  | node head children ih =>
      rw [Element.firstToken?, Element.tokens]
      induction children with
      | nil => simp [firstTokenOf?, tokensOf]
      | cons child rest others =>
          obtain ⟨field, element⟩ := child
          have here := ih ⟨field, element⟩ List.mem_cons_self
          dsimp only at here
          rw [firstTokenOf?, tokensOf, here, others (fun other among => ih other (List.mem_cons_of_mem _ among))]
          cases element.tokens with
          | nil => rfl
          | cons token more => rfl

/-! ### Places -/

mutual

/-- Every node in an element has a property where it stands, when the element begins at `offset`; ropes
do not count as nodes. -/
def Element.HoldsFrom (holds : Nat → Node → Prop) (offset : Nat) : Element → Prop
  | .token _ => True
  | .node head children =>
      (head.info.ropeHeight = 0 → holds offset ⟨head, children⟩) ∧ AllHoldFrom holds offset children

def AllHoldFrom (holds : Nat → Node → Prop) (offset : Nat) : List Child → Prop
  | [] => True
  | ⟨_, element⟩ :: rest =>
      element.HoldsFrom holds offset ∧ AllHoldFrom holds (offset + element.textLength) rest

end

section Places

variable {holds : Nat → Node → Prop}

theorem allHoldFrom_nil {offset : Nat} : AllHoldFrom holds offset [] := by
  rw [AllHoldFrom]
  trivial

theorem allHoldFrom_cons {offset : Nat} {child : Child} {rest : List Child} :
    AllHoldFrom holds offset (child :: rest) ↔
      child.element.HoldsFrom holds offset ∧ AllHoldFrom holds (offset + child.element.textLength) rest := by
  obtain ⟨field, element⟩ := child
  rw [AllHoldFrom]

theorem allHoldFrom_append {right : List Child} : ∀ {left : List Child} {offset : Nat},
    AllHoldFrom holds offset (left ++ right) ↔
      AllHoldFrom holds offset left ∧ AllHoldFrom holds (offset + lengthOf left) right
  | [], offset => by simp [allHoldFrom_nil]
  | child :: rest, offset => by
      rw [List.cons_append, allHoldFrom_cons, allHoldFrom_cons, allHoldFrom_append, lengthOf_cons, and_assoc,
        Nat.add_assoc]

theorem allHoldFrom_relabel (label : Child → Option FieldId) : ∀ {children : List Child} {offset : Nat},
    AllHoldFrom holds offset (children.map (fun child => ⟨label child, child.element⟩)) ↔
      AllHoldFrom holds offset children
  | [], offset => Iff.rfl
  | child :: rest, offset => by
      rw [List.map_cons, allHoldFrom_cons, allHoldFrom_cons, allHoldFrom_relabel label]

theorem Element.HoldsFrom.inside {offset : Nat} {element : Element}
    (held : element.HoldsFrom holds offset) : AllHoldFrom holds offset element.children := by
  cases element with
  | token leaf => exact allHoldFrom_nil
  | node head children =>
      rw [HoldsFrom] at held
      exact held.2

theorem Element.HoldsFrom.here {offset : Nat} {head : Head} {children : List Child}
    (held : (Element.node head children).HoldsFrom holds offset) (ordinary : head.info.ropeHeight = 0) :
    holds offset ⟨head, children⟩ := by
  rw [HoldsFrom] at held
  exact held.1 ordinary

theorem Element.holdsFrom_token (leaf : Token) (offset : Nat) :
    (Element.token leaf).HoldsFrom holds offset := by
  rw [HoldsFrom]
  trivial

theorem Node.holdsFrom_iff {node : Node} {offset : Nat} : node.element.HoldsFrom holds offset ↔
    (node.height = 0 → holds offset node) ∧ AllHoldFrom holds offset node.children := by
  change (Element.node node.head node.children).HoldsFrom holds offset ↔ _
  rw [Element.HoldsFrom]
  rfl

end Places

/-! ### Errors -/

def Element.RopeNamed : Element → Prop
  | .token _ => True
  | .node head _ => head.info.ropeHeight ≠ 0 → head.kind ≠ .error

def anyError (children : List Child) : Bool := children.any (fun child => child.element.hasError)

@[simp] theorem anyError_append (left right : List Child) :
    anyError (left ++ right) = (anyError left || anyError right) := List.any_append

@[simp] theorem anyError_cons (child : Child) (rest : List Child) :
    anyError (child :: rest) = (child.element.hasError || anyError rest) := rfl

@[simp] theorem anyError_nil : anyError [] = false := rfl

theorem anyError_relabel (label : Child → Option FieldId) (children : List Child) :
    anyError (children.map (fun child => ⟨label child, child.element⟩)) = anyError children := by
  unfold anyError
  rw [List.any_map]
  rfl

theorem Node.IsMade.hasError_eq {node : Node} (made : node.IsMade) :
    node.info.hasError = (node.kind == .error || anyError node.children) := by
  obtain ⟨origin, same⟩ := made
  exact congrArg (fun node : Node => node.info.hasError) same

/-! ### Ropes -/

section Ropes

variable {table : Table}

def Node.spread (node : Node) : List Child := (ropeBases node.element).map (fun base => ⟨none, base.element⟩)

theorem Node.spread_of_low {node : Node} (low : node.height ≤ 1) : node.spread = [⟨none, node.element⟩] := by
  have only : ropeBases node.element = [node] := by
    change (if node.head.info.ropeHeight ≤ 1 then [node] else ropeBasesOf node.children) = [node]
    rw [if_pos (show node.head.info.ropeHeight ≤ 1 from low)]
  unfold spread
  rw [only]
  rfl

theorem Node.Halved.spread_eq {node left right : Node} (halved : node.Halved left right) :
    node.spread = left.spread ++ right.spread := by
  unfold spread
  rw [halved.bases_eq, List.map_append]

theorem JoinedFrom.spread_eq {kind : KindId} {left right node : Node}
    (joined : JoinedFrom table kind left right node) : node.spread = left.spread ++ right.spread := by
  unfold Node.spread
  rw [joined.bases, List.map_append]

theorem Node.Halved.children_eq {node left right : Node} (halved : node.Halved left right) :
    node.children = [⟨none, left.element⟩, ⟨none, right.element⟩] := congrArg Node.children halved.pair

theorem lengthOf_spread {node : Node} (rope : node.IsRope table) :
    lengthOf node.spread = node.textLength := by
  refine Node.IsRope.induct (motive := fun node => lengthOf node.spread = node.textLength)
    ?_ ?_ node.height (Nat.le_refl _) rope
  · intro node _ low
    rw [Node.spread_of_low low]
    simp
  · intro node left right rope halved _ _ leftLength rightLength
    rw [halved.spread_eq, lengthOf_append, leftLength, rightLength, rope.sound.here.1.textLength]
    change _ = lengthOf node.children
    rw [halved.children_eq]
    simp

theorem tokensOf_spread {node : Node} (rope : node.IsRope table) :
    tokensOf node.spread = node.element.tokens := by
  refine Node.IsRope.induct (motive := fun node => tokensOf node.spread = node.element.tokens)
    ?_ ?_ node.height (Nat.le_refl _) rope
  · intro node _ low
    rw [Node.spread_of_low low]
    simp [tokensOf]
  · intro node left right _ halved _ _ leftTokens rightTokens
    rw [halved.spread_eq, tokensOf_append, leftTokens, rightTokens]
    change _ = Element.tokens (.node node.head node.children)
    rw [Element.tokens, halved.children_eq]
    simp [tokensOf]

theorem allHoldFrom_spread {holds : Nat → Node → Prop} {node : Node} (rope : node.IsRope table) :
    ∀ offset, AllHoldFrom holds offset node.spread ↔ node.element.HoldsFrom holds offset := by
  refine Node.IsRope.induct
    (motive := fun node => ∀ offset, AllHoldFrom holds offset node.spread ↔ node.element.HoldsFrom holds offset)
    ?_ ?_ node.height (Nat.le_refl _) rope
  · intro node _ low offset
    rw [Node.spread_of_low low, allHoldFrom_cons]
    exact and_iff_left allHoldFrom_nil
  · intro node left right rope halved leftRope _ leftHolds rightHolds offset
    rw [halved.spread_eq, allHoldFrom_append, leftHolds, rightHolds, lengthOf_spread leftRope,
      @Node.holdsFrom_iff holds node, halved.children_eq, allHoldFrom_cons, allHoldFrom_cons]
    constructor
    · rintro ⟨leftHere, rightHere⟩
      exact ⟨fun low => absurd rope.height_pos (by omega), leftHere, rightHere, allHoldFrom_nil⟩
    · rintro ⟨_, leftHere, rightHere, _⟩
      exact ⟨leftHere, rightHere⟩

theorem anyError_spread {node : Node} (rope : node.IsRope table) :
    node.element.Everywhere Element.RopeNamed → anyError node.spread = node.info.hasError := by
  refine Node.IsRope.induct
    (motive := fun node => node.element.Everywhere Element.RopeNamed → anyError node.spread = node.info.hasError)
    ?_ ?_ node.height (Nat.le_refl _) rope
  · intro node _ low _
    rw [Node.spread_of_low low, anyError_cons, anyError_nil, Bool.or_false]
    rfl
  · intro node left right rope halved _ _ leftError rightError named
    have inside := named.inside
    change ∀ child, child ∈ node.children → _ at inside
    rw [halved.children_eq] at inside
    have other : node.kind ≠ .error := named.here (Nat.ne_of_gt rope.height_pos)
    rw [halved.spread_eq, anyError_append, leftError (inside _ List.mem_cons_self),
      rightError (inside _ (List.mem_cons_of_mem _ List.mem_cons_self)), rope.sound.here.1.hasError_eq]
    change _ = (node.kind == .error || anyError node.children)
    rw [beq_eq_false_iff_ne.mpr other, halved.children_eq]
    simp [Element.hasError, Node.element, Node.info]

theorem inherited_ropeNamed {kind : KindId} (other : kind ≠ .error) :
    Rope.Inherited kind (fun node => node.element.Everywhere Element.RopeNamed) where
  pair := by
    intro first second firstNamed secondNamed
    refine .node (fun _ => other) ?_
    intro child member
    rcases List.mem_cons.mp member with left | rest
    · exact left ▸ firstNamed
    · exact List.mem_singleton.mp rest ▸ secondNamed
  halves := by
    intro whole first second halved named
    have inside := named.inside
    change ∀ child, child ∈ whole.children → _ at inside
    rw [halved.children_eq] at inside
    exact ⟨inside _ List.mem_cons_self, inside _ (List.mem_cons_of_mem _ List.mem_cons_self)⟩

/-! ### Joins -/

namespace JoinedFrom

variable {kind : KindId} {left right node : Node} (joined : JoinedFrom table kind left right node)
  (leftRope : left.IsRope table) (rightRope : right.IsRope table)

include joined leftRope rightRope

theorem textLength_eq : node.textLength = left.textLength + right.textLength := by
  rw [← lengthOf_spread joined.rope, joined.spread_eq, lengthOf_append, lengthOf_spread leftRope,
    lengthOf_spread rightRope]

theorem tokens_eq : node.element.tokens = left.element.tokens ++ right.element.tokens := by
  rw [← tokensOf_spread joined.rope, joined.spread_eq, tokensOf_append, tokensOf_spread leftRope,
    tokensOf_spread rightRope]

theorem holdsFrom_iff {holds : Nat → Node → Prop} (offset : Nat) :
    node.element.HoldsFrom holds offset ↔ left.element.HoldsFrom holds offset ∧
      right.element.HoldsFrom holds (offset + left.textLength) := by
  rw [← allHoldFrom_spread joined.rope, joined.spread_eq, allHoldFrom_append, allHoldFrom_spread leftRope,
    allHoldFrom_spread rightRope, lengthOf_spread leftRope]

omit leftRope rightRope in
theorem ropeNamed (other : kind ≠ .error) (leftNamed : left.element.Everywhere Element.RopeNamed)
    (rightNamed : right.element.Everywhere Element.RopeNamed) : node.element.Everywhere Element.RopeNamed :=
  joined.inherits _ (inherited_ropeNamed other) leftNamed rightNamed

theorem hasError_eq (other : kind ≠ .error) (leftNamed : left.element.Everywhere Element.RopeNamed)
    (rightNamed : right.element.Everywhere Element.RopeNamed) :
    node.info.hasError = (left.info.hasError || right.info.hasError) := by
  rw [← anyError_spread joined.rope (joined.ropeNamed other leftNamed rightNamed), joined.spread_eq,
    anyError_append, anyError_spread leftRope leftNamed, anyError_spread rightRope rightNamed]

end JoinedFrom

end Ropes

end IncrementalParsing.Green
