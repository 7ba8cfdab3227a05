import IncrementalParsing.Proofs.Parsing.Places
import IncrementalParsing.Proofs.Tree.Conforming

/-!
What can be seen of an element. An element is laid bare by leaving out its serial numbers, all its metadata
and the shapes of its ropes, so that only kinds, lengths, trivia and fields are left and a rope holds the
children of its bases one after the other. What a parser makes of some elements, laid bare, depends on the
bare elements alone. So two parsers that hold different elements, but elements that look alike, go on making
elements that look alike.
-/

namespace IncrementalParsing

namespace Green

/-- A leaf without its serial number and without how it was lexed. -/
def Token.bare (token : Token) : Token := ⟨0, token.kind, token.leading, token.textLength, ⟨0⟩, 0⟩

def Head.bare (kind : KindId) (textLength ropeHeight : Nat) : Head :=
  ⟨0, kind, textLength, ⟨⟨0⟩, ⟨0⟩, ⟨0⟩, 0, false, false, ropeHeight⟩⟩

def opened (child : Child) : List Child :=
  if child.element.isRope then child.element.children.map (·.inherit child.field) else [child]

mutual

/-- What can be seen of an element, where a rope has no rope among its children. -/
def Element.bare : Element → Element
  | .token leaf => .token leaf.bare
  | .node head children =>
      if head.info.ropeHeight = 0 then .node (.bare head.kind head.textLength 0) (bareAll children)
      else .node (.bare head.kind head.textLength 1) ((bareAll children).flatMap opened)

def bareAll : List Child → List Child
  | [] => []
  | ⟨field, element⟩ :: rest => ⟨field, element.bare⟩ :: bareAll rest

end

def plainly (children : List Child) : List Child := (bareAll children).flatMap opened

def Child.bare (child : Child) : Child := ⟨child.field, child.element.bare⟩

@[simp] theorem bareAll_nil : bareAll [] = [] := by rw [bareAll]

@[simp] theorem bareAll_cons (child : Child) (rest : List Child) :
    bareAll (child :: rest) = Child.bare child :: bareAll rest := by
  rw [bareAll]
  rfl

theorem bareAll_eq_map : ∀ children : List Child, bareAll children = children.map Child.bare
  | [] => by simp
  | child :: rest => by rw [bareAll_cons, bareAll_eq_map rest, List.map_cons]

@[simp] theorem bareAll_append (left right : List Child) :
    bareAll (left ++ right) = bareAll left ++ bareAll right := by
  simp [bareAll_eq_map]

@[simp] theorem plainly_append (left right : List Child) :
    plainly (left ++ right) = plainly left ++ plainly right := by
  simp [plainly]

theorem Element.bare_node (head : Head) (children : List Child) : (Element.node head children).bare =
    if head.info.ropeHeight = 0 then .node (.bare head.kind head.textLength 0) (bareAll children)
    else .node (.bare head.kind head.textLength 1) (plainly children) := by
  rw [bare]
  rfl

namespace Element

@[simp] theorem kind_bare (element : Element) : element.bare.kind = element.kind := by
  cases element with
  | token leaf => rw [bare]; rfl
  | node head children => rw [bare_node]; split <;> rfl

@[simp] theorem textLength_bare (element : Element) : element.bare.textLength = element.textLength := by
  cases element with
  | token leaf => rw [bare]; rfl
  | node head children => rw [bare_node]; split <;> rfl

@[simp] theorem isToken_bare (element : Element) : element.bare.isToken = element.isToken := by
  cases element with
  | token leaf => rw [bare]; rfl
  | node head children => rw [bare_node]; split <;> rfl

@[simp] theorem isRope_bare (element : Element) : element.bare.isRope = element.isRope := by
  cases element with
  | token leaf => rw [bare]; rfl
  | node head children =>
      rw [bare_node]
      split
      · rename_i ordinary
        simp [isRope, ordinary, Head.bare]
      · rename_i rope
        simp [isRope, rope, Head.bare]

end Element

@[simp] theorem lengthOf_bareAll (children : List Child) : lengthOf (bareAll children) = lengthOf children := by
  simp [lengthOf, bareAll_eq_map, Child.bare, Function.comp_def]

theorem bareAll_relabel (label : Option FieldId → Option FieldId) : ∀ children : List Child,
    bareAll (children.map (fun child => ⟨label child.field, child.element⟩)) =
      (bareAll children).map (fun child => ⟨label child.field, child.element⟩)
  | [] => by simp
  | child :: rest => by
      rw [List.map_cons, bareAll_cons, bareAll_cons, List.map_cons, bareAll_relabel label rest]
      rfl

theorem tokensOf_opened (child : Child) : tokensOf (opened child) = child.element.tokens := by
  unfold opened
  split
  · rename_i rope
    cases shape : child.element with
    | token leaf =>
        rw [shape] at rope
        cases rope
    | node head children =>
        rw [Element.tokens]
        exact tokensOf_relabel (fun inner => inner.field.or child.field) children
  · simp [tokensOf]

theorem tokensOf_flatMap_opened : ∀ children : List Child, tokensOf (children.flatMap opened) = tokensOf children
  | [] => rfl
  | child :: rest => by
      rw [List.flatMap_cons, tokensOf_append, tokensOf_opened, tokensOf_flatMap_opened rest, tokensOf_cons]

mutual

theorem Element.tokens_bare : ∀ element : Element, element.bare.tokens = element.tokens.map Token.bare
  | .token leaf => by rw [Element.bare, Element.tokens, Element.tokens]; rfl
  | .node head children => by
      rw [Element.bare_node, Element.tokens, ← tokensOf_bareAll children]
      split
      · rw [Element.tokens]
      · rw [Element.tokens, plainly, tokensOf_flatMap_opened]

theorem tokensOf_bareAll : ∀ children : List Child,
    tokensOf (bareAll children) = (tokensOf children).map Token.bare
  | [] => by simp [tokensOf]
  | ⟨field, element⟩ :: rest => by
      rw [bareAll, tokensOf, tokensOf, Element.tokens_bare element, tokensOf_bareAll rest, List.map_append]

end

/-! ### Ropes laid bare -/

mutual

theorem Element.not_rope_of_bare : ∀ element : Element, element.isRope = true →
    ∀ child, child ∈ element.bare.children → child.element.isRope = false
  | .token leaf, rope => by cases rope
  | .node head children, rope => by
      have high : head.info.ropeHeight ≠ 0 := by simpa [Element.isRope] using rope
      rw [Element.bare_node, if_neg high]
      exact not_rope_of_plainly children

theorem not_rope_of_plainly : ∀ children : List Child,
    ∀ child, child ∈ plainly children → child.element.isRope = false
  | [], child, member => by simp [plainly] at member
  | ⟨field, element⟩ :: rest, child, member => by
      unfold plainly at member
      rw [bareAll, List.flatMap_cons] at member
      rcases List.mem_append.mp member with first | later
      · unfold opened at first
        split at first
        · rename_i rope
          obtain ⟨inner, among, rfl⟩ := List.mem_map.mp first
          exact Element.not_rope_of_bare element (by simpa using rope) inner among
        · rename_i ordinary
          cases List.mem_singleton.mp first
          simpa using ordinary
      · exact not_rope_of_plainly rest child later

end

theorem flatMap_opened_of_not_rope : ∀ {children : List Child},
    (∀ child, child ∈ children → child.element.isRope = false) → children.flatMap opened = children
  | [], _ => rfl
  | child :: rest, ordinary => by
      rw [List.flatMap_cons,
        flatMap_opened_of_not_rope fun other member => ordinary other (List.mem_cons_of_mem _ member)]
      unfold opened
      rw [if_neg (by rw [ordinary child List.mem_cons_self]; exact Bool.false_ne_true)]
      rfl

theorem Node.bare_make (serial : Nat) (kind : KindId) (children : List Child) (origin : Origin) :
    (Node.make serial kind children origin).element.bare =
      if origin.ropeHeight = 0 then .node (.bare kind (lengthOf children) 0) (bareAll children)
      else .node (.bare kind (lengthOf children) 1) (plainly children) := Element.bare_node _ _

theorem Node.bare_rope {node : Node} (positive : 0 < node.height) :
    node.element.bare = .node (.bare node.kind node.textLength 1) (plainly node.children) := by
  change (Element.node node.head node.children).bare = _
  rw [Element.bare_node, if_neg (show ¬ node.head.info.ropeHeight = 0 from Nat.ne_of_gt positive)]
  rfl

section Ropes

variable {table : Table}

theorem plainly_rope (field : Option FieldId) {node : Node} (positive : 0 < node.height) :
    plainly [⟨field, node.element⟩] = (plainly node.children).map (·.inherit field) := by
  have isRope : node.element.isRope = true := bne_iff_ne.mpr (Nat.ne_of_gt positive)
  have bare := Node.bare_rope positive
  unfold plainly
  rw [bareAll_cons, bareAll_nil, List.flatMap_cons, List.flatMap_nil, List.append_nil, opened]
  simp only [Child.bare, Element.isRope_bare, isRope, if_true]
  rw [bare]
  rfl

theorem map_inherit_none {α : Type} (children : List (Labelled α)) : children.map (·.inherit none) = children := by
  simp

theorem plainly_children_eq_spread {node : Node} (rope : node.IsRope table) :
    plainly node.children = plainly node.spread := by
  refine Node.IsRope.induct (motive := fun node => plainly node.children = plainly node.spread)
    ?_ ?_ node.height (Nat.le_refl _) rope
  · intro node rope low
    rw [Node.spread_of_low low, plainly_rope none rope.height_pos, map_inherit_none]
  · intro node left right _ halved leftRope rightRope leftSame rightSame
    rw [halved.spread_eq, plainly_append, ← leftSame, ← rightSame, halved.children_eq, ← List.singleton_append,
      plainly_append, plainly_rope none leftRope.height_pos, plainly_rope none rightRope.height_pos,
      map_inherit_none, map_inherit_none]

theorem JoinedFrom.plainly_eq {kind : KindId} {left right node : Node}
    (joined : JoinedFrom table kind left right node) (leftRope : left.IsRope table) (rightRope : right.IsRope table) :
    plainly node.children = plainly left.children ++ plainly right.children := by
  rw [plainly_children_eq_spread joined.rope, plainly_children_eq_spread leftRope,
    plainly_children_eq_spread rightRope, joined.spread_eq, plainly_append]

end Ropes

end Green

open Green

/-! ### Reductions -/

def StackEntry.bare (entry : StackEntry) : StackEntry := ⟨entry.state, entry.element.bare, entry.extra, 0⟩

def ParseStack.bare (stack : ParseStack) : ParseStack := stack.map StackEntry.bare

theorem spliced_bare (table : Table) (field : Option FieldId) (element : Element) :
    bareAll (spliced table field element) = spliced table field element.bare := by
  cases element with
  | token leaf =>
      rw [Element.bare]
      unfold spliced
      rw [bareAll_cons, bareAll_nil, Child.bare, Element.bare]
  | node head children =>
      have alone : bareAll [⟨field, .node head children⟩] = [⟨field, (Element.node head children).bare⟩] := by
        rw [bareAll_cons, bareAll_nil, Child.bare]
      by_cases ordinary : head.info.ropeHeight = 0
      · rw [Element.bare_node, if_pos ordinary] at alone ⊢
        unfold spliced
        dsimp only
        have same : (head.info.ropeHeight = 0 && table.isHidden head.kind : Bool) =
            ((Head.bare head.kind head.textLength 0).info.ropeHeight = 0 &&
              table.isHidden (Head.bare head.kind head.textLength 0).kind : Bool) := by
          simp [ordinary, Head.bare]
        rw [same]
        split
        · exact bareAll_relabel (fun own => own.or field) children
        · exact alone
      · rw [Element.bare_node, if_neg ordinary] at alone ⊢
        unfold spliced
        dsimp only
        rw [if_neg (by simp [ordinary]), if_neg (by simp [Head.bare])]
        exact alone

theorem splicedIntoError_bare (table : Table) {element : Element} (named : element.RopeNamed) :
    bareAll (splicedIntoError table element) = splicedIntoError table element.bare := by
  unfold splicedIntoError
  rw [Element.isToken_bare, Element.kind_bare]
  split
  · rename_i error
    cases element with
    | token leaf => cases error
    | node head children =>
        have isError : head.kind = .error := by simpa [Element.isToken, Element.kind] using error
        have ordinary : head.info.ropeHeight = 0 := Classical.not_not.mp fun rope => named rope isError
        rw [Element.bare_node, if_pos ordinary]
        exact bareAll_relabel (fun _ => none) children
  · exact spliced_bare table none element

theorem productionChildren_bare (table : Table) : ∀ (fields : List (Option FieldId)) (entries : List StackEntry),
    bareAll (productionChildren table fields entries) =
      productionChildren table fields (entries.map StackEntry.bare)
  | _, [] => by simp [productionChildren]
  | fields, entry :: rest => by
      rw [List.map_cons, productionChildren, productionChildren]
      change _ = if entry.extra then spliced table none entry.element.bare ++ _
        else spliced table _ entry.element.bare ++ _
      split
      · rw [bareAll_append, spliced_bare, productionChildren_bare table fields rest]
      · rw [bareAll_append, spliced_bare, productionChildren_bare table _ rest]

theorem productionChildren_unlabelled (table : Table) : ∀ (fields : List (Option FieldId)) (entries : List StackEntry),
    (∀ field, field ∈ fields → field = none) →
    productionChildren table fields entries = entries.flatMap (fun entry => spliced table none entry.element)
  | _, [], _ => by simp [productionChildren]
  | fields, entry :: rest, unlabelled => by
      have first : (fields.head?).getD none = none := by
        cases fields with
        | nil => rfl
        | cons field others => exact unlabelled field List.mem_cons_self
      have later : ∀ field, field ∈ fields.drop 1 → field = none :=
        fun field member => unlabelled field (List.mem_of_mem_drop member)
      rw [productionChildren, List.flatMap_cons, first, productionChildren_unlabelled table fields rest unlabelled,
        productionChildren_unlabelled table _ rest later]
      split <;> rfl

def ProductionInfo.shows (table : Table) (production : ProductionInfo) (entries : List StackEntry) : Element :=
  let children := productionChildren table production.fields entries
  if production.kind = .plain then .node (.bare production.lhs (lengthOf children) 0) children
  else .node (.bare production.lhs (lengthOf children) 1) (children.flatMap opened)

/-- The node of a production, laid bare, depends on the bare entries alone. Of two ropes that are joined the
children are seen one after the other, as they would be if the ropes were children of a base. -/
theorem buildNode_bare {table : Table} (numbered : table.Numbered) {production : ProductionInfo}
    (known : production ∈ table.productions) {entries : List StackEntry} {origin : Origin} {serial : Nat}
    {node : Node} (ordinary : origin.ropeHeight = 0) (sound : ParseStack.Sound table entries)
    (built : buildNode table serial production entries origin = .ok node) :
    node.element.bare = production.shows table (entries.map StackEntry.bare) := by
  have children := productionChildren_bare table production.fields entries
  have base : production.kind ≠ .plain → (Rope.base production.lhs
      (productionChildren table production.fields entries) origin).element.bare =
        production.shows table (entries.map StackEntry.bare) := by
    intro rope
    unfold Rope.base
    rw [Node.bare_make, if_neg Nat.one_ne_zero]
    unfold ProductionInfo.shows
    dsimp only
    rw [if_neg rope, ← children, lengthOf_bareAll]
    rfl
  cases buildNode_builtBy (numbered.lhs production known).2 sound built with
  | plain plain =>
      rw [Node.bare_make, if_pos ordinary]
      unfold ProductionInfo.shows
      dsimp only
      rw [if_pos plain, ← children, lengthOf_bareAll]
  | base rope => exact base rope
  | @join first second left right _ joins shape firstIs secondIs leftRope rightRope joined =>
      subst shape
      obtain ⟨_, fields, _⟩ := numbered.join production known joins
      have alone : ∀ {rope : Node}, 0 < rope.height → spliced table none rope.element = [⟨none, rope.element⟩] := by
        intro rope positive
        exact if_neg (by simp [show rope.head.info.ropeHeight ≠ 0 from Nat.ne_of_gt positive])
      have held : productionChildren table production.fields [first, second] =
          [⟨none, left.element⟩, ⟨none, right.element⟩] := by
        rw [productionChildren_unlabelled table _ _ (by simp [fields]), List.flatMap_cons, List.flatMap_cons,
          List.flatMap_nil, firstIs, secondIs, alone leftRope.height_pos, alone rightRope.height_pos]
        rfl
      have seen : plainly [⟨none, left.element⟩, ⟨none, right.element⟩] =
          plainly left.children ++ plainly right.children := by
        rw [← List.singleton_append, plainly_append, plainly_rope none leftRope.height_pos,
          plainly_rope none rightRope.height_pos, map_inherit_none, map_inherit_none]
      rw [Node.bare_rope joined.rope.height_pos, joined.plainly_eq leftRope rightRope, ← seen, ← held]
      unfold ProductionInfo.shows
      dsimp only
      rw [if_neg (by rw [joins]; exact fun same => nomatch same), ← children, lengthOf_bareAll, held,
        joined.kind_eq, joined.textLength_eq leftRope rightRope]
      simp [plainly]

/-! ### Errors and roots -/

theorem errorChildren_bare (table : Table) : ∀ elements : List Element,
    (∀ element, element ∈ elements → element.RopeNamed) →
    bareAll (elements.flatMap (splicedIntoError table)) =
      (elements.map Element.bare).flatMap (splicedIntoError table)
  | [], _ => by simp
  | element :: rest, named => by
      rw [List.flatMap_cons, bareAll_append, splicedIntoError_bare table (named element List.mem_cons_self),
        errorChildren_bare table rest fun other member => named other (List.mem_cons_of_mem _ member),
        List.map_cons, List.flatMap_cons]

theorem errorNode_bare (table : Table) (serial : Nat) (elements : List Element) (preState : StateId)
    (decisionEnd : Nat) (named : ∀ element, element ∈ elements → element.RopeNamed) :
    (ParseStack.errorNode table serial elements preState decisionEnd).element.bare =
      .node (.bare .error (lengthOf ((elements.map Element.bare).flatMap (splicedIntoError table))) 0)
        ((elements.map Element.bare).flatMap (splicedIntoError table)) := by
  unfold ParseStack.errorNode
  rw [Node.bare_make, if_pos rfl, ← errorChildren_bare table elements named, lengthOf_bareAll]

/-- What an accepted stack leaves to the root, laid bare, depends on the bare stack. -/
theorem gathered_bare : ∀ stack : ParseStack, (Machine.gathered stack).1 = (Machine.gathered stack.bare).1 ∧
    plainly (Machine.gathered stack).2 = (Machine.gathered stack.bare).2.flatMap opened
  | [] => ⟨rfl, rfl⟩
  | ⟨state, element, extra, offset⟩ :: below => by
      obtain ⟨kind, children⟩ := gathered_bare below
      have alone : ∀ element : Element, plainly [⟨none, element⟩] = [⟨none, element.bare⟩].flatMap opened := by
        intro element
        rw [plainly, bareAll_cons, bareAll_nil]
        rfl
      have bare : ParseStack.bare (⟨state, element, extra, offset⟩ :: below) =
          ⟨state, element.bare, extra, 0⟩ :: ParseStack.bare below := rfl
      rw [bare, Machine.gathered_cons, Machine.gathered_cons]
      cases extra with
      | true =>
          refine ⟨kind, ?_⟩
          dsimp only
          rw [plainly_append, children, List.flatMap_append, alone]
      | false =>
          cases element with
          | token leaf =>
              have single := alone (.token leaf)
              rw [Element.bare] at single ⊢
              refine ⟨kind, ?_⟩
              dsimp only
              rw [plainly_append, children, List.flatMap_append, single]
          | node head inner =>
              rw [Element.bare_node]
              by_cases ordinary : head.info.ropeHeight = 0
              · rw [if_pos ordinary]
                refine ⟨rfl, ?_⟩
                dsimp only
                rw [plainly_append, children, List.flatMap_append]
                rfl
              · rw [if_neg ordinary]
                refine ⟨rfl, ?_⟩
                dsimp only
                rw [plainly_append, children, List.flatMap_append,
                  flatMap_opened_of_not_rope (not_rope_of_plainly inner)]

/-! ### Stacks -/

namespace ParseStack

@[simp] theorem bare_nil : bare [] = [] := rfl

@[simp] theorem bare_cons (entry : StackEntry) (below : ParseStack) :
    bare (entry :: below) = entry.bare :: bare below := rfl

@[simp] theorem bare_append (above below : ParseStack) : bare (above ++ below) = bare above ++ bare below :=
  List.map_append

@[simp] theorem bare_push (stack : ParseStack) (target : StateId) (element : Element) :
    bare (stack.push target element) = ⟨target, element.bare, false, 0⟩ :: stack.bare := rfl

@[simp] theorem state_bare (stack : ParseStack) : state stack.bare = stack.state := by
  cases stack with
  | nil => rfl
  | cons entry below => rfl

theorem takeWhile_bare (stack : ParseStack) :
    stack.bare.takeWhile (·.extra) = (stack.takeWhile (·.extra)).map StackEntry.bare := by
  unfold bare
  rw [List.takeWhile_map]
  rfl

theorem dropWhile_bare (stack : ParseStack) :
    stack.bare.dropWhile (·.extra) = bare (stack.dropWhile (·.extra)) := by
  unfold bare
  rw [List.dropWhile_map]
  rfl

theorem statesBelow_bare : ∀ stack : ParseStack, Recovery.statesBelow stack.bare = Recovery.statesBelow stack
  | [] => rfl
  | entry :: below => by
      rw [bare_cons, Recovery.statesBelow, Recovery.statesBelow, statesBelow_bare below]
      rfl

theorem popEntries_bare : ∀ (stack : ParseStack) (count : Nat) (taken : List StackEntry),
    popEntries count (taken.map StackEntry.bare) stack.bare =
      (popEntries count taken stack).map (fun popped => (popped.1.map StackEntry.bare, bare popped.2))
  | [], count, taken => by
      rw [bare_nil, popEntries, popEntries]
      split <;> rfl
  | entry :: below, count, taken => by
      cases count with
      | zero => rfl
      | succ count =>
          rw [bare_cons, popEntries, popEntries, ← List.map_cons, popEntries_bare below]
          rfl

theorem reduce_alike {table : Table} (numbered : table.Numbered) {left right : ParseStack}
    (same : left.bare = right.bare) (leftFollows : left.Follows table) (rightFollows : right.Follows table)
    (leftSound : Sound table left) (rightSound : Sound table right) {production : ProductionInfo}
    (known : production ∈ table.productions) {serial examinedEnd : Nat} {mode : LexMode} {reduced : ParseStack}
    (done : left.reduce table serial production examinedEnd mode = .ok reduced)
    (otherSerial otherEnd : Nat) (otherMode : LexMode) :
    ∃ other, right.reduce table otherSerial production otherEnd otherMode = .ok other ∧
      other.bare = reduced.bare := by
  obtain ⟨entries, below, next, node, popped, goes, built, rfl⟩ := reduce_ok.mp done
  have poppedSound := (leftFollows.core.1.popped leftSound.core popped).2.2.1
  have both := popEntries_bare (left.dropWhile (·.extra)) production.length []
  rw [popped, ← dropWhile_bare, same, dropWhile_bare] at both
  have others := popEntries_bare (right.dropWhile (·.extra)) production.length []
  rw [both] at others
  cases poppedRight : popEntries production.length [] (right.dropWhile (·.extra)) with
  | error fault =>
      rw [poppedRight] at others
      cases others
  | ok answer =>
      obtain ⟨otherEntries, otherBelow⟩ := answer
      rw [poppedRight] at others
      obtain ⟨entriesSame, belowSame⟩ := Prod.mk.inj (Except.ok.inj others)
      have otherSound := (rightFollows.core.1.popped rightSound.core poppedRight).2.2.1
      have stateSame : state otherBelow = state below := by
        rw [← state_bare otherBelow, ← belowSame, state_bare]
      obtain ⟨otherNode, otherBuilt, _⟩ := buildNode_builtFrom
        (reductionOrigin table right otherBelow otherEnd otherMode) otherSerial (numbered.lhs production known).2
        rfl otherSound
      refine ⟨_, reduce_ok.mpr ⟨otherEntries, otherBelow, next, otherNode, poppedRight, stateSame ▸ goes,
        otherBuilt, rfl⟩, ?_⟩
      have trailing : (right.takeWhile (·.extra)).map StackEntry.bare =
          (left.takeWhile (·.extra)).map StackEntry.bare := by
        rw [← takeWhile_bare, ← takeWhile_bare, same]
      have relabelled : ∀ entries : List StackEntry,
          bare (entries.map (fun entry => { entry with state := next })) =
            (entries.map StackEntry.bare).map (fun entry => { entry with state := next }) := by
        intro entries
        simp [bare, StackEntry.bare, Function.comp_def]
      have nodeSame : otherNode.element.bare = node.element.bare := by
        rw [buildNode_bare numbered known rfl poppedSound built,
          buildNode_bare numbered known rfl otherSound otherBuilt,
          ← entriesSame]
      rw [bare_append, bare_append, relabelled, relabelled, trailing, bare_push, bare_push, nodeSame, belowSame]

end ParseStack

end IncrementalParsing
