import IncrementalParsing.Lexing.Script
import IncrementalParsing.Proofs.Parsing.Footprint
import IncrementalParsing.Proofs.Tree.Lossless

/-!
The nodes of a parsed tree can be built again. Every node below the root of a tree, as it is seen from
outside, stands where it was built, so what is known of its footprint holds of the node in its place.
-/

namespace IncrementalParsing

open Green

/-! ### Nodes in their places -/

mutual

theorem flatten_held {holds : Nat → Node → Prop} (offset : Nat) (field : Option FieldId) :
    ∀ element : Element, element.HoldsFrom holds offset →
    ∀ placed, placed ∈ flatten offset field element →
      placed.element.HoldsFrom holds placed.offset ∧ placed.element.isRope = false
  | .token leaf, held, placed, member => by
      rw [flatten] at member
      cases List.mem_singleton.mp member
      exact ⟨held, rfl⟩
  | .node head children, held, placed, member => by
      rw [flatten] at member
      split at member
      · rename_i ordinary
        cases List.mem_singleton.mp member
        refine ⟨held, ?_⟩
        change (head.info.ropeHeight != 0) = false
        rw [ordinary]
        rfl
      · exact flattenAll_held offset field children held.inside placed member

theorem flattenAll_held {holds : Nat → Node → Prop} (offset : Nat) (field : Option FieldId) :
    ∀ children : List Child, AllHoldFrom holds offset children →
    ∀ placed, placed ∈ flattenAll offset field children →
      placed.element.HoldsFrom holds placed.offset ∧ placed.element.isRope = false
  | [], _, placed, member => by
      rw [flattenAll] at member
      exact absurd member List.not_mem_nil
  | ⟨own, element⟩ :: rest, held, placed, member => by
      obtain ⟨here, others⟩ := allHoldFrom_cons.mp held
      rw [flattenAll] at member
      rcases List.mem_append.mp member with first | last
      · exact flatten_held offset (own.or field) element here placed first
      · exact flattenAll_held (offset + element.textLength) field rest others placed last

end

theorem Placed.Below.held {holds : Nat → Node → Prop} {root parent : Placed}
    (inside : AllHoldFrom holds root.offset root.element.children) (below : root.Below parent) :
    AllHoldFrom holds parent.offset parent.element.children := by
  induction below with
  | root => exact inside
  | child _ among ih => exact (flattenAll_held _ _ _ ih _ among).1.inside

theorem Placed.Below.child_holds {holds : Nat → Node → Prop} {root parent placed : Placed}
    (inside : AllHoldFrom holds root.offset root.element.children) (below : root.Below parent)
    (among : placed ∈ parent.children) {node : Node} (isNode : placed.element = node.element) :
    holds placed.offset node := by
  obtain ⟨held, ordinary⟩ := flattenAll_held _ _ _ (below.held inside) placed among
  rw [isNode] at held ordinary
  refine held.here ?_
  change (node.head.info.ropeHeight != 0) = false at ordinary
  simpa using ordinary

/-! ### Footprints -/

/-- The footprint of a node. Take any node below the root of a tree that was parsed from scratch, that
holds text, has no error and is not fragile, and any text that has the same bytes as the node and as far
past its end as the node says was examined. A machine on that text, on a stack in the state in which the
node was begun and with the first token due in the mode in which that of the node was read, carries out
shifts and reductions until it has built an equal node; it has consumed as many bytes then, and looks
ahead in the mode in which the token after the node was read. The stack has no error node on top, or has
one only where the first token is shifted at once. The extents of what is examined have to be such that
they can be written with 32 bits. -/
theorem Parser.node_footprint {parser : Parser} (accepted : parser.language.Accepted) {limit : Nat}
    {text : Array UInt8} {tree : ParsedTree} (parsed : parser.parseWithin limit text = .ok tree)
    (reports : (parser.job limit text).Reports) {parent placed : Placed}
    (below : tree.placedRoot.Below parent) (among : placed ∈ parent.children) {node : Node}
    (isNode : placed.element = node.element) (nonempty : 0 < node.textLength)
    (clean : node.info.hasError = false) (solid : node.info.fragile = false) :
    ∃ first, node.element.firstToken? = some first ∧
      ∀ (against : Array UInt8) (base : ParseStack) (serial : Nat),
        ((parser.job limit text).on against).Reports → base.stop ≤ against.size →
        base.state = node.info.preState → base.Opens parser.language.table first.kind →
        Cursor.Agree text against placed.offset base.stop
          (placed.offset + node.textLength + node.info.lookahead) →
        ((parser.job limit text).on against).Rebuilds base first.lexMode serial node := by
  obtain ⟨root, ran, rootEq, _⟩ := runFrom_ok parsed
  have footprints := Machine.run_footprints accepted.sound reports accepted.declared limit
    (Machine.start_fits 0 (fun _ none => by cases none)) ⟨rfl, fun _ none => by cases none⟩
    (Machine.start_tracked accepted.sound reports 0) ran
  have inside : AllHoldFrom (parser.job limit text).Footprint tree.placedRoot.offset
      tree.placedRoot.element.children := by
    change AllHoldFrom _ 0 tree.root.children
    rw [rootEq]
    exact footprints
  exact below.child_holds inside among isNode nonempty clean solid

/-! ### A node at another place -/

namespace Pairs

theorem reports (text : Array UInt8) (short : text.size + 2 < offsetLimit) (limit : Nat) :
    (parser.job limit text).Reports := by
  intro position mode inside
  exact Language.reports_of_near (ClassScanner.toScanner_near ⟨[], [], ⟨true, false, false, false⟩⟩)
    (eq_ok_get compiles) short inside mode

def secondHead : Head :=
  { serial := 6
    kind := ⟨5⟩
    textLength := 3
    info :=
      { preState := ⟨2⟩
        firstLexMode := ⟨3⟩
        nextLexMode := ⟨3⟩
        lookahead := 1
        hasError := false
        fragile := false
        ropeHeight := 0 } }

/-- Whether something in the tree of `ab ab` is the second pair. -/
def isSecond (placed : Placed) : Bool :=
  placed.offset == 2 && placed.element.toNode?.map (·.head) == some secondHead &&
    placed.element.firstToken?.map (·.lexMode) == some ⟨3⟩

theorem second_found : (tree.placedRoot.children.find? isSecond).isSome = true := by
  rw [tree_eq]
  decide +kernel

def placed : Placed := (tree.placedRoot.children.find? isSecond).get second_found

def second : Node := ⟨secondHead, placed.element.children⟩

theorem placed_among : placed ∈ tree.placedRoot.children :=
  List.mem_of_find?_eq_some (Option.some_get second_found).symm

/-- The second pair stands after two bytes, and its first token was read in the third mode. -/
theorem placed_eq : placed.offset = 2 ∧ placed.element = second.element ∧
    second.element.firstToken?.map (·.lexMode) = some ⟨3⟩ := by
  have found : isSecond placed = true := List.find?_some (Option.some_get second_found).symm
  unfold isSecond at found
  rw [Bool.and_eq_true, Bool.and_eq_true, beq_iff_eq, beq_iff_eq, beq_iff_eq] at found
  obtain ⟨⟨offset, head⟩, mode⟩ := found
  have same : placed.element = second.element := by
    unfold second
    cases shape : placed.element with
    | token leaf =>
        rw [shape] at head
        cases head
    | node found children =>
        rw [shape] at head
        cases Option.some.inj head
        rfl
  exact ⟨offset, same, same ▸ mode⟩

/-- Something of four bytes after which a pair can follow. -/
def base : ParseStack := [⟨⟨2⟩, .token ⟨0, ⟨2⟩, [], 4, ⟨1⟩, 0⟩, false, 0⟩]

theorem agree_second : Cursor.Agree text longer 2 4 6 := by
  intro distance inside
  match distance with
  | 0 | 1 | 2 | 3 => rfl
  | _ + 4 => omega

end Pairs

theorem Parser.node_footprint_pairs :
    ((Pairs.parser.job 100 Pairs.text).on Pairs.longer).Rebuilds Pairs.base ⟨3⟩ 0 Pairs.second := by
  obtain ⟨offset, isSecond, mode⟩ := Pairs.placed_eq
  obtain ⟨first, firstIs, rebuilds⟩ := node_footprint Pairs.accepted Pairs.parse_eq
    (Pairs.reports Pairs.text (by decide) 100) .root Pairs.placed_among isSecond (by decide) rfl rfl
  rw [firstIs] at mode
  have rebuilt := rebuilds Pairs.longer Pairs.base 0 (Pairs.reports Pairs.longer (by decide) 100) (by decide)
    rfl (Or.inl (fun top head => by cases head; rfl)) (by rw [offset]; exact Pairs.agree_second)
  have isMode : first.lexMode = ⟨3⟩ := Option.some.inj mode
  rw [isMode] at rebuilt
  exact rebuilt

/-! ### A scanner that looks too far -/

namespace Overlooked

def declaration : Declaration :=
  (((Declaration.empty "overlooked").external "raw").rule "s" (.sequence [.symbol "t", .symbol "t"])).rule "t"
    (.symbol "raw")

/-- Looks at the last byte whose distance has 32 bits, and then takes a letter b, if there is one, and
the letters a after it. -/
def scanner : Scanner := scriptScanner [.nth (offsetLimit - 1), .eat 98, .advanceWhile ⟨[(97, 97)]⟩]

theorem compiles : (Language.compile declaration scanner).toOption.isSome = true := by decide +kernel

def language : Language := (Language.compile declaration scanner).toOption.get compiles

theorem accepted : language.Accepted := ⟨declaration, scanner, scriptScanner_throughCursor _, eq_ok_get compiles⟩

def parser : Parser := .ofLanguage language

def text : Array UInt8 := #[97, 97, 98]

def against : Array UInt8 := #[97, 97, 97]

theorem parses : (parser.parseWithin 100 text).toOption.isSome = true := by decide +kernel

def tree : ParsedTree := (parser.parseWithin 100 text).toOption.get parses

theorem begins : (tree.placedRoot.children.head?.bind (fun child => child.element.toNode?)).isSome = true := by
  decide +kernel

theorem one : tree.placedRoot.children.head?.isSome = true := Option.isSome_of_isSome_bind begins

def placed : Placed := tree.placedRoot.children.head?.get one

theorem isNode : placed.element.toNode?.isSome = true := by
  have first : tree.placedRoot.children.head? = some placed := (Option.some_get one).symm
  have node := begins
  rw [first] at node
  exact node

def node : Node := placed.element.toNode?.get isNode

def after (machine : Machine) : Option Machine :=
  match machine.step ((parser.job 100 text).on against) with
  | .ok (.inl next) => some next
  | _ => none

theorem after_eq {machine next : Machine} (advances : machine.Advances ((parser.job 100 text).on against) next) :
    after machine = some next := by
  unfold after
  rw [advances.step]

def start : Machine := .upon [] ⟨1⟩ 0

theorem goes_twice : ((after start).bind after).isSome = true := by decide +kernel

theorem goes : (after start).isSome = true := Option.isSome_of_isSome_bind goes_twice

def shifted : Machine := (after start).get goes

theorem goesOn : (after shifted).isSome = true := by
  have first : after start = some shifted := (Option.some_get goes).symm
  have second := goes_twice
  rw [first] at second
  exact second

def completed : Machine := (after shifted).get goesOn

/-- Wherever the machine gets to on the other text, it has consumed nothing or all three letters. -/
theorem position_of_reached {final : Machine}
    (steps : Relation.ReflTransGen (Machine.Advances ((parser.job 100 text).on against)) start final) :
    final.position ≠ 2 := by
  rcases steps.cases_head with rfl | ⟨next, advances, steps⟩
  · decide
  have isShifted : next = shifted :=
    Option.some.inj ((after_eq advances).symm.trans (Option.some_get goes).symm)
  subst isShifted
  rcases steps.cases_head with rfl | ⟨next, advances, steps⟩
  · decide +kernel
  have isCompleted : next = completed :=
    Option.some.inj ((after_eq advances).symm.trans (Option.some_get goesOn).symm)
  subst isCompleted
  rcases steps.cases_head with rfl | ⟨next, advances, _⟩
  · decide +kernel
  have ends : (after completed).isSome = false := by decide +kernel
  rw [after_eq advances] at ends
  cases ends

end Overlooked

/-- An extent that takes more than 32 bits is not reported, and then a node does not say how far was looked
for it. The first token of `aab` ends where the letter a ends; the node over it has two bytes and says
that nothing past them was examined. These are the bytes of `aaa` too, but no such node is built there. -/
theorem Parser.node_footprint_farSighted :
    Overlooked.parser.language.Accepted ∧
      Overlooked.parser.parseWithin 100 Overlooked.text = .ok Overlooked.tree ∧
      Overlooked.placed ∈ Overlooked.tree.placedRoot.children ∧
      Overlooked.placed.element.toNode? = some Overlooked.node ∧
      Overlooked.placed.offset = 0 ∧ Overlooked.node.textLength = 2 ∧
      Overlooked.node.info.hasError = false ∧ Overlooked.node.info.fragile = false ∧
      Overlooked.node.info.preState = .start ∧
      Overlooked.node.element.firstToken?.map (·.lexMode) = some ⟨1⟩ ∧
      Cursor.Agree Overlooked.text Overlooked.against Overlooked.placed.offset 0
        (Overlooked.placed.offset + Overlooked.node.textLength + Overlooked.node.info.lookahead) ∧
      ¬ ((Overlooked.parser.job 100 Overlooked.text).on Overlooked.against).Rebuilds [] ⟨1⟩ 0
        Overlooked.node := by
  have length : Overlooked.node.textLength = 2 := by decide +kernel
  have offset : Overlooked.placed.offset = 0 := by decide +kernel
  refine ⟨Overlooked.accepted, eq_ok_get Overlooked.parses,
    List.mem_of_mem_head? (Option.some_get Overlooked.one).symm,
    (Option.some_get Overlooked.isNode).symm, offset, length, by decide +kernel, by decide +kernel,
    by decide +kernel, by decide +kernel, ?_, ?_⟩
  · have window : Overlooked.placed.offset + Overlooked.node.textLength + Overlooked.node.info.lookahead = 2 := by
      decide +kernel
    rw [window, offset]
    intro distance inside
    match distance with
    | 0 | 1 => rfl
    | _ + 2 => omega
  · rintro ⟨final, _, _, _, steps, _, _, position, _⟩
    rw [length] at position
    exact Overlooked.position_of_reached steps position

end IncrementalParsing
