import IncrementalParsing.Proofs.Green.Contents
import IncrementalParsing.Proofs.Parsing.Follows

/-!
Reductions. The children of a new node are those that the entries of a right-hand side contribute, so
the node is as long as the entries together. A reduction therefore leaves the stack ending where it
ended, and the stack follows the table afterwards.
-/

namespace IncrementalParsing

open Green

/-! ### Contributions -/

section Contributions

variable {table : Table}

theorem textLength_of_sound {head : Head} {children : List Child}
    (sound : (Element.node head children).Sound table) : head.textLength = lengthOf children :=
  sound.here.1.textLength

theorem lengthOf_spliced {field : Option FieldId} {element : Element} (sound : element.Sound table) :
    lengthOf (spliced table field element) = element.textLength := by
  cases element with
  | token leaf => simp [spliced]
  | node head children =>
      unfold spliced
      dsimp only
      split
      · exact (lengthOf_map (fun child => ⟨child.field.or field, child.element⟩) (fun _ => rfl)
          children).trans (textLength_of_sound sound).symm
      · simp

theorem everywhere_spliced {holds : Element → Prop} {field : Option FieldId} {element : Element}
    (everywhere : element.Everywhere holds) :
    ∀ child, child ∈ spliced table field element → child.element.Everywhere holds := by
  intro child member
  cases element with
  | token leaf =>
      cases List.mem_singleton.mp member
      exact everywhere
  | node head children =>
      unfold spliced at member
      dsimp only at member
      split at member
      · obtain ⟨inner, among, same⟩ := List.mem_map.mp member
        subst same
        exact everywhere.inside inner among
      · cases List.mem_singleton.mp member
        exact everywhere

theorem lengthOf_splicedIntoError {element : Element} (sound : element.Sound table) :
    lengthOf (splicedIntoError table element) = element.textLength := by
  unfold splicedIntoError
  split
  · cases element with
    | token leaf => simp_all [Element.isToken]
    | node head children =>
        exact (lengthOf_map (fun child => ⟨none, child.element⟩) (fun _ => rfl) children).trans
          (textLength_of_sound sound).symm
  · exact lengthOf_spliced sound

theorem everywhere_splicedIntoError {holds : Element → Prop} {element : Element}
    (everywhere : element.Everywhere holds) :
    ∀ child, child ∈ splicedIntoError table element → child.element.Everywhere holds := by
  intro child member
  unfold splicedIntoError at member
  split at member
  · obtain ⟨inner, among, same⟩ := List.mem_map.mp member
    subst same
    exact everywhere.inside inner among
  · exact everywhere_spliced everywhere child member

def totalLength (entries : List StackEntry) : Nat :=
  sumOf (entries.map (fun entry => entry.element.textLength))

@[simp] theorem totalLength_nil : totalLength [] = 0 := rfl

@[simp] theorem totalLength_cons (entry : StackEntry) (rest : List StackEntry) :
    totalLength (entry :: rest) = entry.element.textLength + totalLength rest := by
  simp [totalLength]

@[simp] theorem totalLength_append (left right : List StackEntry) :
    totalLength (left ++ right) = totalLength left + totalLength right := by
  simp [totalLength]

@[simp] theorem totalLength_reverse (entries : List StackEntry) :
    totalLength entries.reverse = totalLength entries := by
  induction entries with
  | nil => rfl
  | cons entry rest ih => simp [ih, Nat.add_comm]

theorem lengthOf_productionChildren : ∀ (fields : List (Option FieldId)) (entries : List StackEntry),
    ParseStack.Sound table entries →
    lengthOf (productionChildren table fields entries) = totalLength entries
  | _, [], _ => rfl
  | fields, entry :: rest, sound => by
      unfold productionChildren
      have here := sound entry List.mem_cons_self
      split
      · rw [lengthOf_append, lengthOf_spliced here, lengthOf_productionChildren _ rest sound.tail,
          totalLength_cons]
      · rw [lengthOf_append, lengthOf_spliced here, lengthOf_productionChildren _ rest sound.tail,
          totalLength_cons]

theorem everywhere_productionChildren {holds : Element → Prop} :
    ∀ (fields : List (Option FieldId)) (entries : List StackEntry),
    (∀ entry, entry ∈ entries → entry.element.Everywhere holds) →
    ∀ child, child ∈ productionChildren table fields entries → child.element.Everywhere holds
  | _, [], _, _, member => nomatch member
  | fields, entry :: rest, everywhere, child, member => by
      unfold productionChildren at member
      have here := everywhere entry List.mem_cons_self
      have below : ∀ other, other ∈ rest → other.element.Everywhere holds :=
        fun other among => everywhere other (List.mem_cons_of_mem _ among)
      split at member
      · rcases List.mem_append.mp member with first | others
        · exact everywhere_spliced here child first
        · exact everywhere_productionChildren _ rest below child others
      · rcases List.mem_append.mp member with first | others
        · exact everywhere_spliced here child first
        · exact everywhere_productionChildren _ rest below child others

theorem ropePair?_some {entries : List StackEntry} {left right : Node}
    (found : ropePair? entries = some (left, right)) :
    ∃ first second, entries = [first, second] ∧ first.element = left.element ∧
      second.element = right.element ∧ 0 < left.height ∧ 0 < right.height := by
  unfold ropePair? at found
  split at found
  · rename_i first second
    split at found
    · rename_i ropes
      split at found
      · rename_i leftNode rightNode leftShape rightShape
        cases found
        rw [Bool.and_eq_true] at ropes
        cases firstIs : first.element with
        | token leaf => simp [firstIs, Element.toNode?] at leftShape
        | node head children =>
            cases secondIs : second.element with
            | token leaf => simp [secondIs, Element.toNode?] at rightShape
            | node otherHead otherChildren =>
                rw [firstIs] at leftShape ropes
                rw [secondIs] at rightShape ropes
                cases leftShape
                cases rightShape
                refine ⟨first, second, rfl, firstIs, secondIs, ?_, ?_⟩
                · exact Nat.pos_of_ne_zero (by simpa [Element.isRope, Node.height, Node.info] using ropes.1)
                · exact Nat.pos_of_ne_zero (by simpa [Element.isRope, Node.height, Node.info] using ropes.2)
      · cases found
    · cases found
  · cases found

structure BuiltFrom (table : Table) (production : ProductionInfo) (entries : List StackEntry)
    (node : Node) : Prop where
  sound : node.element.Sound table
  kind_eq : node.kind = production.lhs
  length_eq : node.textLength = totalLength entries

theorem builtFrom_make {production : ProductionInfo} {entries : List StackEntry} {serial : Nat}
    {origin : Origin} (known : table.HasKind production.lhs) (low : origin.ropeHeight ≤ 1)
    (sound : ParseStack.Sound table entries) :
    BuiltFrom table production entries (.make serial production.lhs
      (productionChildren table production.fields entries) origin) :=
  ⟨Node.sound_make low known (everywhere_productionChildren _ entries sound), rfl,
    lengthOf_productionChildren _ entries sound⟩

/-- How the node of a production comes about. A join takes two ropes that are the whole right-hand side;
where it finds none, the node is the base of a new rope. -/
inductive BuiltBy (table : Table) (production : ProductionInfo) (entries : List StackEntry) (origin : Origin)
    (serial : Nat) : Node → Prop where
  | plain (kind : production.kind = .plain) : BuiltBy table production entries origin serial
      (.make serial production.lhs (productionChildren table production.fields entries) origin)
  | base (kind : production.kind ≠ .plain) : BuiltBy table production entries origin serial
      (Rope.base production.lhs (productionChildren table production.fields entries) origin)
  | join {first second : StackEntry} {left right node : Node} (kind : production.kind = .repeatJoin)
      (shape : entries = [first, second]) (firstIs : first.element = left.element)
      (secondIs : second.element = right.element) (leftRope : left.IsRope table) (rightRope : right.IsRope table)
      (joined : JoinedFrom table production.lhs left right node) :
      BuiltBy table production entries origin serial node

theorem exists_buildNode {production : ProductionInfo} {entries : List StackEntry} (origin : Origin)
    (serial : Nat) (known : table.HasKind production.lhs) (sound : ParseStack.Sound table entries) :
    ∃ node, buildNode table serial production entries origin = .ok node ∧
      BuiltBy table production entries origin serial node := by
  unfold buildNode
  dsimp only
  split
  · rename_i plain
    exact ⟨_, rfl, .plain plain⟩
  · rename_i isBase
    exact ⟨_, rfl, .base (by rw [isBase]; exact ProductionKind.noConfusion)⟩
  · rename_i isJoin
    split
    · rename_i left right found
      have pair : ropePair? entries = some (left, right) := by
        split at found
        · cases found
        · exact found
      obtain ⟨first, second, shape, firstIs, secondIs, leftPos, rightPos⟩ := ropePair?_some pair
      have leftRope : left.IsRope table :=
        ⟨firstIs ▸ sound first (by rw [shape]; exact List.mem_cons_self), leftPos⟩
      have rightRope : right.IsRope table :=
        ⟨secondIs ▸ sound second (by rw [shape]; simp), rightPos⟩
      obtain ⟨node, done, joined⟩ := join_joined known leftRope rightRope
      exact ⟨node, done, .join isJoin shape firstIs secondIs leftRope rightRope joined⟩
    · exact ⟨_, rfl, .base (by rw [isJoin]; exact ProductionKind.noConfusion)⟩

theorem buildNode_builtBy {production : ProductionInfo} {entries : List StackEntry} {origin : Origin}
    {serial : Nat} {node : Node} (known : table.HasKind production.lhs) (sound : ParseStack.Sound table entries)
    (built : buildNode table serial production entries origin = .ok node) :
    BuiltBy table production entries origin serial node := by
  obtain ⟨other, again, builtBy⟩ := exists_buildNode origin serial known sound
  cases again.symm.trans built
  exact builtBy

theorem buildNode_builtFrom {production : ProductionInfo} {entries : List StackEntry} (origin : Origin)
    (serial : Nat) (known : table.HasKind production.lhs) (ordinary : origin.ropeHeight = 0)
    (sound : ParseStack.Sound table entries) :
    ∃ node, buildNode table serial production entries origin = .ok node ∧
      BuiltFrom table production entries node := by
  obtain ⟨node, built, builtBy⟩ := exists_buildNode origin serial known sound
  refine ⟨node, built, ?_⟩
  cases builtBy with
  | plain => exact builtFrom_make known (by omega) sound
  | base => exact builtFrom_make known (Nat.le_refl 1) sound
  | join _ shape firstIs secondIs leftRope rightRope joined =>
      refine ⟨joined.rope.sound, joined.kind_eq, ?_⟩
      rw [joined.textLength_eq leftRope rightRope, shape]
      simp [firstIs, secondIs]

end Contributions

namespace ParseStack

variable {table : Table} {stack : ParseStack}

theorem Follows.stop_append : ∀ (popped : List StackEntry) (below : ParseStack),
    Follows table (popped ++ below) → stop (popped ++ below) = stop below + totalLength popped
  | [], _, _ => rfl
  | top :: rest, below, follows => by
      change top.offset + top.element.textLength = _
      rw [follows.rests.offset_eq]
      have lower := stop_append rest below follows.tail
      change stop (rest ++ below) + top.element.textLength = _
      rw [lower, totalLength_cons]
      omega

theorem Follows.lower : ∀ (popped : List StackEntry) {below : ParseStack},
    Follows table (popped ++ below) → Follows table below
  | [], _, follows => follows
  | _ :: rest, _, follows => follows.tail.lower rest

def reductionOrigin (table : Table) (stack below : ParseStack) (examinedEnd : Nat) (mode : LexMode) :
    Origin where
  preState := state below
  lexMode := table.lexMode (state below)
  nextLexMode := mode
  decisionEnd := examinedEnd - stop below
  fragile := !(stack.takeWhile (·.extra)).isEmpty
  ropeHeight := 0

/-- A reduction succeeds where a right-hand side can be popped, its node can be built and there is a
state to go to; this is what it leaves. -/
theorem reduce_ok {production : ProductionInfo} {serial examinedEnd : Nat} {mode : LexMode}
    {reduced : ParseStack} :
    stack.reduce table serial production examinedEnd mode = .ok reduced ↔
      ∃ entries below next node,
        popEntries production.length [] (stack.dropWhile (·.extra)) = .ok (entries, below) ∧
        table.goto (state below) production.lhs = some next ∧
        buildNode table serial production entries
          (reductionOrigin table stack below examinedEnd mode) = .ok node ∧
        reduced = (stack.takeWhile (·.extra)).map (fun entry => { entry with state := next }) ++
          below.push next node.element := by
  constructor
  · intro done
    unfold ParseStack.reduce at done
    obtain ⟨⟨entries, below⟩, popped, done⟩ := bind_ok.mp done
    dsimp only at done
    split at done
    · cases done
    · rename_i next goes
      obtain ⟨node, built, done⟩ := bind_ok.mp done
      exact ⟨entries, below, next, node, popped, goes, built, (pure_ok.mp done).symm⟩
  · rintro ⟨entries, below, next, node, popped, goes, built, same⟩
    unfold ParseStack.reduce
    refine bind_ok.mpr ⟨(entries, below), popped, ?_⟩
    dsimp only
    rw [goes]
    exact bind_ok.mpr ⟨node, built, pure_ok.mpr same.symm⟩

structure ReducedFrom (table : Table) (stack reduced : ParseStack) : Prop where
  follows : Follows table reduced
  sound : Sound table reduced
  stop_eq : reduced.stop = stack.stop

theorem Sound.core (sound : Sound table stack) : Sound table (stack.dropWhile (·.extra)) :=
  fun entry among => sound entry ((List.dropWhile_sublist _).subset among)

theorem Follows.popped (follows : Follows table stack) (sound : Sound table stack) {count : Nat}
    {entries below : List StackEntry} (popped : popEntries count [] stack = .ok (entries, below)) :
    Follows table below ∧ Sound table below ∧ Sound table entries ∧
      stop stack = stop below + totalLength entries := by
  obtain ⟨taken, shape, same, _⟩ := popEntries_ok popped
  rw [List.append_nil] at same
  subst shape
  refine ⟨follows.lower taken, fun entry member => sound entry (List.mem_append_right _ member), ?_, ?_⟩
  · intro entry member
    rw [same] at member
    exact sound entry (List.mem_append_left _ (List.mem_reverse.mp member))
  · rw [follows.stop_append taken below, same, totalLength_reverse]

theorem reduce_reducedFrom {production : ProductionInfo} {serial examinedEnd : Nat} {mode : LexMode}
    {reduced : ParseStack}
    (done : stack.reduce table serial production examinedEnd mode = .ok reduced)
    (lhs : table.isTerminal production.lhs = false ∧ table.HasKind production.lhs)
    (follows : Follows table stack) (sound : Sound table stack) : ReducedFrom table stack reduced := by
  obtain ⟨entries, below, next, node, popped, goes, built, same⟩ := reduce_ok.mp done
  subst same
  obtain ⟨belowFollows, belowSound, entriesSound, ending⟩ :=
    follows.core.1.popped sound.core popped
  obtain ⟨again, rebuilt, builtFrom⟩ := buildNode_builtFrom
    (reductionOrigin table stack below examinedEnd mode) serial lhs.2 rfl entriesSound
  cases built.symm.trans rebuilt
  have pushed : table.successor (state below) node.element.kind = some next := by
    rw [kind_element, builtFrom.kind_eq]
    unfold Table.successor
    rw [lhs.1]
    exact goes
  have reducedFollows := belowFollows.push pushed
  have reducedSound : Sound table (below.push next node.element) :=
    sound_cons builtFrom.sound belowSound
  have reducedStop : stop (below.push next node.element) = stop (stack.dropWhile (·.extra)) := by
    rw [ending]
    exact congrArg (stop below + ·) builtFrom.length_eq
  rcases follows.trailing with ⟨none, whole⟩ | ⟨top, rest, stackIs, extra, one, core⟩
  · rw [none]
    exact ⟨reducedFollows, reducedSound, by rw [List.map_nil, List.nil_append, reducedStop, whole]⟩
  · subst stackIs
    rw [core] at reducedStop
    rw [one]
    refine ⟨reducedFollows.entry ⟨?_, ?_, fun _ => rfl, ?_⟩, ?_, rfl⟩
    · exact follows.rests.offset_eq.trans reducedStop.symm
    · intro impossible
      exact absurd (extra.symm.trans impossible) (by simp)
    · intro _ under first
      cases first
      rfl
    · exact sound_cons (sound top List.mem_cons_self) reducedSound

theorem Reducible.reduces {production : ProductionInfo} (reducible : Reducible table stack production)
    (known : table.HasKind production.lhs) (follows : Follows table stack) (sound : Sound table stack)
    (serial examinedEnd : Nat) (mode : LexMode) :
    ∃ reduced, stack.reduce table serial production examinedEnd mode = .ok reduced := by
  obtain ⟨entries, below, popped, _, next, goes⟩ := reducible.topmost
  obtain ⟨_, _, entriesSound, _⟩ := follows.core.1.popped sound.core popped
  obtain ⟨node, built, _⟩ := buildNode_builtFrom
    (reductionOrigin table stack below examinedEnd mode) serial known rfl entriesSound
  exact ⟨_, reduce_ok.mpr ⟨entries, below, next, node, popped, goes, built, rfl⟩⟩

end ParseStack

end IncrementalParsing
