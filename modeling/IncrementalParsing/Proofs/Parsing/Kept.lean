import IncrementalParsing.Proofs.Green.Containing
import IncrementalParsing.Proofs.Parsing.Seated

/-!
What is on the stack stays in the tree. Nodes are taken apart where they are hidden, where error nodes are put
into other error nodes, where ropes are joined, and where the start node gives way to the root. Everything else
on a stack is kept as it is, whatever the run does, and is in the root at the end.
-/

namespace IncrementalParsing

open Green

structure Green.Element.Whole (table : Table) (element : Element) : Prop where
  plain : element.isRope = false
  shown : element.Shown table
  proper : element.isToken = false → element.kind ≠ .error

def Green.Keeps (children : List Child) (inner : Element) : Prop :=
  ∃ child, child ∈ children ∧ child.element.Contains inner

def ParseStack.Keeps (stack : ParseStack) (inner : Element) : Prop :=
  ∃ entry, entry ∈ stack ∧ entry.element.Contains inner

theorem ParseStack.Keeps.mono {stack other : ParseStack} {inner : Element} (keeps : stack.Keeps inner)
    (among : ∀ entry, entry ∈ stack → entry ∈ other) : other.Keeps inner := by
  obtain ⟨entry, member, contains⟩ := keeps
  exact ⟨entry, among entry member, contains⟩

theorem ParseStack.keeps_append {left right : ParseStack} {inner : Element} :
    Keeps (left ++ right) inner ↔ left.Keeps inner ∨ right.Keeps inner := by
  unfold Keeps
  simp only [List.mem_append, or_and_right, exists_or]

theorem Green.keeps_append {left right : List Child} {inner : Element} :
    Keeps (left ++ right) inner ↔ Keeps left inner ∨ Keeps right inner := by
  unfold Keeps
  simp only [List.mem_append, or_and_right, exists_or]

theorem Green.Keeps.contains {head : Head} {children : List Child} {inner : Element} (keeps : Keeps children inner) :
    (Element.node head children).Contains inner := by
  obtain ⟨child, member, contains⟩ := keeps
  exact .child member contains

section Contributions

variable {table : Table} {inner : Element} (whole : inner.Whole table)

include whole

theorem keeps_spliced {element : Element} (contains : element.Contains inner) (field : Option FieldId) :
    Keeps (spliced table field element) inner := by
  have alone : Keeps [⟨field, element⟩] inner := ⟨_, List.mem_singleton_self _, contains⟩
  cases element with
  | token leaf => exact alone
  | node head children =>
      unfold spliced
      dsimp only
      split
      · rename_i hides
        rw [Bool.and_eq_true, decide_eq_true_eq] at hides
        rcases contains.cases_head with rfl | ⟨child, member, inside⟩
        · rcases whole.shown with token | rope | visible
          · cases token
          · cases whole.plain.symm.trans rope
          · cases visible.symm.trans hides.2
        · exact ⟨_, List.mem_map.mpr ⟨child, member, rfl⟩, inside⟩
      · exact alone

theorem keeps_splicedIntoError {element : Element} (contains : element.Contains inner) :
    Keeps (splicedIntoError table element) inner := by
  unfold splicedIntoError
  split
  · rename_i error
    rw [Bool.and_eq_true, Bool.not_eq_true', beq_iff_eq] at error
    rcases contains.cases_head with rfl | ⟨child, member, inside⟩
    · exact absurd error.2 (whole.proper error.1)
    · exact ⟨_, List.mem_map.mpr ⟨child, member, rfl⟩, inside⟩
  · exact keeps_spliced whole contains none

theorem keeps_productionChildren : ∀ (fields : List (Option FieldId)) (entries : List StackEntry),
    ParseStack.Keeps entries inner → Keeps (productionChildren table fields entries) inner
  | _, [], ⟨_, member, _⟩ => absurd member List.not_mem_nil
  | fields, entry :: rest, ⟨other, member, contains⟩ => by
      unfold productionChildren
      rcases List.mem_cons.mp member with rfl | later
      · split
        · exact keeps_append.mpr (Or.inl (keeps_spliced whole contains _))
        · exact keeps_append.mpr (Or.inl (keeps_spliced whole contains _))
      · split
        · exact keeps_append.mpr (Or.inr (keeps_productionChildren _ rest ⟨other, later, contains⟩))
        · exact keeps_append.mpr (Or.inr (keeps_productionChildren _ rest ⟨other, later, contains⟩))

theorem buildNode_contains {production : ProductionInfo} {entries : List StackEntry} {origin : Origin} {serial : Nat}
    {node : Node} (known : table.HasKind production.lhs) (sound : ParseStack.Sound table entries)
    (keeps : ParseStack.Keeps entries inner)
    (built : buildNode table serial production entries origin = .ok node) : node.element.Contains inner := by
  have made : ∀ (serial : Nat) (origin : Origin),
      (Node.make serial production.lhs (productionChildren table production.fields entries) origin).element.Contains
        inner :=
    fun serial origin => (keeps_productionChildren whole production.fields entries keeps).contains
  cases buildNode_builtBy known sound built with
  | plain => exact made _ _
  | base => exact made _ _
  | join _ shape firstIs secondIs leftRope rightRope joined =>
      subst shape
      apply joined.contains leftRope rightRope whole.plain
      obtain ⟨entry, member, contains⟩ := keeps
      rcases List.mem_cons.mp member with rfl | rest
      · exact Or.inl (firstIs ▸ contains)
      · cases List.mem_singleton.mp rest
        exact Or.inr (secondIs ▸ contains)

theorem ParseStack.reduce_keeps {stack reduced : ParseStack} {production : ProductionInfo}
    {serial examinedEnd : Nat} {mode : LexMode} (known : table.HasKind production.lhs) (sound : Sound table stack)
    (follows : Follows table stack) (keeps : stack.Keeps inner)
    (done : stack.reduce table serial production examinedEnd mode = .ok reduced) : reduced.Keeps inner := by
  obtain ⟨entries, below, next, node, popped, _, built, rfl⟩ := reduce_ok.mp done
  obtain ⟨taken, shape, order, _⟩ := popEntries_ok popped
  rw [List.append_nil] at order
  have entriesSound := (follows.core.1.popped sound.core popped).2.2.1
  have split : stack.takeWhile (·.extra) ++ (taken ++ below) = stack := by
    rw [← shape]
    exact List.takeWhile_append_dropWhile
  rw [← split] at keeps
  rcases keeps_append.mp keeps with ⟨entry, member, contains⟩ | core
  · exact ⟨_, List.mem_append_left _ (List.mem_map.mpr ⟨entry, member, rfl⟩), contains⟩
  · rcases keeps_append.mp core with inTaken | inBelow
    · have contains := buildNode_contains whole known entriesSound
        (inTaken.mono fun entry member => by rw [order]; exact List.mem_reverse.mpr member) built
      exact ⟨_, List.mem_append_right _ List.mem_cons_self, contains⟩
    · exact inBelow.mono fun entry member => List.mem_append_right _ (List.mem_cons_of_mem _ member)

end Contributions

/-! ### Recovery -/

namespace Recovery

variable {job : Job} {inner : Element} (whole : inner.Whole job.table)

include whole

theorem pushError_keeps (machine : Machine) (elements : List Element) (examinedEnd : Nat)
    (keeps : machine.stack.Keeps inner ∨ ∃ element, element ∈ elements ∧ element.Contains inner) :
    (pushError job machine elements examinedEnd).stack.Keeps inner := by
  have pushed : ∀ (all : List Element) (stack : ParseStack) (decisionEnd : Nat),
      (stack.Keeps inner ∨ ∃ element, element ∈ all ∧ element.Contains inner) →
      (stack.pushExtra (ParseStack.errorNode job.table machine.nextSerial all stack.state
        decisionEnd).element).Keeps inner := by
    rintro all stack decisionEnd (below | ⟨element, member, contains⟩)
    · exact below.mono fun entry member => List.mem_cons_of_mem _ member
    · obtain ⟨child, inside, deeper⟩ := keeps_splicedIntoError whole contains
      exact ⟨_, List.mem_cons_self, .child (List.mem_flatMap.mpr ⟨element, member, inside⟩) deeper⟩
  unfold pushError
  cases shape : machine.stack with
  | nil =>
      rw [shape] at keeps
      exact pushed elements [] _ keeps
  | cons top below =>
      rw [shape] at keeps
      cases extra : top.extra with
      | true =>
          dsimp only
          rw [if_pos extra]
          refine pushed (top.element :: elements) below _ ?_
          rcases keeps with ⟨entry, member, contains⟩ | ⟨element, member, contains⟩
          · rcases List.mem_cons.mp member with rfl | rest
            · exact Or.inr ⟨_, List.mem_cons_self, contains⟩
            · exact Or.inl ⟨entry, rest, contains⟩
          · exact Or.inr ⟨element, List.mem_cons_of_mem _ member, contains⟩
      | false =>
          dsimp only
          rw [if_neg (by rw [extra]; exact Bool.false_ne_true)]
          exact pushed elements (top :: below) _ keeps

theorem recover_keeps {machine next : Machine} (keeps : machine.stack.Keeps inner) {token : LexedToken}
    (done : recover job machine token = .ok (.inl next)) : next.stack.Keeps inner := by
  cases recover_answers done with
  | @resumes repair =>
      refine pushError_keeps whole
        { machine with
          stack := machine.stack.drop repair.popped
          position := (repair.skipped.getLast?.map (·.stop)).getD machine.position
          nextSerial := machine.nextSerial + repair.skipped.length } _ _ ?_
      rw [← List.take_append_drop repair.popped machine.stack] at keeps
      rcases ParseStack.keeps_append.mp keeps with ⟨entry, member, contains⟩ | left
      · exact Or.inr ⟨entry.element, List.mem_append_left _
          (List.mem_map.mpr ⟨entry, List.mem_reverse.mpr member, rfl⟩), contains⟩
      · exact Or.inl left
  | skips =>
      exact pushError_keeps whole { machine with position := token.stop, nextSerial := machine.nextSerial + 1 }
        _ _ (Or.inl keeps)

end Recovery

/-! ### Roots -/

/-- A root has an element in it, or the element has become the root, which is of its kind and has its children. -/
def Green.Node.Shares (root : Node) (inner : Element) : Prop :=
  root.element.Contains inner ∨ root.kind = inner.kind ∧ ∀ child, child ∈ inner.children → child ∈ root.children

namespace Machine

/-- What is on an accepted stack is in the root, but for the nodes on the stack themselves, which leave their
children to it. -/
theorem keeps_gathered {inner : Element} : ∀ stack : ParseStack, stack.Keeps inner →
    Keeps (gathered stack).2 inner ∨ ∃ entry, entry ∈ stack ∧ entry.extra = false ∧ entry.element = inner ∧
      ∀ child, child ∈ inner.children → child ∈ (gathered stack).2
  | [], ⟨_, member, _⟩ => absurd member List.not_mem_nil
  | entry :: below, ⟨other, member, contains⟩ => by
      rw [gathered_cons]
      rcases List.mem_cons.mp member with rfl | later
      · split
        · rename_i head children plain shape
          rw [shape] at contains
          rcases contains.cases_head with same | ⟨child, among, inside⟩
          · subst same
            exact Or.inr ⟨other, List.mem_cons_self, plain, shape, fun child among => List.mem_append_right _ among⟩
          · exact Or.inl ⟨child, List.mem_append_right _ among, inside⟩
        · exact Or.inl ⟨_, List.mem_append_right _ (List.mem_singleton_self _), contains⟩
      · rcases keeps_gathered below ⟨other, later, contains⟩ with kept | ⟨same, among, plain, is, left⟩
        · left
          split
          · exact keeps_append.mpr (Or.inl kept)
          · exact keeps_append.mpr (Or.inl kept)
        · refine Or.inr ⟨same, List.mem_cons_of_mem _ among, plain, is, fun child inside => ?_⟩
          split
          · exact List.mem_append_left _ (left child inside)
          · exact List.mem_append_left _ (left child inside)

theorem toRoot_shares {table : Table} (numbered : table.Numbered) {inner : Element}
    {stack above below : ParseStack} {entry : StackEntry} (accepted : ParseStack.Accepted table stack above entry below)
    (sound : ParseStack.Sound table stack) (keeps : stack.Keeps inner) (serial : Nat) (last : Option Green.Token) :
    (stack.toRoot table serial last).Shares inner := by
  rcases keeps_gathered stack keeps with kept | ⟨other, member, plain, rfl, children⟩
  · exact Or.inl (keeps_append.mpr (Or.inl kept)).contains
  · have only : other = entry := by
      rw [accepted.shape] at member
      rcases List.mem_append.mp member with among | rest
      · cases plain.symm.trans (accepted.above other among)
      · rcases List.mem_cons.mp rest with rfl | among
        · rfl
        · cases plain.symm.trans (accepted.below other among)
    subst only
    refine Or.inr ⟨?_, fun child inside => List.mem_append_left _ (children child inside)⟩
    exact (kind_gathered numbered accepted sound).trans accepted.start.symm

theorem toErrorRoot_contains {table : Table} {inner : Element} (whole : inner.Whole table) {stack : ParseStack}
    (keeps : stack.Keeps inner) (serial : Nat) (last : Option Green.Token) :
    (stack.toErrorRoot table serial last).element.Contains inner := by
  obtain ⟨entry, member, contains⟩ := keeps
  obtain ⟨child, inside, deeper⟩ := keeps_splicedIntoError whole contains
  refine .child (List.mem_append_left _ ?_) deeper
  exact List.mem_flatMap.mpr ⟨entry, List.mem_reverse.mpr member, inside⟩

/-! ### Steps and runs -/

variable {job : Job} {machine : Machine} {inner : Element}

theorem step_keeps (sound : job.Sound) (whole : inner.Whole job.table) (fits : machine.Fits job)
    (keeps : machine.stack.Keeps inner) {next : Machine} (done : machine.step job = .ok (.inl next)) :
    next.stack.Keeps inner := by
  obtain ⟨lookahead, ahead, looked, responds⟩ := step_responds done
  have looks := lookahead_fits job sound fits looked
  rw [← looks.stack_eq] at keeps
  have pushed : ∀ (target : StateId) (element : Element), (ahead.stack.push target element).Keeps inner :=
    fun target element => keeps.mono fun entry member => List.mem_cons_of_mem _ member
  cases responds with
  | reduce _ reduces =>
      obtain ⟨production, after, found, stackReduced, rfl⟩ := reduce_ok.mp reduces
      have known := (sound.table.lhs production (Array.mem_of_getElem? (requireAt_ok.mp found))).2
      exact ParseStack.reduce_keeps whole known looks.fits.sound looks.fits.follows keeps stackReduced
  | shift => exact pushed _ _
  | shiftReused => exact pushed _ _
  | push => exact pushed _ _
  | enter => exact keeps
  | lex => exact keeps
  | recover _ done => exact Recovery.recover_keeps whole keeps done

theorem step_shares {items : StateId → Lalr.Item → Prop} (sound : job.Sound) (accepting : job.table.AcceptsStart)
    (chart : job.table.Chart items) (whole : inner.Whole job.table) (fits : machine.Fits job)
    (keeps : machine.stack.Keeps inner) {root : Node} (done : machine.step job = .ok (.inr root)) :
    root.Shares inner := by
  cases step_endsWith sound accepting chart fits done with
  | accepted accepted same =>
      rw [same]
      exact toRoot_shares sound.table accepted fits.sound keeps _ _
  | gaveUp same =>
      rw [same]
      exact Or.inl (toErrorRoot_contains whole keeps _ _)

end Machine

end IncrementalParsing
