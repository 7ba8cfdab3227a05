import IncrementalParsing.Proofs.Parsing.Derived
import IncrementalParsing.Proofs.Parsing.Offers
import IncrementalParsing.Proofs.Parsing.Produced

/-!
Trees conform to the grammar. Every element on the stack, in the lookahead and in the old tree comes from
productions, and each step of a machine keeps it so, whatever errors there are. When a text is accepted
the start nonterminal lies on the stack with nothing but error nodes around it, so the root comes from a
production of the start nonterminal.
-/

namespace IncrementalParsing

open Green

/-! ### Reductions and accepted stacks -/

namespace ParseStack

section Stacks

variable {table : Table} {stack : ParseStack} {items : StateId → Lalr.Item → Prop}
  (numbered : table.Numbered) (chart : table.Chart items)

include numbered chart

theorem Conforms.reduce (declared : table.Declared) {production : ProductionInfo} {id : ProductionId}
    {terminal : KindId} {serial examinedEnd : Nat} {mode : LexMode} {reduced : ParseStack}
    (conforms : Conforms table stack) (follows : Follows table stack) (sound : Sound table stack)
    (isTerminal : table.isTerminal terminal = true)
    (reduces : table.action stack.state terminal = .reduce id) (found : table.production id = .ok production)
    (done : stack.reduce table serial production examinedEnd mode = .ok reduced) :
    Conforms table reduced := by
  obtain ⟨due, dueFound, reducible⟩ := follows.reducible numbered chart sound isTerminal reduces
  cases found.symm.trans dueFound
  obtain ⟨entries, below, popped, kinds, _⟩ := reducible.topmost
  obtain ⟨entries', below', next, node, popped', _, built, same⟩ := reduce_ok.mp done
  cases popped.symm.trans popped'
  obtain ⟨taken, shape, order, _⟩ := popEntries_ok popped
  rw [List.append_nil] at order
  have core : ∀ entry, entry ∈ stack.dropWhile (·.extra) → entry ∈ stack :=
    fun entry among => (List.dropWhile_sublist _).subset among
  have entriesConform : Conforms table entries := by
    refine conforms.subset (fun entry member => core entry ?_)
    rw [order] at member
    rw [shape]
    exact List.mem_append_left _ (List.mem_reverse.mp member)
  have belowConform : Conforms table below := by
    refine conforms.subset (fun entry member => core entry ?_)
    rw [shape]
    exact List.mem_append_right _ member
  have entriesSound := (follows.core.1.popped sound.core popped).2.2.1
  have here := buildNode_conforms numbered declared (Array.mem_of_getElem? (requireAt_ok.mp dueFound))
    rfl entriesSound entriesConform kinds built
  have pushed := belowConform.push next here
  rw [same]
  constructor
  · intro entry member
    rcases List.mem_append.mp member with above | rest
    · obtain ⟨extra, among, rfl⟩ := List.mem_map.mp above
      exact conforms.elements extra ((List.takeWhile_sublist _).subset among)
    · exact pushed.elements entry rest
  · intro entry member
    rcases List.mem_append.mp member with above | rest
    · obtain ⟨extra, among, rfl⟩ := List.mem_map.mp above
      exact conforms.extras extra ((List.takeWhile_sublist _).subset among)
    · exact pushed.extras entry rest

omit chart in
theorem Follows.extras_of_unreached : ∀ {stack : ParseStack}, Follows table stack → Sound table stack →
    (∀ before kind, table.HasKind kind → table.successor before kind ≠ some stack.state) →
    ∀ other, other ∈ stack → other.extra = true
  | [], _, _, _, _, member => absurd member List.not_mem_nil
  | top :: below, follows, sound, unreached, other, member => by
      have topExtra : top.extra = true := by
        cases extra : top.extra with
        | true => rfl
        | false =>
            exact absurd (follows.rests.pushed extra)
              (unreached _ _ (hasKind_of_sound numbered (sound top List.mem_cons_self)))
      have same : top.state = state below := follows.rests.repeats topExtra
      rcases List.mem_cons.mp member with first | rest
      · exact first ▸ topExtra
      · refine Follows.extras_of_unreached follows.tail sound.tail ?_ other rest
        rw [← same]
        exact unreached

/-- A stack on which a text is accepted: the start nonterminal, and error nodes around it. -/
structure Accepted (table : Table) (stack above : ParseStack) (entry : StackEntry) (below : ParseStack) :
    Prop where
  shape : stack = above ++ entry :: below
  above : ∀ other, other ∈ above → other.extra = true
  plain : entry.extra = false
  start : entry.element.kind = table.startKind
  below : ∀ other, other ∈ below → other.extra = true

theorem Follows.accepted (accepting : table.AcceptsStart) {terminal : KindId}
    (isTerminal : table.isTerminal terminal = true) : ∀ {stack : ParseStack}, Follows table stack →
    Sound table stack → table.action stack.state terminal = .accept →
    ∃ above entry below, Accepted table stack above entry below
  | [], _, _, accepts => by
      have dot := chart.start_dot _ (chart.accepts _ _ isTerminal accepts).2
      cases dot
  | top :: rest, follows, sound, accepts => by
      cases extra : top.extra with
      | true =>
          have same : top.state = state rest := follows.rests.repeats extra
          change table.action top.state terminal = .accept at accepts
          rw [same] at accepts
          obtain ⟨above, entry, below, shape, aboveExtra, plain, start, belowExtra⟩ :=
            Follows.accepted accepting isTerminal follows.tail sound.tail accepts
          refine ⟨top :: above, entry, below, by rw [shape]; rfl, ?_, plain, start, belowExtra⟩
          intro other member
          rcases List.mem_cons.mp member with first | others
          · exact first ▸ extra
          · exact aboveExtra other others
      | false =>
          obtain ⟨start, unreached⟩ := accepting _ _ _ _
            (hasKind_of_sound numbered (sound top List.mem_cons_self)) (follows.rests.pushed extra)
            isTerminal accepts
          exact ⟨[], top, rest, rfl, fun _ none => absurd none List.not_mem_nil, extra, start,
            follows.tail.extras_of_unreached numbered sound.tail unreached⟩

end Stacks

end ParseStack

namespace Machine

variable {table : Table}

/-- Error nodes do not count for the root. -/
theorem seenOf_gathered_append (stack : ParseStack) : ∀ above : ParseStack,
    ParseStack.Conforms table above → (∀ entry, entry ∈ above → entry.extra = true) →
    (gathered (above ++ stack)).1 = (gathered stack).1 ∧
      seenOf none (gathered (above ++ stack)).2 = seenOf none (gathered stack).2
  | [], _, _ => ⟨rfl, rfl⟩
  | entry :: rest, conforms, extras => by
      obtain ⟨kind, seen⟩ := seenOf_gathered_append stack rest conforms.tail
        (fun other member => extras other (List.mem_cons_of_mem _ member))
      have extra := extras entry List.mem_cons_self
      rw [List.cons_append, gathered_cons, extra]
      dsimp only
      refine ⟨kind, ?_⟩
      rw [seenOf_append, seen, seenOf_cons, seenOf_nil,
        seen_errorNode (conforms.extras entry List.mem_cons_self extra), List.append_nil, List.append_nil]

theorem startKind_index (numbered : table.Numbered) : table.startKind.index = table.terminalCount := by
  have bound := numbered.kinds_le
  have room := numbered.rules_le
  unfold Declaration.symbolLimit at bound
  exact KindId.index_ofIndex (by omega)

theorem isTerminal_startKind (numbered : table.Numbered) : table.isTerminal table.startKind = false := by
  unfold Table.isTerminal
  rw [startKind_index numbered]
  exact decide_eq_false (Nat.lt_irrefl _)

/-- The root of an accepted text comes from a production of the start nonterminal. -/
theorem toRoot_conforms (numbered : table.Numbered) {stack above below : ParseStack} {entry : StackEntry}
    (accepted : ParseStack.Accepted table stack above entry below)
    (sound : ParseStack.Sound table stack) (conforms : ParseStack.Conforms table stack) (serial : Nat)
    {last : Option Token} (ended : ∀ token, last = some token → token.kind = .endOfInput) :
    (stack.toRoot table serial last).element.Everywhere (Element.Conforms table) := by
  obtain ⟨shape, aboveExtra, plain, start, belowExtra⟩ := accepted
  have aboveConform : ParseStack.Conforms table above :=
    conforms.subset (fun other member => by rw [shape]; exact List.mem_append_left _ member)
  have belowConform : ParseStack.Conforms table below :=
    conforms.subset (fun other member => by
      rw [shape]
      exact List.mem_append_right _ (List.mem_cons_of_mem _ member))
  have member : entry ∈ stack := by
    rw [shape]
    exact List.mem_append_right _ List.mem_cons_self
  have elements := conforms.elements entry member
  cases element : entry.element with
  | token leaf =>
      have terminal := (element ▸ sound entry member).here.2.1
      rw [element] at start
      change leaf.kind = table.startKind at start
      rw [start, isTerminal_startKind numbered] at terminal
      cases terminal
  | node head inner =>
      rw [element] at start elements
      change head.kind = table.startKind at start
      have top : gathered (entry :: below) = (head.kind, (gathered below).2 ++ inner) := by
        rw [gathered_cons, plain, element]
      have belowSeen := seenOf_gathered_append [] below belowConform belowExtra
      rw [List.append_nil] at belowSeen
      obtain ⟨kind, seen⟩ := seenOf_gathered_append (entry :: below) above aboveConform aboveExtra
      rw [← shape, top] at kind seen
      rw [seenOf_append, belowSeen.2] at seen
      have lastSeen : seenOf none (ParseStack.endChild last) = [] := by
        cases last with
        | none => rfl
        | some token =>
            change seenOf none [⟨none, .token token⟩] = []
            rw [seenOf_cons, seenOf_nil, Element.seen, if_pos (ended token rfl)]
            rfl
      refine .node (Or.inr ?_) ?_
      · have derived : Node.Derived table ⟨head, inner⟩ := by
          rcases elements.here with error | derived
          · have index := congrArg KindId.index (start.symm.trans error.1)
            rw [startKind_index numbered] at index
            have reserved := numbered.reserved
            exact absurd index (Nat.ne_of_gt (Nat.lt_of_lt_of_le (by decide) reserved))
          · exact derived
        obtain ⟨production, known, lhs, unfolds⟩ := derived.produced
        refine ⟨⟨production, known, lhs.trans kind.symm, ?_⟩, ?_, ?_⟩
        · change table.Unfolds _ (seenOf none ((gathered stack).2 ++ ParseStack.endChild last))
          rw [seenOf_append, lastSeen, List.append_nil, seen]
          exact unfolds
        · intro rope
          exact absurd rope (Nat.lt_irrefl 0)
        · intro high
          exact absurd high (Nat.not_lt_zero 1)
      · intro child among
        change child ∈ (gathered stack).2 ++ ParseStack.endChild last at among
        rcases List.mem_append.mp among with inside | final
        · exact everywhere_gathered stack conforms.elements child inside
        · obtain ⟨token, _, rfl⟩ := List.mem_map.mp final
          exact .token trivial

end Machine

/-! ### Steps and runs -/

def Lookahead.Conforms (table : Table) : Lookahead → Prop
  | .lexed _ => True
  | .reused element _ => element.Everywhere (Element.Conforms table)

structure Machine.Conforms (table : Table) (machine : Machine) : Prop where
  stack : machine.stack.Conforms table
  pending : ∀ lookahead, machine.pending = some lookahead → lookahead.Conforms table
  reuse : ∀ cursor, machine.reuse = some cursor → cursor.Everywhere (Element.Conforms table)

namespace Recovery

variable {job : Job}

theorem leaves_conform {table : Table} (serial : Nat) (tokens : List LexedToken) :
    ∀ element, element ∈ leaves serial tokens → element.Everywhere (Element.Conforms table) := by
  intro element member
  obtain ⟨entry, _, rfl⟩ := List.mem_map.mp member
  exact .token trivial

theorem pushError_conforms (machine : Machine) (elements : List Element) (examinedEnd : Nat)
    (conforms : machine.stack.Conforms job.table)
    (each : ∀ element, element ∈ elements → element.Everywhere (Element.Conforms job.table)) :
    (pushError job machine elements examinedEnd).stack.Conforms job.table := by
  have pushed : ∀ (all : List Element) (stack : ParseStack) (decisionEnd : Nat),
      stack.Conforms job.table →
      (∀ element, element ∈ all → element.Everywhere (Element.Conforms job.table)) →
      (stack.pushExtra (ParseStack.errorNode job.table machine.nextSerial all stack.state
        decisionEnd).element).Conforms job.table := by
    intro all stack decisionEnd below allConform
    have error : (ParseStack.errorNode job.table machine.nextSerial all stack.state
        decisionEnd).element.IsErrorNode := ⟨rfl, rfl⟩
    refine below.cons (.node (Or.inl error) ?_) (fun _ => error)
    intro child member
    obtain ⟨element, among, inside⟩ := List.mem_flatMap.mp member
    exact everywhere_splicedIntoError (allConform element among) child inside
  unfold pushError
  cases shape : machine.stack with
  | nil =>
      rw [shape] at conforms
      exact pushed elements [] _ conforms each
  | cons top below =>
      rw [shape] at conforms
      cases extra : top.extra with
      | true =>
          dsimp only
          rw [if_pos extra]
          refine pushed (top.element :: elements) below _ conforms.tail ?_
          intro element member
          rcases List.mem_cons.mp member with first | others
          · exact first ▸ conforms.elements top List.mem_cons_self
          · exact each element others
      | false =>
          dsimp only
          rw [if_neg (by rw [extra]; exact Bool.false_ne_true)]
          exact pushed elements (top :: below) _ conforms each

end Recovery

namespace Machine

variable {job : Job} {machine : Machine}

theorem start_conforms {table : Table} {reuse : Option ReuseCursor} (serial : Nat)
    (conforms : ∀ cursor, reuse = some cursor → cursor.Everywhere (Element.Conforms table)) :
    (start reuse serial).Conforms table where
  stack := .empty
  pending := fun _ none => by cases none
  reuse := conforms

theorem Conforms.offers {table : Table} (conforms : machine.Conforms table) :
    machine.Offers (Element.Conforms table) :=
  ⟨fun _ _ here => conforms.pending _ here, conforms.reuse⟩

theorem Conforms.of_offers {table : Table} (stack : machine.stack.Conforms table)
    (offers : machine.Offers (Element.Conforms table)) : machine.Conforms table := by
  refine ⟨stack, fun lookahead here => ?_, offers.reuse⟩
  cases lookahead with
  | lexed token => exact trivial
  | reused element mode => exact offers.pending element mode here

theorem lookahead_conforms (conforms : machine.Conforms job.table) {lookahead : Lookahead} {next : Machine}
    (same : next.stack = machine.stack) (done : machine.lookahead job = .ok (lookahead, next)) :
    lookahead.Conforms job.table ∧ next.Conforms job.table := by
  obtain ⟨here, kept⟩ := conforms.offers.lookahead done
  refine ⟨?_, .of_offers (same ▸ conforms.stack) kept⟩
  cases lookahead with
  | lexed token => exact trivial
  | reused element mode => exact here element mode rfl

theorem descend_conforms {table : Table} (conforms : machine.Conforms table) : machine.descend.Conforms table :=
  .of_offers conforms.stack conforms.offers.descend

theorem push_conforms {table : Table} (conforms : machine.Conforms table) (target : StateId)
    {element : Element} (here : element.Everywhere (Element.Conforms table)) (position serial : Nat)
    (mode : Option LexMode) :
    Machine.Conforms table { machine with
      stack := machine.stack.push target element
      position
      mode
      nextSerial := serial } :=
  ⟨conforms.stack.push target here, conforms.pending, conforms.reuse⟩

/-- What a step leads to: a machine of which the same holds, or a root that conforms to the grammar. -/
def EndsConforming (table : Table) : Machine ⊕ Node → Prop
  | .inl next => next.Conforms table
  | .inr root => root.element.Everywhere (Element.Conforms table)

theorem recover_conforms (conforms : machine.Conforms job.table) {lookahead : LexedToken}
    {answer : Machine ⊕ Node} (done : Recovery.recover job machine lookahead = .ok answer) :
    EndsConforming job.table answer := by
  cases Recovery.recover_answers done with
  | resumes =>
      refine ⟨Recovery.pushError_conforms _ _ _ ?_ ?_, ?_, conforms.reuse⟩
      · exact conforms.stack.subset (fun _ member => List.mem_of_mem_drop member)
      · intro element member
        rcases List.mem_append.mp member with popped | skipped
        · obtain ⟨entry, among, rfl⟩ := List.mem_map.mp popped
          exact conforms.stack.elements entry (List.mem_of_mem_take (List.mem_reverse.mp among))
        · exact Recovery.leaves_conform _ _ element skipped
      · intro other same
        cases same
        exact trivial
  | skips =>
      exact ⟨Recovery.pushError_conforms _ _ _ conforms.stack (Recovery.leaves_conform _ _), conforms.pending,
        conforms.reuse⟩
  | ends =>
      refine .node (Or.inl ⟨rfl, rfl⟩) ?_
      intro child member
      rcases List.mem_append.mp member with inside | final
      · obtain ⟨entry, among, below⟩ := List.mem_flatMap.mp inside
        exact everywhere_splicedIntoError (conforms.stack.elements entry (List.mem_reverse.mp among))
          child below
      · obtain ⟨token, _, rfl⟩ := List.mem_map.mp final
        exact .token trivial

section Steps

variable {items : StateId → Lalr.Item → Prop} (sound : job.Sound) (declared : job.table.Declared)
  (accepting : job.table.AcceptsStart) (chart : job.table.Chart items)

include sound declared accepting chart

theorem step_conforms (fits : machine.Fits job) (conforms : machine.Conforms job.table)
    {answer : Machine ⊕ Node} (done : machine.step job = .ok answer) : EndsConforming job.table answer := by
  obtain ⟨lookahead, next, looked, responds⟩ := step_responds done
  have ahead := lookahead_fits job sound fits looked
  obtain ⟨here, kept⟩ := lookahead_conforms conforms ahead.stack_eq looked
  have isTerminal := ahead.lookahead.terminal sound
  cases responds with
  | reduce acts reduces =>
      obtain ⟨production, stack, found, stackReduced, rfl⟩ := reduce_ok.mp reduces
      refine ⟨?_, ?_, kept.reuse⟩
      · exact kept.stack.reduce sound.table chart declared ahead.fits.follows ahead.fits.sound isTerminal acts
          found stackReduced
      · intro other same
        cases same
        exact here
  | shift => exact push_conforms kept _ (.token trivial) _ _ _
  | shiftReused => exact push_conforms kept _ (.token trivial) _ _ _
  | push => exact push_conforms kept _ here _ _ _
  | enter => exact descend_conforms kept
  | lex =>
      refine ⟨kept.stack, ?_, kept.reuse⟩
      intro other same
      cases same
      exact trivial
  | accept acts =>
      obtain ⟨above, entry, below, accepted⟩ :=
        ahead.fits.follows.accepted sound.table chart accepting isTerminal ahead.fits.sound acts
      refine toRoot_conforms sound.table accepted ahead.fits.sound kept.stack _ ?_
      intro leaf same
      unfold endToken at same
      split at same
      · cases same
      · cases same
        exact sound.ends.accepts _ _ isTerminal acts
  | recover _ done => exact recover_conforms kept done

theorem run_conforms (fuel : Nat) {machine : Machine} {root : Node} (fits : machine.Fits job)
    (conforms : machine.Conforms job.table) (done : run job fuel machine = .ok root) :
    root.element.Everywhere (Element.Conforms job.table) := by
  refine run_induction (fun machine => machine.Fits job ∧ machine.Conforms job.table)
    (fun root => root.element.Everywhere (Element.Conforms job.table)) ?_ ?_ fuel ⟨fits, conforms⟩ done
  · rintro machine next ⟨fits, conforms⟩ stepped
    exact ⟨step_fits sound fits stepped, step_conforms sound declared accepting chart fits conforms stepped⟩
  · rintro machine root ⟨fits, conforms⟩ stepped
    exact step_conforms sound declared accepting chart fits conforms stepped

end Steps

end Machine

end IncrementalParsing
