import IncrementalParsing.Proofs.Lalr.Agenda
import IncrementalParsing.Proofs.Lalr.Propagation

/-!
Lookaheads with every access checked. What arises and what flows is computed once more from the closures made
item by item, with operations that break off: an edge and a place in the kernel behind it are looked up, and
sets are united within their capacity. Nothing breaks off. The order in which closures list their items makes
no difference, since lookaheads that have arisen and flowed everywhere are known from the canonical items.
-/

namespace IncrementalParsing.Lalr

namespace Guarded

def addAt (capacity : Nat) (flow : Flow) (place : Nat) (lookahead : TerminalSet) : Except Fault Flow := do
  let set ← requireAt flow.sets place
  let (merged, _) ← set.unionBelow capacity lookahead
  return { flow with sets := flow.sets.setIfInBounds place merged }

def contributeItem (grammar : Grammar) (placement : Placement) (targets : List (Symbol × Nat)) (origin : Nat)
    (flow : Flow) (closed : Construction.ClosedItem) : Except Fault Flow :=
  match (Rules.ofGrammar grammar).nextSymbol closed.item with
  | none => return flow
  | some symbol =>
      match targets.lookup symbol with
      | none => .error .malformedArgument
      | some target => do
          let place ← placement.place target closed.item.advance
          let next ← addAt (capacityOf grammar) flow place
            (closed.lookahead.remove (Construction.ofGrammar grammar).marker)
          if closed.lookahead.contains (Construction.ofGrammar grammar).marker then
            return { next with arcs := next.arcs.push (origin, place) }
          else
            return next

def contributeState (grammar : Grammar) (sets : FirstSets) (placement : Placement) (automaton : Automaton)
    (flow : Flow) (state : Nat) : Except Fault Flow :=
  (automaton.kernels[state]?.getD []).zipIdx.foldlM
    (fun flow entry => do
      let closure ← itemClosure grammar sets entry.1
      closure.foldlM
        (contributeItem grammar placement (automaton.edgesOf state) (placement.base state + entry.2)) flow)
    flow

/-- The end of the input follows the start item; all other sets are empty. -/
def initialFlow (grammar : Grammar) (placement : Placement) : Except Fault Flow := do
  let sets := Array.replicate placement.total (TerminalSet.withCapacity (capacityOf grammar))
  let first ← requireAt sets 0
  let (first, _) ← first.insertBelow (capacityOf grammar) .endOfInput
  return ⟨sets.setIfInBounds 0 first, #[]⟩

/-- Lets lookaheads flow along every arc that leads to another place. -/
def flowRound (capacity : Nat) (arcs : Array (Nat × Nat)) (sets : Array TerminalSet) :
    Except Fault (Array TerminalSet × Bool) :=
  arcs.toList.foldlM
    (fun (sets, changed) arc =>
      if arc.1 = arc.2 then return (sets, changed)
      else do
        let source ← requireAt sets arc.1
        let target ← requireAt sets arc.2
        let (merged, grew) ← target.unionBelow capacity source
        return (sets.setIfInBounds arc.2 merged, changed || grew))
    (sets, false)

/-- The lookaheads of all kernel items, by number. -/
def lookaheads (grammar : Grammar) (sets : FirstSets) (placement : Placement) (automaton : Automaton) :
    Except Fault (Array TerminalSet) := do
  let initial ← initialFlow grammar placement
  let flow ← (List.range automaton.kernels.size).foldlM (contributeState grammar sets placement automaton) initial
  saturateWithin (flowRound (capacityOf grammar) flow.arcs) (placement.total * (grammar.terminalCount + 1) + 1)
    flow.sets

structure Fitted (grammar : Grammar) (automaton : Automaton) (sets : Array TerminalSet) : Prop where
  size : sets.size = (Placement.ofAutomaton automaton).total
  made : ∀ set, set ∈ sets → set.MadeFor (capacityOf grammar)
  below : ∀ set, set ∈ sets → set.bits < 1 <<< capacityOf grammar

section Agreement

variable {grammar : Grammar} {automaton : Automaton} {flow : Flow} (numbered : grammar.Numbered)

include numbered in
/-- Everything that flows is within the capacity, since it follows an item. -/
theorem Fitted.of_flowing (flowing : Flowing grammar automaton flow) : Fitted grammar automaton flow.sets where
  size := flowing.size
  made := flowing.slots
  below := by
    intro set member
    have slots := flowing.slots set member
    obtain ⟨place, found⟩ := Array.mem_iff_getElem?.mp member
    obtain ⟨inside, _⟩ := Array.getElem?_eq_some_iff.mp found
    obtain ⟨state, item, located⟩ := exists_located (flowing.size ▸ inside)
    apply TerminalSet.bits_lt_of_contains (slots ▸ slotsOf_le numbered)
    intro terminal present
    obtain ⟨_, _, canonical⟩ := flowing.sets place state item set terminal found located present
    exact Nat.lt_succ_of_lt (canonical.terminal_lt numbered)

theorem Fitted.replace {sets : Array TerminalSet} (fitted : Fitted grammar automaton sets) (place : Nat)
    {set : TerminalSet} (made : set.MadeFor (capacityOf grammar)) (below : set.bits < 1 <<< capacityOf grammar) :
    Fitted grammar automaton (sets.setIfInBounds place set) where
  size := by
    rw [Array.size_setIfInBounds]
    exact fitted.size
  made other among := by
    rcases Array.mem_or_eq_of_mem_setIfInBounds among with old | rfl
    · exact fitted.made other old
    · exact made
  below other among := by
    rcases Array.mem_or_eq_of_mem_setIfInBounds among with old | rfl
    · exact fitted.below other old
    · exact below

theorem addAt_eq (fitted : Fitted grammar automaton flow.sets) {place : Nat}
    (inside : place < (Placement.ofAutomaton automaton).total) {lookahead : TerminalSet}
    (below : lookahead.bits < 1 <<< capacityOf grammar) :
    addAt (capacityOf grammar) flow place lookahead = .ok (flow.add place lookahead) := by
  rw [← fitted.size] at inside
  unfold addAt
  rw [requireAt_of_lt _ _ inside, ok_bind,
    TerminalSet.unionBelow_eq (fitted.made _ (Array.getElem_mem inside)) below, ok_bind]
  dsimp only
  rw [setIfInBounds_union (Array.getElem?_eq_getElem inside) lookahead]
  rfl

theorem add_of_isEmpty {lookahead : TerminalSet} (empty : lookahead.isEmpty = true) (place : Nat) :
    flow.add place lookahead = flow := by
  have same : flow.sets.modify place (·.union lookahead) = flow.sets := by
    apply Array.ext_getElem?
    intro other
    rw [Array.getElem?_modify]
    split
    · cases flow.sets[other]? with
      | none => rfl
      | some set => rw [Option.map_some, TerminalSet.union_of_isEmpty empty]
    · rfl
  unfold Flow.add
  rw [same]

include numbered

theorem contributeItem_eq (productive : grammar.unproductive? = none)
    (fitted : Fitted grammar automaton flow.sets) {seed : Item} {closed : Construction.ClosedItem}
    (member : closed ∈ (Construction.ofGrammar grammar).closure seed) (targets : List (Symbol × Nat))
    (origin : Nat) :
    contributeItem grammar (.ofAutomaton automaton) targets origin flow closed =
      Flow.contribute (.ofGrammar grammar) (.ofAutomaton automaton) targets origin flow closed := by
  obtain ⟨slots, sound⟩ := Construction.closure_sound numbered productive member
  have below : (closed.lookahead.remove (Construction.ofGrammar grammar).marker).bits <
      1 <<< capacityOf grammar := by
    apply TerminalSet.bits_lt_of_contains
    · rw [TerminalSet.slots_remove, slots]
      exact slotsOf_le numbered
    · intro terminal present
      rw [TerminalSet.contains_remove, Bool.and_eq_true] at present
      exact Agenda.lt_capacity numbered (sound terminal present.1)
  have rules : (Construction.ofGrammar grammar).rules = .ofGrammar grammar := rfl
  unfold contributeItem Flow.contribute
  rw [rules]
  cases (Rules.ofGrammar grammar).nextSymbol closed.item with
  | none => rfl
  | some symbol =>
      dsimp only
      cases targets.lookup symbol with
      | none => rfl
      | some target =>
          dsimp only
          cases placed : (Placement.ofAutomaton automaton).place target closed.item.advance with
          | error fault => rfl
          | ok place =>
              rw [ok_bind, ok_bind, addAt_eq fitted (place_lt_total (Placement.place_located placed)) below,
                ok_bind]
              cases empty : (closed.lookahead.remove (Construction.ofGrammar grammar).marker).isEmpty with
              | false => rfl
              | true =>
                  rw [add_of_isEmpty empty]
                  rfl

theorem contributeState_done (productive : grammar.unproductive? = none)
    (explored : automaton.Explored (.ofGrammar grammar) automaton.kernels.size)
    (flowing : Flowing grammar automaton flow) {state : Nat} (inside : state < automaton.kernels.size) :
    ∃ after, contributeState grammar (.ofGrammar grammar) (.ofAutomaton automaton) automaton flow state =
        .ok after ∧
      Flowing grammar automaton after ∧ flow.Grows after ∧
      ∀ origin seed closed, Placement.Located automaton origin state seed →
        closed ∈ (Construction.ofGrammar grammar).closure seed →
        Contributed grammar automaton state origin closed after := by
  have found := Array.getElem?_eq_getElem inside
  unfold contributeState
  rw [found, Option.getD_some]
  refine flowing.contributeKernel found ?_
  intro seed slot before at_ flows
  have inKernel := List.mem_of_getElem? at_
  obtain ⟨closure, answers, _, members⟩ :=
    mem_itemClosure numbered productive (explored.kernel_inner found inKernel)
  have each : ∀ closed, closed ∈ closure → ∀ middle, Flowing grammar automaton middle →
      ∃ after, contributeItem grammar (.ofAutomaton automaton) (automaton.edgesOf state)
          ((Placement.ofAutomaton automaton).base state + slot) middle closed = .ok after ∧
        Flowing grammar automaton after ∧ middle.Grows after ∧
        Contributed grammar automaton state ((Placement.ofAutomaton automaton).base state + slot) closed after := by
    intro closed among middle flowsMiddle
    have member := (members closed).mp among
    rw [contributeItem_eq numbered productive (.of_flowing numbered flowsMiddle) member]
    exact flowsMiddle.contribute numbered productive explored found inKernel ⟨slot, _, found, at_, rfl⟩ member
  obtain ⟨after, folded, flowsAfter, grown, all⟩ := foldlM_done
    (Contributed grammar automaton state ((Placement.ofAutomaton automaton).base state + slot))
    Flow.Grows.refl (fun _ _ _ => Flow.Grows.trans) (fun _ _ _ => Contributed.grow) closure each before flows
  dsimp only
  rw [answers, ok_bind]
  exact ⟨after, folded, flowsAfter, grown, fun closed member => all closed ((members closed).mpr member)⟩

omit numbered in
theorem initialFlow_eq (explored : automaton.Explored (.ofGrammar grammar) automaton.kernels.size) :
    initialFlow grammar (.ofAutomaton automaton) =
      .ok (.initial (.ofGrammar grammar) (.ofAutomaton automaton)) := by
  have inside : KindId.endOfInput.index < capacityOf grammar := Nat.succ_pos _
  have blank : (Construction.ofGrammar grammar).emptySet = .withCapacity (capacityOf grammar) := rfl
  have positive : 0 < (Array.replicate (Placement.ofAutomaton automaton).total
      (TerminalSet.withCapacity (capacityOf grammar))).size := by
    rw [Array.size_replicate]
    exact place_lt_total (located_start explored)
  have made : ((Array.replicate (Placement.ofAutomaton automaton).total
      (TerminalSet.withCapacity (capacityOf grammar)))[0]).MadeFor (capacityOf grammar) := by
    rw [Array.getElem_replicate]
    exact TerminalSet.madeFor_withCapacity _
  unfold initialFlow Flow.initial
  dsimp only
  rw [blank, requireAt_of_lt _ _ positive, ok_bind, TerminalSet.insertBelow_eq made inside, ok_bind]
  dsimp only
  rw [setIfInBounds_eq_modify positive (·.add .endOfInput)]
  rfl

/-- A round does what it does without checks: where an arc leads back to its source nothing can flow. -/
theorem flowRound_eq {arcs : Array (Nat × Nat)} {sets : Array TerminalSet}
    (flowing : Flowing grammar automaton ⟨sets, arcs⟩) :
    flowRound (capacityOf grammar) arcs sets = .ok (Flow.round arcs sets) := by
  unfold flowRound Flow.round
  rw [← Array.foldl_toList]
  refine (foldlM_agrees (fun state => Fitted grammar automaton state.1) _ ?_ (sets, false)
    (.of_flowing numbered flowing)).1
  rintro ⟨source, place⟩ member ⟨before, changed⟩ fitted
  obtain ⟨_, _, _, _, _, there, here, _⟩ := flowing.arcs source place (Array.mem_toList_iff.mp member)
  have sourceLt : source < before.size := fitted.size ▸ place_lt_total there
  have placeLt : place < before.size := fitted.size ▸ place_lt_total here
  have sourceAt := Array.getElem?_eq_getElem sourceLt
  have placeAt := Array.getElem?_eq_getElem placeLt
  have made := fitted.made _ (Array.getElem_mem placeLt)
  have below := fitted.below _ (Array.getElem_mem sourceLt)
  dsimp only
  rw [sourceAt, placeAt]
  by_cases same : source = place
  · subst same
    dsimp only
    rw [if_pos rfl, TerminalSet.unionGrew_self]
    exact ⟨rfl, fitted⟩
  · rw [if_neg same, requireAt_of_lt _ _ sourceLt, ok_bind, requireAt_of_lt _ _ placeLt, ok_bind,
      TerminalSet.unionBelow_eq made below, ok_bind]
    dsimp only
    cases grew : (before[place].unionGrew before[source]).2 with
    | false =>
        have unchanged : before.setIfInBounds place (before[place].union before[source]) = before := by
          rw [TerminalSet.union_of_unionGrew_eq_false grew, Array.setIfInBounds_def, dif_pos placeLt,
            Array.set_getElem_self]
        rw [unchanged, Bool.or_false, if_neg Bool.false_ne_true]
        exact ⟨rfl, fitted⟩
    | true =>
        rw [Bool.or_true, if_pos rfl]
        exact ⟨rfl, fitted.replace place (made.union _)
          (TerminalSet.bits_union_lt (fitted.below _ (Array.getElem_mem placeLt)) below)⟩

omit numbered in
theorem settled_unique (numbered : grammar.Numbered) (productive : grammar.unproductive? = none)
    (explored : automaton.Explored (.ofGrammar grammar) automaton.kernels.size) {first second : Flow}
    (one : Settled grammar automaton first) (two : Settled grammar automaton second) :
    first.sets = second.sets := by
  apply Array.ext
  · rw [one.flowing.size, two.flowing.size]
  intro place firstLt secondLt
  obtain ⟨state, item, located⟩ := exists_located (one.flowing.size ▸ firstLt)
  have members : ∀ {flow : Flow} (settled : Settled grammar automaton flow) (inside : place < flow.sets.size)
      (terminal : KindId), flow.sets[place].contains terminal = true ↔ Ahead grammar automaton state item terminal := by
    intro flow settled inside terminal
    have at_ := Array.getElem?_eq_getElem inside
    rw [← settled.holds_iff numbered productive explored located]
    constructor
    · intro present
      exact ⟨_, at_, present⟩
    · rintro ⟨set, found, present⟩
      cases at_.symm.trans found
      exact present
  have slots := one.flowing.slots _ (Array.getElem_mem firstLt)
  apply TerminalSet.eq_of_contains (slots ▸ slotsOf_le numbered)
  · rw [slots, two.flowing.slots _ (Array.getElem_mem secondLt)]
  · intro terminal
    rw [Bool.eq_iff_iff, members one firstLt, members two secondLt]

/-- With every access checked, the lookaheads of kernel items are computed, and they are the same. -/
theorem lookaheads_eq (productive : grammar.unproductive? = none)
    (explored : automaton.Explored (.ofGrammar grammar) automaton.kernels.size) :
    ∃ sets arcs, lookaheads grammar (.ofGrammar grammar) (.ofAutomaton automaton) automaton = .ok sets ∧
      Lalr.lookaheads (.ofGrammar grammar) (.ofConstruction (.ofGrammar grammar)) (.ofAutomaton automaton)
        automaton = .ok sets ∧ Settled grammar automaton ⟨sets, arcs⟩ := by
  obtain ⟨sets, arcs, computed, settled⟩ := lookaheads_settled numbered productive explored
  obtain ⟨flow, folded, arisen⟩ := exists_arisen explored
    (fun _ _ flowing inside => contributeState_done numbered productive explored flowing inside)
  have rests := saturateWithin_eq (round_progress numbered)
    (fun _ holding => flowRound_eq numbered holding.1)
    (show Flowing grammar automaton ⟨flow.sets, flow.arcs⟩ ∧ flow.Grows ⟨flow.sets, flow.arcs⟩ from
      ⟨arisen.flowing, .refl flow⟩)
  have same := settled_unique numbered productive explored (arisen.settled numbered) settled
  refine ⟨sets, arcs, ?_, computed, settled⟩
  unfold lookaheads
  rw [initialFlow_eq explored, ok_bind, folded, ok_bind, rests]
  exact congrArg Except.ok same

end Agreement

end Guarded

end IncrementalParsing.Lalr
