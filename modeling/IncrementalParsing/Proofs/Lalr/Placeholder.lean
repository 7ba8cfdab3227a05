import IncrementalParsing.Proofs.Lalr.Canonical
import IncrementalParsing.Proofs.Lalr.First

/-!
The closure of a single item under the placeholder is its LR(1) closure. Lookaheads are kept for each
nonterminal, since all productions of a nonterminal are begun together. They are saturated over the
nonterminals that the closure enters; in the end every right-hand side has passed on what it can.
-/

namespace IncrementalParsing.Lalr

namespace Construction

variable {grammar : Grammar} {seed : Item} {seeded : NonterminalId}

/-- A nonterminal stands behind the mark of an item of the closure, and the terminal may follow it there. -/
def Due (grammar : Grammar) (seed : Item) (id : NonterminalId) (terminal : KindId) : Prop :=
  ∃ item follower, Expanded grammar (Single seed (ofGrammar grammar).marker) item follower ∧
    (Rules.ofGrammar grammar).nextSymbol item = some (.nonterminal id) ∧
    grammar.FirstOf ((Rules.ofGrammar grammar).rest item) follower terminal

/-- What stands behind the seed is known from the beginning, and everything that is known is due. -/
structure Behaved (grammar : Grammar) (seed : Item) (seeded : NonterminalId) (behind : Behind) : Prop where
  size : behind.size = grammar.nonterminalCount
  slots : ∀ set, set ∈ behind → set.slots = slotsOf grammar
  due : ∀ id terminal, ((ofGrammar grammar).lookaheadOf behind id).contains terminal = true →
    Due grammar seed id terminal
  seeded : ∀ terminal, grammar.FirstOf ((Rules.ofGrammar grammar).rest seed) (ofGrammar grammar).marker terminal →
    ((ofGrammar grammar).lookaheadOf behind seeded).contains terminal = true

def Passed (grammar : Grammar) (id : NonterminalId) (behind : Behind) : Prop :=
  ∀ item, item ∈ (Rules.ofGrammar grammar).startsOf id →
    ∀ next, (Rules.ofGrammar grammar).nextSymbol item = some (.nonterminal next) →
      ∀ terminal, ((ofGrammar grammar).first.ofSymbols ((ofGrammar grammar).lookaheadOf behind id)
          ((Rules.ofGrammar grammar).rest item)).contains terminal = true →
        ((ofGrammar grammar).lookaheadOf behind next).contains terminal = true

def Knows (grammar : Grammar) (order : List NonterminalId) (behind : Behind) (row column : Nat) : Prop :=
  ∃ id, order[row]? = some id ∧
    ((ofGrammar grammar).lookaheadOf behind id).contains (.ofIndex column) = true

theorem lookaheadOf_setIfInBounds {behind : Behind} {id other : NonterminalId} {set : TerminalSet}
    (inside : id.index < behind.size) :
    (ofGrammar grammar).lookaheadOf (behind.setIfInBounds id.index set) other =
      if other = id then set else (ofGrammar grammar).lookaheadOf behind other := by
  unfold lookaheadOf
  rw [Array.getElem?_setIfInBounds]
  by_cases same : other = id
  · subst same
    simp [inside]
  · have away : id.index ≠ other.index := fun equal => same (Visited.index_injective equal).symm
    simp [away, same]

theorem Behaved.slots_lookaheadOf {behind : Behind} (behaved : Behaved grammar seed seeded behind)
    (id : NonterminalId) : ((ofGrammar grammar).lookaheadOf behind id).slots = slotsOf grammar := by
  unfold lookaheadOf
  cases found : behind[id.index]? with
  | none => rfl
  | some set => exact behaved.slots set (Array.mem_of_getElem? found)

section Closure

variable (numbered : grammar.Numbered)

include numbered

theorem Due.index_le {id : NonterminalId} {terminal : KindId} (due : Due grammar seed id terminal) :
    terminal.index ≤ grammar.terminalCount := by
  obtain ⟨item, follower, expanded, _, first⟩ := due
  rcases Grammar.firstOf_iff.mp first with begins | ⟨_, rfl⟩
  · exact Nat.le_of_lt (begins_rest_lt numbered begins)
  · rcases expanded.terminal_lt numbered with rfl | low
    · exact Nat.le_of_eq (marker_index numbered)
    · exact Nat.le_of_lt low

theorem Behaved.addBehind_progress {order : List NonterminalId} {behind : Behind} {changed : Bool}
    (behaved : Behaved grammar seed seeded behind) {next : NonterminalId} {lookahead : TerminalSet}
    (member : next ∈ order) (inside : next.index < grammar.nonterminalCount)
    (slots : lookahead.slots = slotsOf grammar)
    (due : ∀ terminal, lookahead.contains terminal = true → Due grammar seed next terminal) :
    Progress (Behaved grammar seed seeded) (Knows grammar order) order.length (grammar.terminalCount + 1)
      (fun behind => ∀ terminal, lookahead.contains terminal = true →
        ((ofGrammar grammar).lookaheadOf behind next).contains terminal = true) (behind, changed)
      (((ofGrammar grammar).addBehind behind next lookahead).1,
        changed || ((ofGrammar grammar).addBehind behind next lookahead).2) := by
  have room := behaved.slots_lookaheadOf next
  have joined : ∀ terminal, (((ofGrammar grammar).lookaheadOf behind next).union lookahead).contains terminal =
      (((ofGrammar grammar).lookaheadOf behind next).contains terminal || lookahead.contains terminal) :=
    fun _ => TerminalSet.contains_union_of_slots (by rw [slots, room])
  unfold addBehind
  dsimp only
  cases grew : (((ofGrammar grammar).lookaheadOf behind next).unionGrew lookahead).2 with
  | false =>
      rw [if_neg (by decide), Bool.or_false]
      apply Progress.idle behaved
      intro terminal known
      rw [← TerminalSet.union_of_unionGrew_eq_false grew, joined, known, Bool.or_true]
  | true =>
      rw [if_pos rfl, Bool.or_true]
      have merged : ∀ id, (ofGrammar grammar).lookaheadOf (behind.setIfInBounds next.index
          (((ofGrammar grammar).lookaheadOf behind next).unionGrew lookahead).1) id =
          if id = next then ((ofGrammar grammar).lookaheadOf behind next).union lookahead
          else (ofGrammar grammar).lookaheadOf behind id :=
        fun _ => lookaheadOf_setIfInBounds (behaved.size ▸ inside)
      have keeps : ∀ id terminal, ((ofGrammar grammar).lookaheadOf behind id).contains terminal = true →
          ((ofGrammar grammar).lookaheadOf (behind.setIfInBounds next.index
            (((ofGrammar grammar).lookaheadOf behind next).unionGrew lookahead).1) id).contains terminal =
            true := by
        intro id terminal known
        rw [merged]
        split
        · rename_i same
          subst same
          rw [joined, known, Bool.true_or]
        · exact known
      have behavedAfter : Behaved grammar seed seeded (behind.setIfInBounds next.index
          (((ofGrammar grammar).lookaheadOf behind next).unionGrew lookahead).1) := by
        constructor
        · rw [Array.size_setIfInBounds]
          exact behaved.size
        · intro set among
          rcases Array.mem_or_eq_of_mem_setIfInBounds among with old | fresh
          · exact behaved.slots set old
          · rw [fresh]
            exact room
        · intro id terminal known
          rw [merged] at known
          split at known
          · rename_i same
            subst same
            rw [joined] at known
            rcases Bool.or_eq_true_iff.mp known with old | fresh
            · exact behaved.due id terminal old
            · exact due terminal fresh
          · exact behaved.due id terminal known
        · intro terminal first
          exact keeps _ _ (behaved.seeded terminal first)
      refine ⟨behavedAfter, true, (Bool.or_true _).symm, ⟨?_, ?_, fun impossible => by cases impossible⟩,
        fun impossible => by cases impossible⟩
      · rintro row column ⟨id, found, known⟩
        exact ⟨id, found, keeps id _ known⟩
      · intro _
        obtain ⟨terminal, unknown, known⟩ := TerminalSet.exists_news_of_unionGrew
          (by rw [room]; exact slotsOf_le numbered) grew
        obtain ⟨row, rowLt, found⟩ := List.mem_iff_getElem.mp member
        have at_ : order[row]? = some next := by rw [List.getElem?_eq_getElem rowLt, found]
        have here : ((ofGrammar grammar).lookaheadOf (behind.setIfInBounds next.index
            (((ofGrammar grammar).lookaheadOf behind next).unionGrew lookahead).1) next).contains terminal =
            true := by
          rw [merged, if_pos rfl]
          exact known
        have low := (behavedAfter.due next terminal here).index_le numbered
        refine ⟨row, terminal.index, rowLt, by omega, ?_, ?_⟩
        · rintro ⟨id, same, old⟩
          cases at_.symm.trans same
          rw [KindId.ofIndex_index, unknown] at old
          cases old
        · exact ⟨next, at_, by rw [KindId.ofIndex_index]; exact here⟩

theorem Behaved.passes (productive : grammar.unproductive? = none) {behind : Behind}
    (behaved : Behaved grammar seed seeded behind) {id next : NonterminalId} {item : Item}
    (member : id ∈ entered (Rules.ofGrammar grammar) [seed])
    (begins : item ∈ (Rules.ofGrammar grammar).startsOf id)
    (goes : (Rules.ofGrammar grammar).nextSymbol item = some (.nonterminal next)) {terminal : KindId}
    (passed : ((ofGrammar grammar).first.ofSymbols ((ofGrammar grammar).lookaheadOf behind id)
      ((Rules.ofGrammar grammar).rest item)).contains terminal = true) :
    Due grammar seed next terminal := by
  obtain ⟨dot, produced⟩ := mem_startsOf.mp begins
  have shape : item = ⟨item.production, 0⟩ := by rw [← dot]
  have split := (FirstSets.contains_ofSymbols numbered (behaved.slots_lookaheadOf id) _
    (fun _ member => (rest_within numbered member).has)).mp passed
  rcases split with arises | ⟨vanishes, known⟩
  · obtain ⟨before, closed, leads⟩ := closed_of_mem_entered (Rules.ofGrammar_consistent grammar) member
    obtain ⟨follower, expanded⟩ :=
      exists_expanded numbered productive closed (ofGrammar grammar).marker
    obtain ⟨other, first⟩ := exists_firstOf numbered productive before follower
    refine ⟨item, other, ?_, goes, Grammar.firstOf_iff.mpr (Or.inl arises)⟩
    rw [shape]
    exact .start expanded leads produced first
  · obtain ⟨before, follower, expanded, leads, first⟩ := behaved.due id terminal known
    refine ⟨item, terminal, ?_, goes, Grammar.firstOf_iff.mpr (Or.inr ⟨vanishes, rfl⟩)⟩
    rw [shape]
    exact .start expanded leads produced first

theorem passOn_progress (productive : grammar.unproductive? = none) {id : NonterminalId}
    (member : id ∈ entered (Rules.ofGrammar grammar) [seed]) (state : Behind × Bool)
    (behaved : Behaved grammar seed seeded state.1) :
    Progress (Behaved grammar seed seeded) (Knows grammar (entered (Rules.ofGrammar grammar) [seed]))
      (entered (Rules.ofGrammar grammar) [seed]).length (grammar.terminalCount + 1) (Passed grammar id)
      state ((ofGrammar grammar).passOn state id) := by
  unfold passOn
  refine Progress.foldl _ ?_ state behaved
  rintro item begins ⟨behind, changed⟩ behavedHere
  dsimp only
  split
  · rename_i next goes
    have leads : next ∈ (Rules.ofGrammar grammar).leadingIn id := by
      obtain ⟨dot, produced⟩ := mem_startsOf.mp begins
      apply (Rules.ofGrammar_consistent grammar id next).mpr
      refine ⟨item.production, produced, ?_⟩
      rw [← goes, ← dot]
      rfl
    have inside : next.index < grammar.nonterminalCount := by
      have bound : grammar.terminalCount + next.index < grammar.kinds.size := (nextSymbol_within numbered goes).2
      unfold Grammar.nonterminalCount
      omega
    have entersNext := entered_of_entered member leads (by rwa [Rules.byLhs_size])
    have slots : ((ofGrammar grammar).first.ofSymbols ((ofGrammar grammar).lookaheadOf behind id)
        ((ofGrammar grammar).rules.rest item)).slots = slotsOf grammar := by
      rw [FirstSets.slots_ofSymbols, behavedHere.slots_lookaheadOf]
    apply (behavedHere.addBehind_progress numbered entersNext inside slots
      (fun terminal passed => behavedHere.passes numbered productive member begins goes passed)).imp
    intro received other goesOther terminal passed
    cases goes.symm.trans goesOther
    exact received terminal passed
  · rename_i none
    apply Progress.idle behavedHere
    intro next goes
    exact absurd goes (none next)

omit numbered in
theorem markerSet_slots : (ofGrammar grammar).markerSet.slots = slotsOf grammar := by
  unfold markerSet
  rw [TerminalSet.slots_add]
  rfl

theorem contains_behindSeed {terminal : KindId} :
    ((ofGrammar grammar).first.ofSymbols (ofGrammar grammar).markerSet
        ((Rules.ofGrammar grammar).rest seed)).contains terminal = true ↔
      grammar.FirstOf ((Rules.ofGrammar grammar).rest seed) (ofGrammar grammar).marker terminal := by
  rw [Grammar.firstOf_iff, ← beq_iff_eq (b := (ofGrammar grammar).marker), ← markerSet_contains numbered]
  exact FirstSets.contains_ofSymbols numbered markerSet_slots _
    (fun _ member => (rest_within numbered member).has)

theorem initial_behaved (next : (Rules.ofGrammar grammar).nextSymbol seed = some (.nonterminal seeded)) :
    Behaved grammar seed seeded
      ((Array.replicate (Rules.ofGrammar grammar).byLhs.size (ofGrammar grammar).emptySet).setIfInBounds
        seeded.index ((ofGrammar grammar).first.ofSymbols (ofGrammar grammar).markerSet
          ((Rules.ofGrammar grammar).rest seed))) := by
  have inside : seeded.index < (Array.replicate (Rules.ofGrammar grammar).byLhs.size
      (ofGrammar grammar).emptySet).size := by
    have bound : grammar.terminalCount + seeded.index < grammar.kinds.size :=
      (nextSymbol_within numbered next).2
    rw [Array.size_replicate, Rules.byLhs_size]
    unfold Grammar.nonterminalCount
    omega
  have blank : ∀ id, (ofGrammar grammar).lookaheadOf (Array.replicate (Rules.ofGrammar grammar).byLhs.size
      (ofGrammar grammar).emptySet) id = (ofGrammar grammar).emptySet := by
    intro id
    unfold lookaheadOf
    rw [Array.getElem?_replicate]
    split <;> rfl
  constructor
  · rw [Array.size_setIfInBounds, Array.size_replicate, Rules.byLhs_size]
  · intro set among
    rcases Array.mem_or_eq_of_mem_setIfInBounds among with old | fresh
    · rw [(Array.mem_replicate.mp old).2]
      rfl
    · rw [fresh, FirstSets.slots_ofSymbols, markerSet_slots]
  · intro id terminal known
    rw [lookaheadOf_setIfInBounds inside, blank] at known
    split at known
    · rename_i same
      subst same
      exact ⟨seed, _, .kernel ⟨rfl, rfl⟩, next, (contains_behindSeed numbered).mp known⟩
    · unfold emptySet at known
      rw [TerminalSet.contains_withCapacity] at known
      cases known
  · intro terminal first
    rw [lookaheadOf_setIfInBounds inside, if_pos rfl]
    exact (contains_behindSeed numbered).mpr first

theorem closure_eq (productive : grammar.unproductive? = none)
    (next : (Rules.ofGrammar grammar).nextSymbol seed = some (.nonterminal seeded)) :
    ∃ behind, Behaved grammar seed seeded behind ∧
      (∀ id, id ∈ entered (Rules.ofGrammar grammar) [seed] → Passed grammar id behind) ∧
      (ofGrammar grammar).closure seed = ⟨seed, (ofGrammar grammar).markerSet⟩ ::
        (entered (Rules.ofGrammar grammar) [seed]).flatMap fun id =>
          ((Rules.ofGrammar grammar).startsOf id).map (⟨·, (ofGrammar grammar).lookaheadOf behind id⟩) := by
  have step : ∀ behind, Behaved grammar seed seeded behind →
      Progress (Behaved grammar seed seeded) (Knows grammar (entered (Rules.ofGrammar grammar) [seed]))
        (entered (Rules.ofGrammar grammar) [seed]).length (grammar.terminalCount + 1)
        (fun behind => ∀ id, id ∈ entered (Rules.ofGrammar grammar) [seed] → Passed grammar id behind)
        (behind, false) ((entered (Rules.ofGrammar grammar) [seed]).foldl (ofGrammar grammar).passOn
          (behind, false)) :=
    fun behind behaved => Progress.foldl _
      (fun id member before here => passOn_progress numbered productive member before here)
      (behind, false) behaved
  have ended := saturate_done step (initial_behaved numbered next)
  refine ⟨_, ended.1, ended.2, ?_⟩
  unfold closure
  have goes : (ofGrammar grammar).rules.nextSymbol seed = some (.nonterminal seeded) := next
  rw [goes]
  rfl

omit numbered in
theorem closure_of_ne (other : ∀ id, (Rules.ofGrammar grammar).nextSymbol seed ≠ some (.nonterminal id)) :
    (ofGrammar grammar).closure seed = [⟨seed, (ofGrammar grammar).markerSet⟩] := by
  unfold closure
  split
  · rename_i id next
    exact absurd next (other id)
  · rfl

theorem closure_sound (productive : grammar.unproductive? = none) {closed : ClosedItem}
    (member : closed ∈ (ofGrammar grammar).closure seed) :
    closed.lookahead.slots = slotsOf grammar ∧
      ∀ terminal, closed.lookahead.contains terminal = true →
        Expanded grammar (Single seed (ofGrammar grammar).marker) closed.item terminal := by
  have atSeed : closed = ⟨seed, (ofGrammar grammar).markerSet⟩ →
      closed.lookahead.slots = slotsOf grammar ∧
        ∀ terminal, closed.lookahead.contains terminal = true →
          Expanded grammar (Single seed (ofGrammar grammar).marker) closed.item terminal := by
    rintro rfl
    refine ⟨markerSet_slots, fun terminal known => ?_⟩
    rw [markerSet_contains numbered] at known
    exact .kernel ⟨rfl, eq_of_beq known⟩
  by_cases nonterminal : ∃ id, (Rules.ofGrammar grammar).nextSymbol seed = some (.nonterminal id)
  · obtain ⟨seeded, next⟩ := nonterminal
    obtain ⟨behind, behaved, _, whole⟩ := closure_eq numbered productive next
    rw [whole] at member
    rcases List.mem_cons.mp member with here | later
    · exact atSeed here
    · obtain ⟨id, _, starts⟩ := List.mem_flatMap.mp later
      obtain ⟨item, begins, rfl⟩ := List.mem_map.mp starts
      refine ⟨behaved.slots_lookaheadOf id, fun terminal known => ?_⟩
      obtain ⟨before, follower, expanded, leads, first⟩ := behaved.due id terminal known
      obtain ⟨dot, produced⟩ := mem_startsOf.mp begins
      have shape : item = ⟨item.production, 0⟩ := by rw [← dot]
      rw [shape]
      exact .start expanded leads produced first
  · rw [closure_of_ne (fun id next => nonterminal ⟨id, next⟩)] at member
    exact atSeed (List.mem_singleton.mp member)

theorem closure_complete (productive : grammar.unproductive? = none) {item : Item} {terminal : KindId}
    (expanded : Expanded grammar (Single seed (ofGrammar grammar).marker) item terminal) :
    ∃ closed, closed ∈ (ofGrammar grammar).closure seed ∧ closed.item = item ∧
      closed.lookahead.contains terminal = true := by
  by_cases nonterminal : ∃ id, (Rules.ofGrammar grammar).nextSymbol seed = some (.nonterminal id)
  · obtain ⟨seeded, next⟩ := nonterminal
    obtain ⟨behind, behaved, passed, whole⟩ := closure_eq numbered productive next
    have located : item = seed ∧ terminal = (ofGrammar grammar).marker ∨
        ∃ id, id ∈ entered (Rules.ofGrammar grammar) [seed] ∧ item ∈ (Rules.ofGrammar grammar).startsOf id ∧
          ((ofGrammar grammar).lookaheadOf behind id).contains terminal = true := by
      induction expanded with
      | kernel same => exact Or.inl same
      | @start before follower terminal id number _ leads produced first ih =>
          right
          have declared := declared_of_mem_productionsOf produced
          refine ⟨id, ?_, mem_startsOf.mpr ⟨rfl, produced⟩, ?_⟩
          · rcases ih with ⟨rfl, _⟩ | ⟨outer, member, begins, _⟩
            · exact entered_of_kernel (List.mem_singleton_self _) leads declared
            · obtain ⟨dot, begun⟩ := mem_startsOf.mp begins
              have shape : before = ⟨before.production, 0⟩ := by rw [← dot]
              rw [shape] at leads
              exact entered_of_entered member
                ((Rules.ofGrammar_consistent grammar outer id).mpr ⟨_, begun, leads⟩) declared
          · rcases ih with ⟨rfl, rfl⟩ | ⟨outer, member, begins, known⟩
            · cases next.symm.trans leads
              exact behaved.seeded terminal first
            · apply passed outer member before begins id leads
              apply (FirstSets.contains_ofSymbols numbered (behaved.slots_lookaheadOf outer) _
                (fun _ member => (rest_within numbered member).has)).mpr
              rcases Grammar.firstOf_iff.mp first with arises | ⟨vanishes, rfl⟩
              · exact Or.inl arises
              · exact Or.inr ⟨vanishes, known⟩
    rw [whole]
    rcases located with ⟨rfl, rfl⟩ | ⟨id, member, begins, known⟩
    · exact ⟨_, List.mem_cons_self, rfl, by rw [markerSet_contains numbered, beq_self_eq_true]⟩
    · refine ⟨_, List.mem_cons_of_mem _ (List.mem_flatMap.mpr ⟨id, member, List.mem_map.mpr
        ⟨item, begins, rfl⟩⟩), rfl, known⟩
  · rw [closure_of_ne (fun id next => nonterminal ⟨id, next⟩)]
    have located : item = seed ∧ terminal = (ofGrammar grammar).marker := by
      induction expanded with
      | kernel same => exact same
      | @start before follower terminal id number _ leads _ _ ih =>
          obtain ⟨rfl, _⟩ := ih
          exact absurd ⟨id, leads⟩ nonterminal
    obtain ⟨rfl, rfl⟩ := located
    exact ⟨_, List.mem_cons_self, rfl, by rw [markerSet_contains numbered, beq_self_eq_true]⟩

theorem closure_unique (productive : grammar.unproductive? = none)
    (inner : ∀ id, seed ∉ (Rules.ofGrammar grammar).startsOf id) {closed other : ClosedItem}
    (one : closed ∈ (ofGrammar grammar).closure seed) (two : other ∈ (ofGrammar grammar).closure seed)
    (same : closed.item = other.item) : closed = other := by
  by_cases nonterminal : ∃ id, (Rules.ofGrammar grammar).nextSymbol seed = some (.nonterminal id)
  · obtain ⟨seeded, next⟩ := nonterminal
    obtain ⟨behind, _, _, whole⟩ := closure_eq numbered productive next
    have split : ∀ closed : ClosedItem, closed ∈ (ofGrammar grammar).closure seed →
        closed = ⟨seed, (ofGrammar grammar).markerSet⟩ ∨
          ∃ id, closed.item ∈ (Rules.ofGrammar grammar).startsOf id ∧
            closed.lookahead = (ofGrammar grammar).lookaheadOf behind id := by
      intro closed member
      rw [whole] at member
      rcases List.mem_cons.mp member with here | later
      · exact Or.inl here
      · obtain ⟨id, _, starts⟩ := List.mem_flatMap.mp later
        obtain ⟨item, begins, rfl⟩ := List.mem_map.mp starts
        exact Or.inr ⟨id, begins, rfl⟩
    rcases split closed one with rfl | ⟨id, begins, here⟩
    · rcases split other two with rfl | ⟨id, begins, _⟩
      · rfl
      · rw [← same] at begins
        exact absurd begins (inner id)
    · rcases split other two with rfl | ⟨otherId, otherBegins, there⟩
      · rw [same] at begins
        exact absurd begins (inner id)
      · -- a production has one left-hand side
        obtain ⟨_, production, found, rfl⟩ := (Rules.mem_productionsOf grammar).mp (mem_startsOf.mp begins).2
        obtain ⟨_, another, againFound, rfl⟩ :=
          (Rules.mem_productionsOf grammar).mp (mem_startsOf.mp otherBegins).2
        rw [same] at found
        cases found.symm.trans againFound
        cases closed
        cases other
        cases same
        cases here.trans there.symm
        rfl
  · rw [closure_of_ne (fun id next => nonterminal ⟨id, next⟩)] at one two
    rw [List.mem_singleton.mp one, List.mem_singleton.mp two]

theorem closure_exact (productive : grammar.unproductive? = none)
    (inner : ∀ id, seed ∉ (Rules.ofGrammar grammar).startsOf id) {closed : ClosedItem}
    (member : closed ∈ (ofGrammar grammar).closure seed) {terminal : KindId} :
    closed.lookahead.contains terminal = true ↔
      Expanded grammar (Single seed (ofGrammar grammar).marker) closed.item terminal := by
  refine ⟨(closure_sound numbered productive member).2 terminal, fun expanded => ?_⟩
  obtain ⟨other, among, same, present⟩ := closure_complete numbered productive expanded
  rwa [closure_unique numbered productive inner member among same.symm]

end Closure

end Construction

end IncrementalParsing.Lalr
