import IncrementalParsing.Proofs.Lalr.Kernels
import IncrementalParsing.Proofs.Lalr.Placeholder

/-!
The lookaheads of kernel items are those of the canonical LR(1) items. Whatever arises in a set or flows into
it follows an item of a canonical set, by induction along the arcs. In the other direction the induction is
on the symbols that lead to a state: what follows an item of its kernel either arose in the state before or
followed a kernel item there, and then it has flowed on.
-/

namespace IncrementalParsing.Lalr

def Ahead (grammar : Grammar) (automaton : Automaton) (state : Nat) (item : Item) (terminal : KindId) : Prop :=
  ∃ front, automaton.Leads front state ∧ Canonical grammar front item terminal

section Exactness

variable {grammar : Grammar} {automaton : Automaton}

/-! ### States that are led to -/

theorem Automaton.Explored.exists_leads {rules : Rules} {done : Nat} (explored : automaton.Explored rules done)
    (state : Nat) : state < automaton.kernels.size → ∃ front, automaton.Leads front state := by
  induction state using Nat.strongRecOn with
  | ind state ih =>
      intro inside
      by_cases first : state = 0
      · subst first
        exact ⟨[], .start⟩
      · obtain ⟨earlier, symbol, less, edge⟩ := explored.reached state (by omega) inside
        obtain ⟨front, leads⟩ := ih earlier less (by omega)
        exact ⟨front ++ [symbol], .step leads edge⟩

theorem Automaton.Explored.leads_lt {rules : Rules}
    (explored : automaton.Explored rules automaton.kernels.size) {front : List Symbol} {state : Nat}
    (leads : automaton.Leads front state) : ∃ kernel, automaton.kernels[state]? = some kernel := by
  induction leads with
  | start => exact ⟨_, explored.first⟩
  | step _ edge ih =>
      obtain ⟨kernel, found⟩ := ih
      obtain ⟨next, targetAt, _⟩ := explored.edge_kernel found edge
      exact ⟨next, targetAt⟩

section Leading

variable (numbered : grammar.Numbered) (productive : grammar.unproductive? = none)
  (explored : automaton.Explored (.ofGrammar grammar) automaton.kernels.size)

include explored

theorem exists_canonical (numbered : grammar.Numbered) (productive : grammar.unproductive? = none)
    {front : List Symbol} {state : Nat} (leads : automaton.Leads front state) :
    ∀ {kernel : List Item} {item : Item}, automaton.kernels[state]? = some kernel →
      Closed (.ofGrammar grammar) kernel item → ∃ terminal, Canonical grammar front item terminal := by
  have closes : ∀ {front : List Symbol} {kernel : List Item} {item : Item},
      (∀ seed, seed ∈ kernel → ∃ terminal, Canonical grammar front seed terminal) →
      Closed (.ofGrammar grammar) kernel item → ∃ terminal, Canonical grammar front item terminal := by
    intro front kernel item seeds closed
    induction closed with
    | kernel member => exact seeds _ member
    | @start before id number _ next produced ih =>
        obtain ⟨follower, canonical⟩ := ih
        obtain ⟨terminal, first⟩ := exists_firstOf numbered productive before follower
        exact ⟨terminal, canonical.start next produced first⟩
  induction leads with
  | start =>
      intro kernel item found closed
      cases explored.first.symm.trans found
      apply closes _ closed
      intro seed member
      exact ⟨.endOfInput, .kernel ⟨List.mem_singleton.mp member, rfl⟩⟩
  | step _ edge ih =>
      intro kernel item found closed
      apply closes _ closed
      intro seed member
      obtain ⟨before, beforeAt⟩ := explored.leads_lt (by assumption)
      obtain ⟨next, targetAt, among⟩ := explored.edge_kernel beforeAt edge
      cases targetAt.symm.trans found
      obtain ⟨earlier, inside, goes, rfl⟩ := (mem_successor among seed).mp member
      obtain ⟨terminal, canonical⟩ :=
        ih beforeAt ((mem_closure (Rules.ofGrammar_consistent grammar)).mp inside)
      exact ⟨terminal, canonical.advance goes⟩

theorem closed_of_canonical {front : List Symbol} {state : Nat} (leads : automaton.Leads front state) :
    ∀ {kernel : List Item} {item : Item} {terminal : KindId}, automaton.kernels[state]? = some kernel →
      Canonical grammar front item terminal → Closed (.ofGrammar grammar) kernel item := by
  have closes : ∀ {seeds : Item → KindId → Prop} {kernel : List Item} {item : Item} {terminal : KindId},
      (∀ seed tail, seeds seed tail → seed ∈ kernel) → Expanded grammar seeds item terminal →
      Closed (.ofGrammar grammar) kernel item := by
    intro seeds kernel item terminal inKernel expanded
    induction expanded with
    | kernel member => exact .kernel (inKernel _ _ member)
    | start _ next produced _ ih => exact .start ih next produced
  induction leads with
  | start =>
      intro kernel item terminal found canonical
      cases explored.first.symm.trans found
      exact closes (fun seed _ start => List.mem_singleton.mpr start.1) canonical
  | step _ edge ih =>
      intro kernel item terminal found canonical
      obtain ⟨before, beforeAt⟩ := explored.leads_lt (by assumption)
      obtain ⟨next, targetAt, among⟩ := explored.edge_kernel beforeAt edge
      cases targetAt.symm.trans found
      rw [canonical_append] at canonical
      apply closes _ canonical
      rintro seed tail ⟨earlier, here, goes, rfl⟩
      have inside := (mem_closure (Rules.ofGrammar_consistent grammar)).mpr (ih beforeAt here)
      exact (mem_successor among _).mpr ⟨earlier, inside, goes, rfl⟩

end Leading

theorem Ahead.advance {state target : Nat} {item : Item} {symbol : Symbol} {terminal : KindId}
    (ahead : Ahead grammar automaton state item terminal)
    (next : (Rules.ofGrammar grammar).nextSymbol item = some symbol)
    (edge : (symbol, target) ∈ automaton.edgesOf state) :
    Ahead grammar automaton target item.advance terminal := by
  obtain ⟨front, leads, canonical⟩ := ahead
  exact ⟨front ++ [symbol], .step leads edge, canonical.advance next⟩

theorem Ahead.ne_marker (numbered : grammar.Numbered) {state : Nat} {item : Item} {terminal : KindId}
    (ahead : Ahead grammar automaton state item terminal) : terminal ≠ (Construction.ofGrammar grammar).marker := by
  obtain ⟨_, _, canonical⟩ := ahead
  have low := canonical.terminal_lt numbered
  have marker := marker_index numbered
  rintro rfl
  omega

theorem Ahead.flow (numbered : grammar.Numbered) {state target : Nat} {seed item : Item} {symbol : Symbol}
    {terminal : KindId} (ahead : Ahead grammar automaton state seed terminal)
    (passes : Expanded grammar (Single seed (Construction.ofGrammar grammar).marker) item
      (Construction.ofGrammar grammar).marker)
    (next : (Rules.ofGrammar grammar).nextSymbol item = some symbol)
    (edge : (symbol, target) ∈ automaton.edgesOf state) :
    Ahead grammar automaton target item.advance terminal := by
  have proper := ahead.ne_marker numbered
  obtain ⟨front, leads, canonical⟩ := ahead
  have here := (expanded_iff_marker numbered (Nat.le_of_eq (marker_index numbered).symm) proper).mpr
    (Or.inr ⟨passes, rfl⟩)
  exact Ahead.advance ⟨front, leads, canonical.expand here⟩ next edge

/-! ### What flows -/

/-- Everything in the sets follows the items that they belong to, and arcs lead from kernel items to what
the items of their closures advance to. -/
structure Flowing (grammar : Grammar) (automaton : Automaton) (flow : Flow) : Prop where
  size : flow.sets.size = (Placement.ofAutomaton automaton).total
  slots : ∀ set, set ∈ flow.sets → set.slots = slotsOf grammar
  sets : ∀ (place state : Nat) (item : Item) (set : TerminalSet) (terminal : KindId),
    flow.sets[place]? = some set → Placement.Located automaton place state item →
    set.contains terminal = true → Ahead grammar automaton state item terminal
  arcs : ∀ source place, (source, place) ∈ flow.arcs → ∃ state target seed closed symbol,
    Placement.Located automaton source state seed ∧ Placement.Located automaton place target closed.advance ∧
    (symbol, target) ∈ automaton.edgesOf state ∧
    (Rules.ofGrammar grammar).nextSymbol closed = some symbol ∧
    Expanded grammar (Single seed (Construction.ofGrammar grammar).marker) closed
      (Construction.ofGrammar grammar).marker

def Flow.Holds (flow : Flow) (place : Nat) (terminal : KindId) : Prop :=
  ∃ set, flow.sets[place]? = some set ∧ set.contains terminal = true

structure Flow.Grows (before after : Flow) : Prop where
  holds : ∀ place terminal, before.Holds place terminal → after.Holds place terminal
  arcs : ∀ arc, arc ∈ before.arcs → arc ∈ after.arcs

theorem Flow.Grows.refl (flow : Flow) : flow.Grows flow := ⟨fun _ _ => id, fun _ => id⟩

theorem Flow.Grows.trans {first second third : Flow} (before : first.Grows second)
    (after : second.Grows third) : first.Grows third where
  holds place terminal known := after.holds place terminal (before.holds place terminal known)
  arcs arc member := after.arcs arc (before.arcs arc member)

def Contributed (grammar : Grammar) (automaton : Automaton) (state origin : Nat)
    (closed : Construction.ClosedItem) (flow : Flow) : Prop :=
  ∀ symbol target, (Rules.ofGrammar grammar).nextSymbol closed.item = some symbol →
    (symbol, target) ∈ automaton.edgesOf state →
    ∃ place, Placement.Located automaton place target closed.item.advance ∧
      (∀ terminal, terminal ≠ (Construction.ofGrammar grammar).marker →
        closed.lookahead.contains terminal = true → flow.Holds place terminal) ∧
      (closed.lookahead.contains (Construction.ofGrammar grammar).marker = true →
        (origin, place) ∈ flow.arcs)

theorem Contributed.grow {state origin : Nat} {closed : Construction.ClosedItem} {before after : Flow}
    (grown : before.Grows after) (contributed : Contributed grammar automaton state origin closed before) :
    Contributed grammar automaton state origin closed after := by
  intro symbol target next edge
  obtain ⟨place, located, holds, arc⟩ := contributed symbol target next edge
  exact ⟨place, located, fun terminal proper known => grown.holds _ _ (holds terminal proper known),
    fun passes => grown.arcs _ (arc passes)⟩

private theorem total_from : ∀ (kernels : List (List Item)) (bases : Array Nat) (total : Nat),
    (kernels.foldl
      (fun ((bases, total) : Array Nat × Nat) kernel => (bases.push total, total + kernel.length))
      (bases, total)).2 = total + sumOf (kernels.map List.length)
  | [], _bases, _total => rfl
  | kernel :: rest, bases, total => by
      rw [List.foldl_cons, total_from rest, List.map_cons, sumOf_cons, Nat.add_assoc]

theorem total_eq (automaton : Automaton) :
    (Placement.ofAutomaton automaton).total = Placement.before automaton automaton.kernels.size := by
  unfold Placement.before
  rw [← Array.length_toList, List.take_length]
  change (automaton.kernels.foldl _ (#[], 0)).2 = _
  rw [← Array.foldl_toList, total_from, Nat.zero_add]

theorem place_lt_total {place state : Nat} {item : Item} (located : Placement.Located automaton place state item) :
    place < (Placement.ofAutomaton automaton).total := by
  obtain ⟨slot, kernel, found, at_, rfl⟩ := located
  obtain ⟨inside, _⟩ := Array.getElem?_eq_some_iff.mp found
  obtain ⟨slotLt, _⟩ := List.getElem?_eq_some_iff.mp at_
  have step := Placement.before_step automaton found
  have order := Placement.before_mono automaton (show state + 1 ≤ automaton.kernels.size from inside)
  rw [total_eq, Placement.base_eq automaton inside]
  omega

theorem exists_located {place : Nat} (below : place < (Placement.ofAutomaton automaton).total) :
    ∃ state item, Placement.Located automaton place state item := by
  have search : ∀ count, count ≤ automaton.kernels.size → place < Placement.before automaton count →
      ∃ state item, Placement.Located automaton place state item := by
    intro count
    induction count with
    | zero =>
        intro _ impossible
        exact absurd impossible (Nat.not_lt_zero _)
    | succ count ih =>
        intro inside less
        have found := Array.getElem?_eq_getElem (show count < automaton.kernels.size from inside)
        rw [Placement.before_step automaton found] at less
        rcases Nat.lt_or_ge place (Placement.before automaton count) with earlier | here
        · exact ih (Nat.le_of_succ_le inside) earlier
        · have slotLt : place - Placement.before automaton count < automaton.kernels[count].length := by omega
          refine ⟨count, _, place - Placement.before automaton count, _, found,
            List.getElem?_eq_getElem slotLt, ?_⟩
          rw [Placement.base_eq automaton inside, Nat.add_sub_cancel' here]
  rw [total_eq] at below
  exact search _ (Nat.le_refl _) below

theorem closuresOf_eq {construction : Construction} {item : Item}
    (known : item.production < construction.rules.rhs.size)
    (dot : item.dot ≤ (construction.rules.rhs[item.production]?.getD #[]).size) :
    (Closures.ofConstruction construction).of item = construction.closure item := by
  unfold Closures.of Closures.ofConstruction
  rw [Array.getElem?_map, Array.getElem?_range, if_pos known, Option.map_some, Option.getD_some,
    Array.getElem?_map, Array.getElem?_range, if_pos (Nat.lt_succ_of_le dot), Option.map_some,
    Option.getD_some]

theorem closuresOf_advance {construction : Construction} {item : Item} {symbol : Symbol}
    (next : construction.rules.nextSymbol item = some symbol) :
    (Closures.ofConstruction construction).of item.advance = construction.closure item.advance := by
  unfold Rules.nextSymbol at next
  obtain ⟨inside, _⟩ := Array.getElem?_eq_some_iff.mp next
  apply closuresOf_eq
  · rcases Nat.lt_or_ge item.production construction.rules.rhs.size with known | unknown
    · exact known
    · rw [Array.getElem?_eq_none unknown] at inside
      exact absurd inside (Nat.not_lt_zero _)
  · exact inside

section Contributions

variable (numbered : grammar.Numbered) (productive : grammar.unproductive? = none)
  (explored : automaton.Explored (.ofGrammar grammar) automaton.kernels.size)

include explored in
theorem closuresOf_kernel {state : Nat} {kernel : List Item} {seed : Item}
    (found : automaton.kernels[state]? = some kernel) (member : seed ∈ kernel) :
    (Closures.ofConstruction (.ofGrammar grammar)).of seed = (Construction.ofGrammar grammar).closure seed := by
  rcases explored.origin state kernel found with rfl | ⟨_, _, symbol, _, among⟩
  · unfold Automaton.startKernel at member
    rw [Rules.augmented_ofGrammar] at member
    rw [List.mem_singleton.mp member]
    apply closuresOf_eq
    · change grammar.productions.size < (Rules.ofGrammar grammar).rhs.size
      rw [Rules.rhs_size]
      omega
    · exact Nat.zero_le _
  · obtain ⟨before, _, next, rfl⟩ := (mem_successor among seed).mp member
    exact closuresOf_advance next

theorem Flowing.add {flow : Flow} (flowing : Flowing grammar automaton flow) {place state : Nat} {item : Item}
    (located : Placement.Located automaton place state item) {lookahead : TerminalSet}
    (slots : lookahead.slots = slotsOf grammar)
    (ahead : ∀ terminal, lookahead.contains terminal = true → Ahead grammar automaton state item terminal) :
    Flowing grammar automaton (flow.add place lookahead) ∧ flow.Grows (flow.add place lookahead) ∧
      ∀ terminal, lookahead.contains terminal = true → (flow.add place lookahead).Holds place terminal := by
  have inside : place < flow.sets.size := flowing.size ▸ place_lt_total located
  have joined : ∀ set, set ∈ flow.sets → ∀ terminal, (set.union lookahead).contains terminal =
      (set.contains terminal || lookahead.contains terminal) :=
    fun set member _ => TerminalSet.contains_union_of_slots (by rw [slots, flowing.slots set member])
  have changed : ∀ other, (flow.add place lookahead).sets[other]? =
      if place = other then flow.sets[other]?.map (·.union lookahead) else flow.sets[other]? := by
    intro other
    unfold Flow.add
    exact Array.getElem?_modify
  refine ⟨⟨?_, ?_, ?_, flowing.arcs⟩, ⟨?_, fun _ => id⟩, ?_⟩
  · unfold Flow.add
    rw [Array.size_modify]
    exact flowing.size
  · intro set member
    obtain ⟨other, found⟩ := Array.mem_iff_getElem?.mp member
    rw [changed] at found
    split at found
    · obtain ⟨old, oldAt, rfl⟩ := Option.map_eq_some_iff.mp found
      exact flowing.slots old (Array.mem_of_getElem? oldAt)
    · exact flowing.slots set (Array.mem_of_getElem? found)
  · intro other known wanted set terminal found there present
    rw [changed] at found
    split at found
    · rename_i same
      subst same
      obtain ⟨old, oldAt, rfl⟩ := Option.map_eq_some_iff.mp found
      obtain ⟨rfl, rfl⟩ := located.unique there
      rw [joined old (Array.mem_of_getElem? oldAt)] at present
      rcases Bool.or_eq_true_iff.mp present with mine | given
      · exact flowing.sets _ _ _ _ _ oldAt there mine
      · exact ahead terminal given
    · exact flowing.sets _ _ _ _ _ found there present
  · rintro other terminal ⟨set, found, present⟩
    by_cases same : place = other
    · refine ⟨set.union lookahead, ?_, ?_⟩
      · rw [changed, if_pos same, found]
        rfl
      · rw [joined set (Array.mem_of_getElem? found), present, Bool.true_or]
    · exact ⟨set, by rw [changed, if_neg same, found], present⟩
  · intro terminal given
    have found := Array.getElem?_eq_getElem inside
    refine ⟨flow.sets[place].union lookahead, ?_, ?_⟩
    · rw [changed, if_pos rfl, found]
      rfl
    · rw [joined _ (Array.getElem_mem inside), given, Bool.or_true]

theorem Flowing.addUnlessEmpty {flow : Flow} (flowing : Flowing grammar automaton flow) {place state : Nat}
    {item : Item} (located : Placement.Located automaton place state item) {lookahead : TerminalSet}
    (slots : lookahead.slots = slotsOf grammar)
    (ahead : ∀ terminal, lookahead.contains terminal = true → Ahead grammar automaton state item terminal) :
    Flowing grammar automaton (if lookahead.isEmpty then flow else flow.add place lookahead) ∧
      flow.Grows (if lookahead.isEmpty then flow else flow.add place lookahead) ∧
      ∀ terminal, lookahead.contains terminal = true →
        (if lookahead.isEmpty then flow else flow.add place lookahead).Holds place terminal := by
  split
  · rename_i empty
    refine ⟨flowing, .refl flow, fun terminal present => ?_⟩
    rw [TerminalSet.contains_of_isEmpty empty] at present
    cases present
  · exact flowing.add located slots ahead

include numbered productive explored

theorem ahead_of_arising {state target : Nat} {kernel : List Item} {seed : Item}
    {closed : Construction.ClosedItem} {symbol : Symbol} {terminal : KindId}
    (found : automaton.kernels[state]? = some kernel) (inKernel : seed ∈ kernel)
    (member : closed ∈ (Construction.ofGrammar grammar).closure seed)
    (next : (Rules.ofGrammar grammar).nextSymbol closed.item = some symbol)
    (edge : (symbol, target) ∈ automaton.edgesOf state)
    (present : (closed.lookahead.remove (Construction.ofGrammar grammar).marker).contains terminal = true) :
    Ahead grammar automaton target closed.item.advance terminal := by
  rw [TerminalSet.contains_remove, Bool.and_eq_true, bne_iff_ne] at present
  obtain ⟨inside, _⟩ := Array.getElem?_eq_some_iff.mp found
  obtain ⟨front, leads⟩ := explored.exists_leads state inside
  obtain ⟨tail, canonical⟩ := exists_canonical explored numbered productive leads found (.kernel inKernel)
  have proper := Ahead.ne_marker numbered ⟨front, leads, canonical⟩
  obtain ⟨_, sound⟩ := Construction.closure_sound numbered productive member
  have expanded := (expanded_iff_marker numbered (Nat.le_of_eq (marker_index numbered).symm) proper).mpr
    (Or.inl ⟨sound terminal present.1, present.2⟩)
  exact Ahead.advance ⟨front, leads, canonical.expand expanded⟩ next edge

theorem Flowing.contribute {flow : Flow} (flowing : Flowing grammar automaton flow) {state origin : Nat}
    {kernel : List Item} {seed : Item} {closed : Construction.ClosedItem}
    (found : automaton.kernels[state]? = some kernel) (inKernel : seed ∈ kernel)
    (located : Placement.Located automaton origin state seed)
    (member : closed ∈ (Construction.ofGrammar grammar).closure seed) :
    ∃ after, Flow.contribute (.ofGrammar grammar) (.ofAutomaton automaton) (automaton.edgesOf state) origin
        flow closed = .ok after ∧
      Flowing grammar automaton after ∧ flow.Grows after ∧
      Contributed grammar automaton state origin closed after := by
  have consistent := Rules.ofGrammar_consistent grammar
  have inClosure : closed.item ∈ closure (.ofGrammar grammar) kernel :=
    (mem_closure consistent).mpr (closed_of_mem_constructionClosure consistent inKernel member)
  unfold Flow.contribute
  cases next : (Rules.ofGrammar grammar).nextSymbol closed.item with
  | none =>
      refine ⟨flow, ?_, flowing, .refl flow, fun symbol target goes => ?_⟩
      · have none : (Construction.ofGrammar grammar).rules.nextSymbol closed.item = none := next
        rw [none]
      · rw [next] at goes
        cases goes
  | some symbol =>
      obtain ⟨target, lookup⟩ := explored.lookup_edge found inClosure next
      have edge := mem_of_lookup lookup
      obtain ⟨nextKernel, targetAt, among⟩ := explored.edge_kernel found edge
      have advanced : closed.item.advance ∈ nextKernel :=
        (mem_successor among _).mpr ⟨closed.item, inClosure, next, rfl⟩
      obtain ⟨place, placed⟩ := Placement.place_total (explored.kernel_increasing targetAt) targetAt advanced
      have there := Placement.place_located placed
      obtain ⟨slots, sound⟩ := Construction.closure_sound numbered productive member
      obtain ⟨added, addedEq, flows, grown, holds⟩ : ∃ added,
          added = (if (closed.lookahead.remove (Construction.ofGrammar grammar).marker).isEmpty then flow
            else flow.add place (closed.lookahead.remove (Construction.ofGrammar grammar).marker)) ∧
          Flowing grammar automaton added ∧ flow.Grows added ∧
          ∀ terminal, (closed.lookahead.remove (Construction.ofGrammar grammar).marker).contains terminal =
            true → added.Holds place terminal :=
        ⟨_, rfl, flowing.addUnlessEmpty there (by rw [TerminalSet.slots_remove, slots])
          fun _ => ahead_of_arising numbered productive explored found inKernel member next edge⟩
      have arrives : ∀ terminal, terminal ≠ (Construction.ofGrammar grammar).marker →
          closed.lookahead.contains terminal = true → added.Holds place terminal := by
        intro terminal proper present
        apply holds
        rw [TerminalSet.contains_remove, present, Bool.true_and, bne_iff_ne]
        exact proper
      have goes : (Construction.ofGrammar grammar).rules.nextSymbol closed.item = some symbol := next
      rw [goes]
      dsimp only
      rw [lookup]
      dsimp only
      rw [placed, ok_bind, ← addedEq]
      cases passes : closed.lookahead.contains (Construction.ofGrammar grammar).marker with
      | false =>
          refine ⟨added, rfl, flows, grown, fun other otherTarget nextOther edgeOther => ?_⟩
          cases next.symm.trans nextOther
          cases explored.edge_unique found edge edgeOther
          refine ⟨place, there, arrives, fun impossible => ?_⟩
          rw [passes] at impossible
          cases impossible
      | true =>
          refine ⟨{ added with arcs := added.arcs.push (origin, place) }, rfl,
            ⟨flows.size, flows.slots, flows.sets, ?_⟩, ⟨grown.holds, ?_⟩, ?_⟩
          · intro source other arc
            rcases Array.mem_push.mp arc with old | fresh
            · exact flows.arcs source other old
            · cases fresh
              exact ⟨state, target, seed, closed.item, symbol, located, there, edge, next, sound _ passes⟩
          · intro arc old
            exact Array.mem_push_of_mem _ (grown.arcs arc old)
          · intro other otherTarget nextOther edgeOther
            cases next.symm.trans nextOther
            cases explored.edge_unique found edge edgeOther
            exact ⟨place, there, arrives, fun _ => Array.mem_push_self⟩

omit numbered productive explored in
theorem Flowing.contributeKernel {flow : Flow} (flowing : Flowing grammar automaton flow) {state : Nat}
    {kernel : List Item} (found : automaton.kernels[state]? = some kernel)
    {step : Flow → Item × Nat → Except Fault Flow}
    (each : ∀ seed slot before, kernel[slot]? = some seed → Flowing grammar automaton before →
      ∃ after, step before (seed, slot) = .ok after ∧ Flowing grammar automaton after ∧ before.Grows after ∧
        ∀ closed, closed ∈ (Construction.ofGrammar grammar).closure seed →
          Contributed grammar automaton state ((Placement.ofAutomaton automaton).base state + slot) closed after) :
    ∃ after, kernel.zipIdx.foldlM step flow = .ok after ∧ Flowing grammar automaton after ∧ flow.Grows after ∧
      ∀ origin seed closed, Placement.Located automaton origin state seed →
        closed ∈ (Construction.ofGrammar grammar).closure seed →
        Contributed grammar automaton state origin closed after := by
  obtain ⟨after, folded, flows, grown, all⟩ := foldlM_done
    (fun (entry : Item × Nat) flow => ∀ closed, closed ∈ (Construction.ofGrammar grammar).closure entry.1 →
      Contributed grammar automaton state ((Placement.ofAutomaton automaton).base state + entry.2) closed flow)
    Flow.Grows.refl (fun _ _ _ => Flow.Grows.trans)
    (fun _ _ _ grown done closed member => (done closed member).grow grown) kernel.zipIdx
    (fun entry among before => each entry.1 entry.2 before (List.mk_mem_zipIdx_iff_getElem?.mp among)) flow flowing
  refine ⟨after, folded, flows, grown, ?_⟩
  rintro origin seed closed ⟨slot, known, knownAt, at_, rfl⟩ member
  cases found.symm.trans knownAt
  exact all (seed, slot) (List.mk_mem_zipIdx_iff_getElem?.mpr at_) closed member

theorem Flowing.contributeState {flow : Flow} (flowing : Flowing grammar automaton flow) {state : Nat}
    (inside : state < automaton.kernels.size) :
    ∃ after, Flow.contributeState (.ofGrammar grammar) (.ofConstruction (.ofGrammar grammar))
        (.ofAutomaton automaton) automaton flow state = .ok after ∧
      Flowing grammar automaton after ∧ flow.Grows after ∧
      ∀ origin seed closed, Placement.Located automaton origin state seed →
        closed ∈ (Construction.ofGrammar grammar).closure seed →
        Contributed grammar automaton state origin closed after := by
  have found := Array.getElem?_eq_getElem inside
  unfold Flow.contributeState
  dsimp only
  rw [found, Option.getD_some]
  refine flowing.contributeKernel found ?_
  intro seed slot before at_ flows
  have inKernel := List.mem_of_getElem? at_
  dsimp only
  rw [closuresOf_kernel explored found inKernel]
  refine foldlM_done
    (Contributed grammar automaton state ((Placement.ofAutomaton automaton).base state + slot))
    Flow.Grows.refl (fun _ _ _ => Flow.Grows.trans) (fun _ _ _ => Contributed.grow) _ ?_ before flows
  intro closed member middle flowsMiddle
  exact flowsMiddle.contribute numbered productive explored found inKernel
    ⟨slot, _, found, at_, rfl⟩ member

omit numbered productive in
theorem located_start : Placement.Located automaton 0 0 ⟨grammar.productions.size, 0⟩ := by
  have first := explored.first
  obtain ⟨inside, _⟩ := Array.getElem?_eq_some_iff.mp first
  refine ⟨0, _, first, ?_, ?_⟩
  · unfold Automaton.startKernel
    rw [Rules.augmented_ofGrammar]
    rfl
  · rw [Placement.base_eq automaton inside]
    rfl

omit numbered productive in
theorem initial_flowing :
    Flowing grammar automaton (.initial (.ofGrammar grammar) (.ofAutomaton automaton)) ∧
      (Flow.initial (.ofGrammar grammar) (.ofAutomaton automaton)).Holds 0 .endOfInput := by
  have start := located_start explored
  have positive := place_lt_total start
  have room : (Construction.ofGrammar grammar).emptySet.fits .endOfInput = true :=
    fits_of_slots rfl (Nat.zero_le _)
  have blank : ∀ terminal, (Construction.ofGrammar grammar).emptySet.contains terminal = false :=
    TerminalSet.contains_withCapacity _
  have sets : ∀ place, (Flow.initial (.ofGrammar grammar) (.ofAutomaton automaton)).sets[place]? =
      if place < (Placement.ofAutomaton automaton).total then
        some (if place = 0 then (Construction.ofGrammar grammar).emptySet.add .endOfInput
          else (Construction.ofGrammar grammar).emptySet)
      else none := by
    intro place
    unfold Flow.initial
    dsimp only
    rw [Array.getElem?_modify, Array.getElem?_replicate]
    by_cases zero : place = 0
    · subst zero
      rw [if_pos rfl, if_pos positive, if_pos positive, if_pos rfl]
      rfl
    · rw [if_neg (fun same => zero same.symm), if_neg zero]
  constructor
  · constructor
    · unfold Flow.initial
      rw [Array.size_modify, Array.size_replicate]
    · intro set member
      obtain ⟨place, found⟩ := Array.mem_iff_getElem?.mp member
      rw [sets] at found
      split at found
      · cases found
        split
        · rw [TerminalSet.slots_add]
          rfl
        · rfl
      · cases found
    · intro place state item set terminal found located present
      rw [sets, if_pos (place_lt_total located)] at found
      cases found
      split at present
      · rename_i zero
        subst zero
        rw [TerminalSet.contains_add _ _ _ room, blank, Bool.false_or, beq_iff_eq] at present
        obtain ⟨rfl, rfl⟩ := start.unique located
        refine ⟨[], .start, .kernel ⟨?_, present⟩⟩
        rw [Rules.augmented_ofGrammar]
      · rw [blank] at present
        cases present
    · intro source place arc
      exact absurd arc (Array.not_mem_empty _)
  · refine ⟨(Construction.ofGrammar grammar).emptySet.add .endOfInput, ?_, ?_⟩
    · rw [sets, if_pos positive, if_pos rfl]
    · rw [TerminalSet.contains_add _ _ _ room, beq_self_eq_true, Bool.or_true]

/-! ### Lookaheads at rest -/

def Arrived (arc : Nat × Nat) (sets : Array TerminalSet) : Prop :=
  ∀ source target, sets[arc.1]? = some source → sets[arc.2]? = some target →
    ∀ terminal, source.contains terminal = true → target.contains terminal = true

omit numbered productive explored in
theorem setIfInBounds_union {sets : Array TerminalSet} {arcs : Array (Nat × Nat)} {place : Nat}
    {target : TerminalSet} (found : sets[place]? = some target) (source : TerminalSet) :
    sets.setIfInBounds place (target.union source) = (Flow.add ⟨sets, arcs⟩ place source).sets := by
  apply Array.ext_getElem?
  intro other
  obtain ⟨inside, _⟩ := Array.getElem?_eq_some_iff.mp found
  unfold Flow.add
  dsimp only
  rw [Array.getElem?_modify, Array.getElem?_setIfInBounds]
  by_cases same : place = other
  · subst same
    rw [if_pos rfl, if_pos inside, if_pos rfl, found]
    rfl
  · rw [if_neg same, if_neg same]

omit productive explored in
theorem round_progress {flow : Flow} (sets : Array TerminalSet)
    (flowing : Flowing grammar automaton ⟨sets, flow.arcs⟩ ∧ flow.Grows ⟨sets, flow.arcs⟩) :
    Progress (fun sets => Flowing grammar automaton ⟨sets, flow.arcs⟩ ∧ flow.Grows ⟨sets, flow.arcs⟩)
      (fun sets row column => Flow.Holds ⟨sets, flow.arcs⟩ row (.ofIndex column))
      (Placement.ofAutomaton automaton).total (grammar.terminalCount + 1)
      (fun sets => ∀ arc, arc ∈ flow.arcs.toList → Arrived arc sets) (sets, false)
      (Flow.round flow.arcs sets) := by
  unfold Flow.round
  rw [← Array.foldl_toList]
  refine Progress.foldl _ ?_ (sets, false) flowing
  rintro ⟨source, place⟩ member ⟨before, changed⟩ ⟨flows, grown⟩
  dsimp only
  split
  · rename_i given target sourceAt targetAt
    obtain ⟨_, there, seed, closed, symbol, from_, located, edge, next, expanded⟩ :=
      flows.arcs source place (Array.mem_toList_iff.mp member)
    have targetSlots := flows.slots target (Array.mem_of_getElem? targetAt)
    have givenSlots := flows.slots given (Array.mem_of_getElem? sourceAt)
    have joined : ∀ terminal, (target.union given).contains terminal =
        (target.contains terminal || given.contains terminal) :=
      fun _ => TerminalSet.contains_union_of_slots (by rw [targetSlots, givenSlots])
    have ahead : ∀ terminal, given.contains terminal = true →
        Ahead grammar automaton there closed.advance terminal := fun terminal present =>
      (flows.sets _ _ _ _ _ sourceAt from_ present).flow numbered expanded next edge
    cases grew : (target.unionGrew given).2 with
    | false =>
        rw [if_neg (by decide)]
        apply Progress.idle ⟨flows, grown⟩
        intro one two oneAt twoAt terminal present
        cases sourceAt.symm.trans oneAt
        cases targetAt.symm.trans twoAt
        rw [← TerminalSet.union_of_unionGrew_eq_false grew, joined, present, Bool.or_true]
    | true =>
        rw [if_pos rfl]
        obtain ⟨after, more, _⟩ := flows.add located givenSlots ahead
        have setEq : before.setIfInBounds place (target.unionGrew given).1 =
            (Flow.add ⟨before, flow.arcs⟩ place given).sets := setIfInBounds_union targetAt given
        rw [setEq]
        refine ⟨⟨after, grown.trans more⟩, true, (Bool.or_true _).symm,
          ⟨fun row column => more.holds row _, fun _ => ?_, fun impossible => by cases impossible⟩,
          fun impossible => by cases impossible⟩
        obtain ⟨terminal, unknown, known⟩ := TerminalSet.exists_news_of_unionGrew
          (by rw [targetSlots]; exact slotsOf_le numbered) grew
        have inside := place_lt_total located
        have holds : (Flow.add ⟨before, flow.arcs⟩ place given).Holds place terminal := by
          refine ⟨target.union given, ?_, known⟩
          unfold Flow.add
          dsimp only
          rw [Array.getElem?_modify, if_pos rfl, targetAt]
          rfl
        obtain ⟨set, found, present⟩ := holds
        obtain ⟨_, _, canonical⟩ := after.sets _ _ _ _ _ found located present
        have low := canonical.terminal_lt numbered
        refine ⟨place, terminal.index, inside, by omega, ?_, ?_⟩
        · rintro ⟨old, oldAt, already⟩
          cases targetAt.symm.trans oldAt
          rw [KindId.ofIndex_index, unknown] at already
          cases already
        · rw [KindId.ofIndex_index]
          exact ⟨set, found, present⟩
  · rename_i none
    apply Progress.idle ⟨flows, grown⟩
    intro given target sourceAt targetAt
    exact (none given target sourceAt targetAt).elim

structure Settled (grammar : Grammar) (automaton : Automaton) (flow : Flow) : Prop where
  flowing : Flowing grammar automaton flow
  start : flow.Holds 0 .endOfInput
  contributed : ∀ state origin seed closed, Placement.Located automaton origin state seed →
    closed ∈ (Construction.ofGrammar grammar).closure seed →
    Contributed grammar automaton state origin closed flow
  arrived : ∀ arc, arc ∈ flow.arcs → Arrived arc flow.sets

omit numbered productive explored in
structure Arisen (grammar : Grammar) (automaton : Automaton) (flow : Flow) : Prop where
  flowing : Flowing grammar automaton flow
  start : flow.Holds 0 .endOfInput
  contributed : ∀ state origin seed closed, Placement.Located automaton origin state seed →
    closed ∈ (Construction.ofGrammar grammar).closure seed →
    Contributed grammar automaton state origin closed flow

omit numbered productive in
theorem exists_arisen {step : Flow → Nat → Except Fault Flow}
    (each : ∀ before state, Flowing grammar automaton before → state < automaton.kernels.size →
      ∃ after, step before state = .ok after ∧ Flowing grammar automaton after ∧ before.Grows after ∧
        ∀ origin seed closed, Placement.Located automaton origin state seed →
          closed ∈ (Construction.ofGrammar grammar).closure seed →
          Contributed grammar automaton state origin closed after) :
    ∃ flow, (List.range automaton.kernels.size).foldlM step
        (Flow.initial (.ofGrammar grammar) (.ofAutomaton automaton)) = .ok flow ∧
      Arisen grammar automaton flow := by
  obtain ⟨begun, first⟩ := initial_flowing explored
  obtain ⟨flow, folded, flows, grown, all⟩ := foldlM_done
    (fun state flow => ∀ origin seed closed, Placement.Located automaton origin state seed →
      closed ∈ (Construction.ofGrammar grammar).closure seed →
      Contributed grammar automaton state origin closed flow)
    Flow.Grows.refl (fun _ _ _ => Flow.Grows.trans)
    (fun _ _ _ grown done origin seed closed located member => (done origin seed closed located member).grow grown)
    (List.range automaton.kernels.size)
    (fun state member before flowing => each before state flowing (List.mem_range.mp member)) _ begun
  refine ⟨flow, folded, flows, grown.holds _ _ first, ?_⟩
  intro state origin seed closed located member
  have ⟨_, kernel, found, _, _⟩ := located
  obtain ⟨inside, _⟩ := Array.getElem?_eq_some_iff.mp found
  exact all state (List.mem_range.mpr inside) origin seed closed located member

omit productive explored in
theorem Arisen.settled {flow : Flow} (arisen : Arisen grammar automaton flow) :
    Settled grammar automaton ⟨saturate (Flow.round flow.arcs)
      ((Placement.ofAutomaton automaton).total * (grammar.terminalCount + 1) + 1) flow.sets, flow.arcs⟩ := by
  obtain ⟨⟨flowing, more⟩, arrived⟩ := saturate_done (round_progress numbered)
    (show Flowing grammar automaton ⟨flow.sets, flow.arcs⟩ ∧ flow.Grows ⟨flow.sets, flow.arcs⟩ from
      ⟨arisen.flowing, .refl flow⟩)
  refine ⟨flowing, more.holds _ _ arisen.start, ?_, fun arc member => arrived arc (Array.mem_toList_iff.mpr member)⟩
  intro state origin seed closed located member
  exact (arisen.contributed state origin seed closed located member).grow more

theorem lookaheads_settled :
    ∃ sets arcs, lookaheads (.ofGrammar grammar) (.ofConstruction (.ofGrammar grammar))
        (.ofAutomaton automaton) automaton = .ok sets ∧ Settled grammar automaton ⟨sets, arcs⟩ := by
  obtain ⟨flow, folded, arisen⟩ := exists_arisen explored
    (fun _ _ flowing inside => flowing.contributeState numbered productive explored inside)
  refine ⟨_, flow.arcs, ?_, arisen.settled numbered⟩
  unfold lookaheads
  rw [folded]
  rfl

/-- What follows an item of a canonical set is in the closure of what has settled at a kernel item. -/
theorem Settled.exists_seed {flow : Flow} (settled : Settled grammar automaton flow) {front : List Symbol}
    {state : Nat} (leads : automaton.Leads front state) :
    ∀ {item : Item} {terminal : KindId}, Canonical grammar front item terminal →
      ∃ origin seed tail, Placement.Located automaton origin state seed ∧ flow.Holds origin tail ∧
        Expanded grammar (Single seed tail) item terminal := by
  have marker := marker_index numbered
  induction leads with
  | start =>
      intro item terminal canonical
      obtain ⟨seed, tail, ⟨rfl, rfl⟩, expanded⟩ := expanded_iff_exists_seed.mp canonical
      rw [Rules.augmented_ofGrammar] at expanded
      exact ⟨0, _, .endOfInput, located_start explored, settled.start, expanded⟩
  | @step front state target symbol leads edge ih =>
      intro item terminal canonical
      rw [canonical_append] at canonical
      obtain ⟨advanced, tail, ⟨before, earlier, next, rfl⟩, expanded⟩ :=
        expanded_iff_exists_seed.mp canonical
      obtain ⟨origin, seed, follower, located, holds, here⟩ := ih earlier
      obtain ⟨set, found, present⟩ := holds
      have proper := (settled.flowing.sets _ _ _ _ _ found located present).ne_marker numbered
      suffices arrives : ∃ place, Placement.Located automaton place target before.advance ∧
          flow.Holds place tail by
        obtain ⟨place, there, known⟩ := arrives
        exact ⟨place, _, tail, there, known, expanded⟩
      rcases (expanded_iff_marker numbered (Nat.le_of_eq marker.symm) proper).mp here with
        ⟨arises, away⟩ | ⟨passes, rfl⟩
      · obtain ⟨closed, member, rfl, known⟩ := Construction.closure_complete numbered productive arises
        obtain ⟨place, there, holds, _⟩ :=
          settled.contributed state origin seed closed located member symbol target next edge
        exact ⟨place, there, holds tail away known⟩
      · obtain ⟨closed, member, rfl, known⟩ := Construction.closure_complete numbered productive passes
        obtain ⟨place, there, _, arc⟩ :=
          settled.contributed state origin seed closed located member symbol target next edge
        have inside : place < flow.sets.size := settled.flowing.size ▸ place_lt_total there
        have targetAt := Array.getElem?_eq_getElem inside
        exact ⟨place, there, _, targetAt,
          settled.arrived _ (arc known) set _ found targetAt tail present⟩

/-- What has settled at a kernel item is what follows it in the canonical sets. -/
theorem Settled.holds_iff {flow : Flow} (settled : Settled grammar automaton flow) {place state : Nat}
    {item : Item} (located : Placement.Located automaton place state item) {terminal : KindId} :
    flow.Holds place terminal ↔ Ahead grammar automaton state item terminal := by
  constructor
  · rintro ⟨set, found, present⟩
    exact settled.flowing.sets _ _ _ _ _ found located present
  · rintro ⟨front, leads, canonical⟩
    obtain ⟨origin, seed, tail, there, holds, expanded⟩ :=
      settled.exists_seed numbered productive explored leads canonical
    cases expanded with
    | kernel same =>
        obtain ⟨rfl, rfl⟩ := same
        rw [located.place_eq explored there]
        exact holds
    | start _ _ produced _ =>
        obtain ⟨slot, kernel, found, at_, _⟩ := located
        exact absurd (mem_startsOf.mpr ⟨rfl, produced⟩)
          (explored.kernel_inner found (List.mem_of_getElem? at_) _)

end Contributions

/-- The lookaheads of a normal form can always be computed, and they are exactly the LALR(1) ones: a terminal
is a lookahead of a kernel item of a state if and only if, after some symbols that lead to the state, the
canonical LR(1) items have the item with this terminal. -/
theorem lookaheads_canonical {declaration : Declaration} (normalized : declaration.normalize = .ok grammar)
    (made : Automaton.ofRules (.ofGrammar grammar) = .ok automaton) :
    ∃ sets, lookaheads (.ofGrammar grammar) (.ofConstruction (.ofGrammar grammar)) (.ofAutomaton automaton)
        automaton = .ok sets ∧
      ∀ (state slot : Nat) (kernel : List Item) (item : Item), automaton.kernels[state]? = some kernel →
        kernel[slot]? = some item →
        ∃ set, sets[(Placement.ofAutomaton automaton).base state + slot]? = some set ∧
          ∀ terminal, set.contains terminal = true ↔
            ∃ front, automaton.Leads front state ∧ Canonical grammar front item terminal := by
  have numbered := Declaration.normalize_numbered normalized
  obtain ⟨_, _, _, _, productive, _⟩ := Declaration.normalize_ok normalized
  have explored := Automaton.ofRules_explored made
  obtain ⟨sets, arcs, computed, settled⟩ := lookaheads_settled numbered productive explored
  refine ⟨sets, computed, ?_⟩
  intro state slot kernel item found at_
  have located : Placement.Located automaton _ state item := ⟨slot, kernel, found, at_, rfl⟩
  have inside := settled.flowing.size ▸ place_lt_total located
  have here := Array.getElem?_eq_getElem inside
  refine ⟨_, here, fun terminal => ?_⟩
  have exact_ : Flow.Holds ⟨sets, arcs⟩ _ terminal ↔ Ahead grammar automaton state item terminal :=
    settled.holds_iff numbered productive explored located
  constructor
  · intro present
    exact exact_.mp ⟨_, here, present⟩
  · intro ahead
    obtain ⟨set, found, present⟩ := exact_.mpr ahead
    cases here.symm.trans found
    exact present

end Exactness

/-! ### Assignments through pointers -/

namespace Pointers

/-- An assignment and a value may begin alike. That `=` is not behind a value at the beginning of a statement
is seen only by those who keep apart how a state was come to. -/
def declaration : Declaration :=
  { Declaration.empty "pointers" with
    rules := #[
      ("statement", .choice [.sequence [.symbol "target", .literal "=", .symbol "value"], .symbol "value"]),
      ("target", .choice [.sequence [.literal "*", .symbol "value"], .literal "x"]),
      ("value", .symbol "target")] }

theorem normalizes : declaration.normalize.toOption.isSome = true := by decide +kernel

def grammar : Grammar := declaration.normalize.toOption.get normalizes

theorem explores : (Automaton.ofRules (.ofGrammar grammar)).toOption.isSome = true := by decide +kernel

def automaton : Automaton := (Automaton.ofRules (.ofGrammar grammar)).toOption.get explores

/-- The state behind a target at the beginning, with the items `statement -> target . = value` and
`value -> target .`. -/
theorem kernel_eq : automaton.kernels[2]? = some [⟨0, 1⟩, ⟨4, 1⟩] := by decide +kernel

theorem members_eq : ((lookaheads (.ofGrammar grammar) (.ofConstruction (.ofGrammar grammar))
    (.ofAutomaton automaton) automaton).toOption.bind (·[(Placement.ofAutomaton automaton).base 2 + 1]?)).map
      (fun set => (set.contains .endOfInput, set.contains ⟨2⟩)) = some (true, false) := by
  decide +kernel

end Pointers

theorem lookaheads_canonical_pointers :
    (∃ front, Pointers.automaton.Leads front 2 ∧ Canonical Pointers.grammar front ⟨4, 1⟩ .endOfInput) ∧
      ¬ ∃ front, Pointers.automaton.Leads front 2 ∧ Canonical Pointers.grammar front ⟨4, 1⟩ ⟨2⟩ := by
  have normalized : Pointers.declaration.normalize = .ok Pointers.grammar := eq_ok_get _
  have made : Automaton.ofRules (.ofGrammar Pointers.grammar) = .ok Pointers.automaton := eq_ok_get _
  obtain ⟨sets, computed, all⟩ := lookaheads_canonical normalized made
  obtain ⟨set, found, members⟩ := all 2 1 _ ⟨4, 1⟩ Pointers.kernel_eq rfl
  have known := Pointers.members_eq
  rw [computed] at known
  change (sets[_]?).map _ = _ at known
  rw [found] at known
  obtain ⟨ends, assigns⟩ := Prod.mk.inj (Option.some.inj known)
  constructor
  · exact (members _).mp ends
  · intro ahead
    rw [(members _).mpr ahead] at assigns
    cases assigns

end IncrementalParsing.Lalr
