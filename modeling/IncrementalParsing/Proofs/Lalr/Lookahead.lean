import IncrementalParsing.Proofs.Lalr.Rows

/-!
Lookaheads of the augmented production. The items of a closure with lookaheads belong to the closure
of the item that was closed. Nothing but the end of the input follows the augmented production: no
lookahead arises for it, and lookaheads flow to its end from its beginning alone.
-/

namespace IncrementalParsing.Lalr

/-! ### Closures of single items -/

section Closures

variable {construction : Construction} {seed : Item} {closed : Construction.ClosedItem}

theorem mem_closuresOf (member : closed ∈ (Closures.ofConstruction construction).of seed) :
    closed ∈ construction.closure seed := by
  unfold Closures.of Closures.ofConstruction at member
  rw [Array.getElem?_map, Array.getElem?_range] at member
  split at member
  · rw [Option.map_some, Option.getD_some, Array.getElem?_map, Array.getElem?_range] at member
    split at member
    · exact member
    · cases member
  · rw [Option.map_none, Option.getD_none, Array.getElem?_empty] at member
    cases member

theorem mem_constructionClosure (member : closed ∈ construction.closure seed) :
    closed = ⟨seed, construction.markerSet⟩ ∨
      ∃ id, id ∈ entered construction.rules [seed] ∧ closed.item ∈ construction.rules.startsOf id := by
  unfold Construction.closure at member
  split at member
  · rename_i id next
    rcases List.mem_cons.mp member with here | later
    · exact Or.inl here
    · obtain ⟨other, among, starts⟩ := List.mem_flatMap.mp later
      obtain ⟨item, begins, rfl⟩ := List.mem_map.mp starts
      exact Or.inr ⟨other, among, begins⟩
  · exact Or.inl (List.mem_singleton.mp member)

theorem closed_of_mem_constructionClosure (consistent : construction.rules.Consistent)
    {kernel : List Item} (inKernel : seed ∈ kernel) (member : closed ∈ construction.closure seed) :
    Closed construction.rules kernel closed.item := by
  rcases mem_constructionClosure member with same | ⟨id, among, starts⟩
  · subst same
    exact .kernel inKernel
  · refine closed_iff_exists_seed.mpr ⟨seed, inKernel, ?_⟩
    rw [← mem_closure consistent]
    unfold closure
    exact List.mem_append_right _ (List.mem_flatMap.mpr ⟨id, among, starts⟩)

end Closures

/-! ### Places of kernel items -/

namespace Placement

def before (automaton : Automaton) (state : Nat) : Nat :=
  sumOf ((automaton.kernels.toList.take state).map List.length)

private theorem bases_from : ∀ (kernels : List (List Item)) (bases : Array Nat) (total : Nat),
    let folded := kernels.foldl
      (fun ((bases, total) : Array Nat × Nat) kernel => (bases.push total, total + kernel.length))
      (bases, total)
    folded.1.size = bases.size + kernels.length ∧
      (∀ place, place < bases.size → folded.1[place]? = bases[place]?) ∧
      ∀ place, place < kernels.length →
        folded.1[bases.size + place]? = some (total + sumOf ((kernels.take place).map List.length))
  | [], bases, total => by simp
  | kernel :: rest, bases, total => by
      obtain ⟨size, kept, later⟩ := bases_from rest (bases.push total) (total + kernel.length)
      refine ⟨?_, ?_, ?_⟩
      · rw [List.foldl_cons, size, Array.size_push, List.length_cons]
        omega
      · intro place inside
        rw [List.foldl_cons, kept place (by rw [Array.size_push]; omega),
          Array.getElem?_push_lt inside, Array.getElem?_eq_getElem inside]
      · intro place inside
        rw [List.foldl_cons]
        cases place with
        | zero =>
            rw [Nat.add_zero, kept bases.size (by rw [Array.size_push]; omega),
              Array.getElem?_push_size]
            simp
        | succ place =>
            have found := later place (by simpa using inside)
            rw [Array.size_push] at found
            rw [Nat.add_comm place 1, ← Nat.add_assoc, found, Nat.add_comm 1 place, List.take_succ_cons,
              List.map_cons, sumOf_cons, Nat.add_assoc]

theorem base_eq (automaton : Automaton) {state : Nat} (inside : state < automaton.kernels.size) :
    (ofAutomaton automaton).base state = before automaton state := by
  obtain ⟨_, _, later⟩ := bases_from automaton.kernels.toList #[] 0
  have found := later state (by simpa using inside)
  unfold base ofAutomaton
  rw [← Array.foldl_toList]
  simp only [List.size_toArray, List.length_nil, Nat.zero_add] at found
  simp only [found, Option.getD_some]
  rfl

theorem before_step (automaton : Automaton) {state : Nat} {kernel : List Item}
    (found : automaton.kernels[state]? = some kernel) :
    before automaton (state + 1) = before automaton state + kernel.length := by
  have listed : automaton.kernels.toList[state]? = some kernel := by
    rw [Array.getElem?_toList]
    exact found
  unfold before
  rw [List.take_add_one, listed, List.map_append, sumOf_append]
  rfl

theorem before_mono (automaton : Automaton) {state other : Nat} (le : state ≤ other) :
    before automaton state ≤ before automaton other := by
  obtain ⟨more, rfl⟩ := Nat.exists_eq_add_of_le le
  unfold before
  rw [List.take_add, List.map_append, sumOf_append]
  exact Nat.le_add_right _ _

def Describes (automaton : Automaton) (place : Nat) (item : Item) : Prop :=
  ∃ (state slot : Nat) (kernel : List Item), automaton.kernels[state]? = some kernel ∧
    kernel[slot]? = some item ∧ place = (ofAutomaton automaton).base state + slot

def Located (automaton : Automaton) (place state : Nat) (item : Item) : Prop :=
  ∃ (slot : Nat) (kernel : List Item), automaton.kernels[state]? = some kernel ∧
    kernel[slot]? = some item ∧ place = (ofAutomaton automaton).base state + slot

theorem Located.describes {automaton : Automaton} {place state : Nat} {item : Item}
    (located : Located automaton place state item) : Describes automaton place item :=
  ⟨state, located⟩

theorem Located.unique {automaton : Automaton} {place state other : Nat} {left right : Item}
    (first : Located automaton place state left) (second : Located automaton place other right) :
    state = other ∧ left = right := by
  obtain ⟨slot, kernel, found, at_, placed⟩ := first
  obtain ⟨second, against, known, here, same⟩ := second
  obtain ⟨inside, _⟩ := Array.getElem?_eq_some_iff.mp found
  obtain ⟨within, _⟩ := Array.getElem?_eq_some_iff.mp known
  obtain ⟨slotLt, _⟩ := List.getElem?_eq_some_iff.mp at_
  obtain ⟨secondLt, _⟩ := List.getElem?_eq_some_iff.mp here
  rw [base_eq automaton inside] at placed
  rw [base_eq automaton within] at same
  have stepLeft := before_step automaton found
  have stepRight := before_step automaton known
  rcases Nat.lt_trichotomy state other with less | equal | more
  · have order := before_mono automaton (show state + 1 ≤ other from less)
    omega
  · subst equal
    cases found.symm.trans known
    have slots : slot = second := by omega
    subst slots
    exact ⟨rfl, Option.some.inj (at_.symm.trans here)⟩
  · have order := before_mono automaton (show other + 1 ≤ state from more)
    omega

theorem Describes.unique {automaton : Automaton} {place : Nat} {left right : Item}
    (first : Describes automaton place left) (second : Describes automaton place right) :
    left = right := by
  obtain ⟨state, first⟩ := first
  obtain ⟨other, second⟩ := second
  exact (Located.unique first second).2

theorem placeBetween?_found (kernel : Array Item) (item : Item) : ∀ (width low high slot : Nat),
    high - low ≤ width → placeBetween? kernel item low high = some slot → kernel[slot]? = some item
  | width, low, high, slot, bound, found => by
      unfold placeBetween? at found
      split at found
      · rename_i ordered
        dsimp only at found
        split at found
        · cases found
        · rename_i middle at_
          split at found
          · rename_i same
            cases found
            exact same ▸ at_
          · cases width with
            | zero => omega
            | succ width =>
                split at found
                · exact placeBetween?_found kernel item width _ _ slot (by omega) found
                · exact placeBetween?_found kernel item width _ _ slot (by omega) found
      · cases found

theorem place_located {automaton : Automaton} {state place : Nat} {item : Item}
    (placed : (ofAutomaton automaton).place state item = .ok place) :
    Located automaton place state item := by
  unfold Placement.place at placed
  dsimp only at placed
  split at placed
  · rename_i slot found
    cases placed
    have at_ := placeBetween?_found _ item _ _ _ slot (Nat.le_refl _) found
    have kernels : (ofAutomaton automaton).kernels = automaton.kernels.map (·.toArray) := rfl
    rw [kernels, Array.getElem?_map] at at_
    cases known : automaton.kernels[state]? with
    | none => simp [known] at at_
    | some kernel =>
        refine ⟨slot, kernel, known, ?_, rfl⟩
        simpa [known] using at_
  · cases placed

theorem place_describes {automaton : Automaton} {state place : Nat} {item : Item}
    (placed : (ofAutomaton automaton).place state item = .ok place) :
    Describes automaton place item :=
  (place_located placed).describes

end Placement

/-! ### What follows the augmented production -/

namespace TerminalSets

def EndOnly (set : TerminalSet) : Prop :=
  ∀ terminal, set.contains terminal = true → terminal = .endOfInput

theorem contains_union_imp (set other : TerminalSet) (terminal : KindId)
    (present : (set.union other).contains terminal = true) :
    set.contains terminal = true ∨ other.contains terminal = true := by
  have room : set.fits terminal = true := by
    have fits := TerminalSet.fits_of_contains _ _ present
    exact fits
  rw [TerminalSet.contains_union set other terminal room] at present
  simpa using present

theorem EndOnly.union {set other : TerminalSet} (left : EndOnly set) (right : EndOnly other) :
    EndOnly (set.union other) := by
  intro terminal present
  rcases contains_union_imp set other terminal present with mine | given
  · exact left terminal mine
  · exact right terminal given

end TerminalSets

open TerminalSets

section Augmented

variable {grammar : Grammar}

theorem marker_index (numbered : grammar.Numbered) :
    (Construction.ofGrammar grammar).marker.index = grammar.terminalCount := by
  have fits := numbered.kinds_le
  have le := numbered.rules_le
  simp only [Declaration.symbolLimit] at fits
  exact KindId.index_ofIndex (show grammar.terminalCount < 65536 by omega)

theorem markerSet_contains (numbered : grammar.Numbered) (terminal : KindId) :
    (Construction.ofGrammar grammar).markerSet.contains terminal =
      (terminal == (Construction.ofGrammar grammar).marker) := by
  have room : (Construction.ofGrammar grammar).emptySet.fits
      (Construction.ofGrammar grammar).marker = true := by
    unfold TerminalSet.fits
    rw [marker_index numbered, decide_eq_true_eq]
    change grammar.terminalCount < 64 * ((grammar.terminalCount + 1 + 63) / 64)
    omega
  unfold Construction.markerSet
  rw [TerminalSet.contains_add _ _ _ room]
  unfold Construction.emptySet
  rw [TerminalSet.contains_withCapacity, Bool.false_or]

/-- Nothing arises spontaneously where only the placeholder is known. -/
theorem markerSet_remove (numbered : grammar.Numbered) (terminal : KindId) :
    ((Construction.ofGrammar grammar).markerSet.remove
      (Construction.ofGrammar grammar).marker).contains terminal = false := by
  rw [TerminalSet.contains_remove, markerSet_contains numbered]
  simp

def Item.IsFinal (grammar : Grammar) (item : Item) : Prop :=
  item.production = grammar.productions.size

theorem final_in_closure {seed : Item} {closed : Construction.ClosedItem}
    (member : closed ∈ (Construction.ofGrammar grammar).closure seed)
    (final : closed.item.IsFinal grammar) :
    closed = ⟨seed, (Construction.ofGrammar grammar).markerSet⟩ := by
  rcases mem_constructionClosure member with same | ⟨id, _, starts⟩
  · exact same
  · obtain ⟨_, among⟩ := mem_startsOf.mp starts
    obtain ⟨_, production, found, _⟩ := (Rules.mem_productionsOf grammar).mp among
    obtain ⟨inside, _⟩ := Array.getElem?_eq_some_iff.mp found
    unfold Item.IsFinal at final
    omega

/-- Lookaheads of the augmented production are the end of the input, and they come from nowhere
else. -/
structure FinalFlow (grammar : Grammar) (automaton : Automaton) (flow : Flow) : Prop where
  sets : ∀ (place : Nat) (item : Item) (set : TerminalSet),
    Placement.Describes automaton place item → item.IsFinal grammar →
    flow.sets[place]? = some set → EndOnly set
  arcs : ∀ (source place : Nat) (item : Item), (source, place) ∈ flow.arcs →
    Placement.Describes automaton place item → item.IsFinal grammar →
    ∃ before, Placement.Describes automaton source before ∧ before.IsFinal grammar

private theorem FinalFlow.add {automaton : Automaton} {flow : Flow} {place : Nat} {item : Item}
    {lookahead : TerminalSet} (final : FinalFlow grammar automaton flow)
    (described : Placement.Describes automaton place item)
    (harmless : item.IsFinal grammar → EndOnly lookahead) :
    FinalFlow grammar automaton (flow.add place lookahead) where
  sets := by
    intro other wanted set describes isFinal found
    simp only [Flow.add, Array.getElem?_modify] at found
    split at found
    · rename_i same
      subst same
      cases old : flow.sets[place]? with
      | none =>
          rw [old] at found
          cases found
      | some before =>
          rw [old] at found
          cases found
          have equal := describes.unique described
          subst equal
          exact (final.sets place wanted before describes isFinal old).union (harmless isFinal)
    · exact final.sets other wanted set describes isFinal found
  arcs := final.arcs

private theorem FinalFlow.contribute {automaton : Automaton} (numbered : grammar.Numbered)
    {targets : List (Symbol × Nat)} {origin : Nat} {seed : Item} {before after : Flow}
    {closed : Construction.ClosedItem} (final : FinalFlow grammar automaton before)
    (described : Placement.Describes automaton origin seed)
    (member : closed ∈ (Construction.ofGrammar grammar).closure seed)
    (contributed : Flow.contribute (.ofGrammar grammar) (.ofAutomaton automaton) targets origin before
      closed = .ok after) :
    FinalFlow grammar automaton after := by
  unfold Flow.contribute at contributed
  split at contributed
  · cases contributed
    exact final
  · split at contributed
    · cases contributed
    · obtain ⟨place, placed, rest⟩ := bind_ok.mp contributed
      have describes := Placement.place_describes placed
      have seedFinal : closed.item.advance.IsFinal grammar →
          closed = ⟨seed, (Construction.ofGrammar grammar).markerSet⟩ :=
        fun isFinal => final_in_closure member isFinal
      have harmless : closed.item.advance.IsFinal grammar →
          EndOnly (closed.lookahead.remove (Construction.ofGrammar grammar).marker) := by
        intro isFinal terminal present
        rw [seedFinal isFinal, markerSet_remove numbered] at present
        cases present
      have next : FinalFlow grammar automaton
          (if (closed.lookahead.remove (Construction.ofGrammar grammar).marker).isEmpty then before
            else before.add place
              (closed.lookahead.remove (Construction.ofGrammar grammar).marker)) := by
        split
        · exact final
        · exact final.add describes harmless
      split at rest
      · cases pure_ok.mp rest
        refine ⟨next.sets, fun source target item among reaches isFinal => ?_⟩
        rcases Array.mem_push.mp among with old | fresh
        · exact next.arcs source target item old reaches isFinal
        · cases fresh
          have equal := reaches.unique describes
          subst equal
          refine ⟨seed, described, ?_⟩
          have same : closed.item = seed :=
            congrArg Construction.ClosedItem.item (seedFinal isFinal)
          change seed.production = _
          rw [← same]
          exact isFinal
      · cases pure_ok.mp rest
        exact next

theorem FinalFlow.round {automaton : Automaton} {flow : Flow}
    (final : FinalFlow grammar automaton flow) :
    FinalFlow grammar automaton ⟨(Flow.round flow.arcs flow.sets).1, flow.arcs⟩ := by
  unfold Flow.round
  rw [← Array.foldl_toList]
  refine foldl_keeps
    (fun (state : Array TerminalSet × Bool) => FinalFlow grammar automaton ⟨state.1, flow.arcs⟩) _ _ _
    ?_ final
  rintro ⟨source, place⟩ member ⟨sets, changed⟩ kept
  rw [Array.mem_toList_iff] at member
  dsimp only
  split
  · rename_i given target sourceAt targetAt
    split
    · refine ⟨fun other item set describes isFinal found => ?_, kept.arcs⟩
      rw [Array.getElem?_setIfInBounds] at found
      split at found
      · rename_i same
        subst same
        split at found
        · cases found
          obtain ⟨before, from_, beforeFinal⟩ := kept.arcs source place item member describes isFinal
          exact (kept.sets place item target describes isFinal targetAt).union
            (kept.sets source before given from_ beforeFinal sourceAt)
        · cases found
      · exact kept.sets other item set describes isFinal found
    · exact kept
  · exact kept

private theorem FinalFlow.contributeState {automaton : Automaton} (numbered : grammar.Numbered)
    {before after : Flow} {state : Nat} (final : FinalFlow grammar automaton before)
    (contributed : Flow.contributeState (.ofGrammar grammar)
      (.ofConstruction (.ofGrammar grammar)) (.ofAutomaton automaton) automaton before state =
        .ok after) :
    FinalFlow grammar automaton after := by
  unfold Flow.contributeState at contributed
  refine foldlM_keeps (FinalFlow grammar automaton) _ _ _ _ ?_ final contributed
  rintro ⟨seed, slot⟩ member first last kept step
  have described : Placement.Describes automaton
      ((Placement.ofAutomaton automaton).base state + slot) seed := by
    rw [List.mk_mem_zipIdx_iff_getElem?] at member
    cases known : automaton.kernels[state]? with
    | none =>
        rw [known] at member
        cases member
    | some kernel =>
        rw [known] at member
        exact ⟨state, slot, kernel, known, member, rfl⟩
  refine foldlM_keeps (FinalFlow grammar automaton) _ _ _ _ ?_ kept step
  intro closed inside earlier later still contributes
  exact still.contribute numbered described (mem_closuresOf inside) contributes

private theorem FinalFlow.initial (automaton : Automaton) :
    FinalFlow grammar automaton (.initial (.ofGrammar grammar) (.ofAutomaton automaton)) where
  sets := by
    intro place item set _ _ found terminal present
    simp only [Flow.initial, Array.getElem?_modify, Array.getElem?_replicate] at found
    have room : (Construction.ofGrammar grammar).emptySet.fits .endOfInput = true := by
      unfold TerminalSet.fits
      rw [decide_eq_true_eq]
      change 0 < 64 * (((Construction.ofGrammar grammar).terminalCount + 1 + 63) / 64)
      omega
    have blank : ∀ kind, (Construction.ofGrammar grammar).emptySet.contains kind = false :=
      TerminalSet.contains_withCapacity _
    split at found
    · split at found
      · cases found
        rw [TerminalSet.contains_add _ _ _ room, blank, Bool.false_or, beq_iff_eq] at present
        exact present
      · cases found
    · split at found
      · cases found
        rw [blank] at present
        cases present
      · cases found
  arcs := by
    intro source place item among
    exact absurd among (Array.not_mem_empty _)

/-- The end of the input alone follows the augmented production. -/
theorem lookaheads_final {automaton : Automaton} {sets : Array TerminalSet}
    (numbered : grammar.Numbered)
    (computed : lookaheads (.ofGrammar grammar) (.ofConstruction (.ofGrammar grammar))
      (.ofAutomaton automaton) automaton = .ok sets)
    {place : Nat} {item : Item} {set : TerminalSet}
    (described : Placement.Describes automaton place item) (isFinal : item.IsFinal grammar)
    (found : sets[place]? = some set) : EndOnly set := by
  unfold lookaheads at computed
  obtain ⟨flow, contributed, rest⟩ := bind_ok.mp computed
  cases pure_ok.mp rest
  have direct : FinalFlow grammar automaton flow :=
    foldlM_keeps (FinalFlow grammar automaton) _ _ _ _
      (fun state _ before after kept step => kept.contributeState numbered step)
      (FinalFlow.initial automaton) contributed
  have flowed : ∀ rounds,
      FinalFlow grammar automaton ⟨saturate (Flow.round flow.arcs) rounds flow.sets, flow.arcs⟩ :=
    fun rounds => saturate_induction (Flow.round flow.arcs)
      (fun sets => FinalFlow grammar automaton ⟨sets, flow.arcs⟩)
      (fun sets kept => kept.round) rounds flow.sets direct
  exact (flowed _).sets place item set described isFinal found

end Augmented

end IncrementalParsing.Lalr
