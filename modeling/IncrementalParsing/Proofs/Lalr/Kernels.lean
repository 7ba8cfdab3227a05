import IncrementalParsing.Proofs.Lalr.Lookahead

/-!
Kernels in order. The items of a kernel increase, so that the search by halves finds every one of them, and
every item that a closed item advances to has its place in the kernel that its symbol leads to.
-/

namespace IncrementalParsing.Lalr

namespace Item

variable {first second third : Item}

theorem before_iff : first.before second = true ↔
    first.production < second.production ∨ first.production = second.production ∧ first.dot < second.dot := by
  unfold before
  rw [Bool.or_eq_true, Bool.and_eq_true, decide_eq_true_eq, decide_eq_true_eq, beq_iff_eq]

theorem before_trans (one : first.before second = true) (two : second.before third = true) :
    first.before third = true := by
  rw [before_iff] at one two ⊢
  omega

theorem not_before_self (item : Item) : ¬ item.before item = true := by
  rw [before_iff]
  omega

theorem before_of_not (different : first ≠ second) (other : ¬ first.before second = true) :
    second.before first = true := by
  rw [before_iff] at other ⊢
  have parts : first.production ≠ second.production ∨ first.dot ≠ second.dot := by
    by_cases same : first.production = second.production
    · right
      intro dots
      apply different
      cases first
      cases second
      subst same
      subst dots
      rfl
    · exact Or.inl same
  omega

end Item

def Increasing (items : List Item) : Prop := items.Pairwise fun first second => first.before second = true

theorem Increasing.insertItem (item : Item) : ∀ {items : List Item}, Increasing items →
    Increasing (insertItem item items)
  | [], _increasing => List.pairwise_singleton _ _
  | first :: rest, increasing => by
      obtain ⟨least, others⟩ := List.pairwise_cons.mp increasing
      unfold Lalr.insertItem
      by_cases same : item = first
      · rw [if_pos same]
        exact increasing
      · rw [if_neg same]
        by_cases after : first.before item = true
        · rw [if_pos after]
          apply List.pairwise_cons.mpr
          refine ⟨fun other member => ?_, Increasing.insertItem item others⟩
          rcases (mem_insertItem item other rest).mp member with rfl | old
          · exact after
          · exact least other old
        · rw [if_neg after]
          have ahead : item.before first = true := Item.before_of_not (fun equal => same equal.symm) after
          apply List.pairwise_cons.mpr
          refine ⟨fun other member => ?_, increasing⟩
          rcases List.mem_cons.mp member with rfl | old
          · exact ahead
          · exact Item.before_trans ahead (least other old)

theorem orderItems_increasing : ∀ items : List Item, Increasing (orderItems items)
  | [] => List.Pairwise.nil
  | item :: rest => (orderItems_increasing rest).insertItem item

theorem Increasing.nodup {items : List Item} (increasing : Increasing items) : items.Nodup := by
  apply increasing.imp
  rintro item _ before rfl
  exact Item.not_before_self item before

theorem Increasing.ext {first second : List Item} (one : Increasing first) (two : Increasing second)
    (same : ∀ item, item ∈ first ↔ item ∈ second) : first = second := by
  have antisymmetric : ∀ left right : Item, left ∈ first → right ∈ second → left.before right = true →
      right.before left = true → left = right := by
    intro left right _ _ before after
    exact absurd (Item.before_trans before after) (Item.not_before_self left)
  exact ((List.perm_ext_iff_of_nodup one.nodup two.nodup).mpr same).eq_of_pairwise antisymmetric one two

theorem increasing_of_successor {rules : Rules} {kernel target : List Item} {symbol : Symbol}
    (among : (symbol, target) ∈ successors rules kernel) : Increasing target := by
  obtain ⟨group, _, same⟩ := List.mem_map.mp among
  cases same
  exact orderItems_increasing _

theorem Automaton.Explored.kernel_increasing {rules : Rules} {done state : Nat} {automaton : Automaton}
    {kernel : List Item} (explored : automaton.Explored rules done)
    (found : automaton.kernels[state]? = some kernel) : Increasing kernel := by
  rcases explored.origin state kernel found with rfl | ⟨earlier, before, symbol, _, among⟩
  · exact List.pairwise_singleton _ _
  · exact increasing_of_successor among

theorem Automaton.Explored.kernel_inner {grammar : Grammar} {done state : Nat} {automaton : Automaton}
    {kernel : List Item} {seed : Item} (explored : automaton.Explored (.ofGrammar grammar) done)
    (found : automaton.kernels[state]? = some kernel) (member : seed ∈ kernel) (id : NonterminalId) :
    seed ∉ (Rules.ofGrammar grammar).startsOf id := by
  intro begins
  obtain ⟨dot, produced⟩ := mem_startsOf.mp begins
  obtain ⟨_, production, among, _⟩ := (Rules.mem_productionsOf grammar).mp produced
  obtain ⟨less, _⟩ := Array.getElem?_eq_some_iff.mp among
  rcases explored.origin state kernel found with rfl | ⟨_, _, symbol, _, reached⟩
  · unfold Automaton.startKernel at member
    rw [Rules.augmented_ofGrammar] at member
    cases List.mem_singleton.mp member
    exact absurd less (Nat.lt_irrefl _)
  · obtain ⟨before, _, _, rfl⟩ := (mem_successor reached _).mp member
    cases dot

namespace Placement

/-- The search by halves finds what lies between its bounds. -/
theorem placeBetween?_complete {kernel : List Item} (increasing : Increasing kernel) {item : Item} :
    ∀ (width low high slot : Nat), high - low ≤ width → low ≤ slot → slot < high → high ≤ kernel.length →
      kernel[slot]? = some item → ∃ found, placeBetween? kernel.toArray item low high = some found
  | width, low, high, slot, bound, above, below, inside, here => by
      have orders : ∀ {left right : Nat} {first second : Item}, left < right → kernel[left]? = some first →
          kernel[right]? = some second → first.before second = true := by
        intro left right first second less firstAt secondAt
        obtain ⟨leftLt, rfl⟩ := List.getElem?_eq_some_iff.mp firstAt
        obtain ⟨rightLt, rfl⟩ := List.getElem?_eq_some_iff.mp secondAt
        exact List.pairwise_iff_getElem.mp increasing left right leftLt rightLt less
      unfold placeBetween?
      rw [dif_pos (show low < high by omega)]
      dsimp only
      have middleLt : (low + high) / 2 < kernel.length := by omega
      rw [List.getElem?_toArray, List.getElem?_eq_getElem middleLt]
      have middleAt := List.getElem?_eq_getElem middleLt
      generalize kernel[(low + high) / 2] = middle at middleAt
      dsimp only
      by_cases same : middle = item
      · exact ⟨_, if_pos same⟩
      · rw [if_neg same]
        cases width with
        | zero => omega
        | succ width =>
            by_cases before : middle.before item = true
            · rw [if_pos before]
              have later : (low + high) / 2 + 1 ≤ slot := by
                rcases Nat.lt_trichotomy slot ((low + high) / 2) with less | equal | more
                · have order := Item.before_trans before (orders less here middleAt)
                  exact absurd order (Item.not_before_self _)
                · subst equal
                  exact absurd (Option.some.inj (middleAt.symm.trans here)) same
                · exact more
              exact placeBetween?_complete increasing width _ _ slot (by omega) later below inside here
            · rw [if_neg before]
              have earlier : slot < (low + high) / 2 := by
                rcases Nat.lt_trichotomy slot ((low + high) / 2) with less | equal | more
                · exact less
                · subst equal
                  exact absurd (Option.some.inj (middleAt.symm.trans here)) same
                · exact absurd (orders more middleAt here) before
              exact placeBetween?_complete increasing width _ _ slot (by omega) above earlier (by omega) here

theorem place_total {automaton : Automaton} {state : Nat} {kernel : List Item} {item : Item}
    (increasing : Increasing kernel) (found : automaton.kernels[state]? = some kernel)
    (member : item ∈ kernel) : ∃ place, (ofAutomaton automaton).place state item = .ok place := by
  obtain ⟨slot, slotLt, at_⟩ := List.mem_iff_getElem.mp member
  have here : kernel[slot]? = some item := by rw [List.getElem?_eq_getElem slotLt, at_]
  obtain ⟨answer, answered⟩ := placeBetween?_complete increasing _ 0 kernel.length slot (Nat.le_refl _)
    (Nat.zero_le _) slotLt (Nat.le_refl _) here
  refine ⟨(ofAutomaton automaton).base state + answer, ?_⟩
  have kernels : (ofAutomaton automaton).kernels[state]? = some kernel.toArray := by
    change (automaton.kernels.map (·.toArray))[state]? = _
    rw [Array.getElem?_map, found]
    rfl
  unfold place
  dsimp only
  rw [kernels, Option.getD_some, List.size_toArray, answered]

theorem Located.place_eq {automaton : Automaton} {rules : Rules} {place other state : Nat} {item : Item}
    {done : Nat} (explored : automaton.Explored rules done) (first : Located automaton place state item)
    (second : Located automaton other state item) : place = other := by
  obtain ⟨slot, kernel, found, at_, rfl⟩ := first
  obtain ⟨against, same, known, here, rfl⟩ := second
  cases found.symm.trans known
  have increasing := List.pairwise_iff_getElem.mp (explored.kernel_increasing found)
  obtain ⟨slotLt, slotAt⟩ := List.getElem?_eq_some_iff.mp at_
  obtain ⟨againstLt, againstAt⟩ := List.getElem?_eq_some_iff.mp here
  rcases Nat.lt_trichotomy slot against with less | equal | more
  · have order := increasing slot against slotLt againstLt less
    rw [slotAt, againstAt] at order
    exact absurd order (Item.not_before_self item)
  · rw [equal]
  · have order := increasing against slot againstLt slotLt more
    rw [slotAt, againstAt] at order
    exact absurd order (Item.not_before_self item)

end Placement

theorem Automaton.Explored.edges_distinct {rules : Rules} {automaton : Automaton} {state : Nat}
    {kernel : List Item} (explored : automaton.Explored rules automaton.kernels.size)
    (found : automaton.kernels[state]? = some kernel) : ((automaton.edgesOf state).map (·.1)).Nodup := by
  obtain ⟨inside, _⟩ := Array.getElem?_eq_some_iff.mp found
  rw [(explored.edges state kernel inside found).symbols]
  exact successors_distinct

theorem Automaton.Explored.edge_unique {rules : Rules} {automaton : Automaton} {state target other : Nat}
    {kernel : List Item} {symbol : Symbol} (explored : automaton.Explored rules automaton.kernels.size)
    (found : automaton.kernels[state]? = some kernel) (edge : (symbol, target) ∈ automaton.edgesOf state)
    (another : (symbol, other) ∈ automaton.edgesOf state) : target = other := by
  have distinct := explored.edges_distinct found
  exact Option.some.inj ((lookup_of_mem distinct edge).symm.trans (lookup_of_mem distinct another))

theorem Automaton.Explored.lookup_edge {rules : Rules} {automaton : Automaton} {state : Nat}
    {kernel : List Item} {item : Item} {symbol : Symbol}
    (explored : automaton.Explored rules automaton.kernels.size)
    (found : automaton.kernels[state]? = some kernel) (member : item ∈ closure rules kernel)
    (next : rules.nextSymbol item = some symbol) :
    ∃ target, (automaton.edgesOf state).lookup symbol = some target := by
  obtain ⟨inside, _⟩ := Array.getElem?_eq_some_iff.mp found
  obtain ⟨group, among⟩ := exists_successor member next
  have listed : symbol ∈ (automaton.edgesOf state).map (·.1) := by
    rw [(explored.edges state kernel inside found).symbols]
    exact List.mem_map.mpr ⟨_, among, rfl⟩
  obtain ⟨⟨same, target⟩, edge, rfl⟩ := List.mem_map.mp listed
  exact ⟨target, lookup_of_mem (explored.edges_distinct found) edge⟩

theorem Automaton.Explored.edge_kernel {rules : Rules} {automaton : Automaton} {state target : Nat}
    {kernel : List Item} {symbol : Symbol} (explored : automaton.Explored rules automaton.kernels.size)
    (found : automaton.kernels[state]? = some kernel) (edge : (symbol, target) ∈ automaton.edgesOf state) :
    ∃ next, automaton.kernels[target]? = some next ∧ (symbol, next) ∈ successors rules kernel := by
  obtain ⟨inside, _⟩ := Array.getElem?_eq_some_iff.mp found
  exact (explored.edges state kernel inside found).targets symbol target edge

/-! ### Distinct states -/

namespace Automaton

theorem number_distinct {before after : Automaton} {kernel : List Item} {target : Nat}
    (distinct : before.kernels.toList.Nodup) (numbered : before.number kernel = .ok (target, after)) :
    after.kernels.toList.Nodup := by
  unfold number at numbered
  split at numbered
  · cases numbered
    exact distinct
  · rename_i none
    dsimp only at numbered
    split at numbered
    · cases numbered
    · cases numbered
      have absent : kernel ∉ before.kernels.toList := by
        intro member
        have other := Array.findIdx?_eq_none_iff.mp none kernel (Array.mem_toList_iff.mp member)
        rw [beq_self_eq_true] at other
        cases other
      rw [Array.toList_push]
      exact (List.perm_append_singleton kernel _).symm.nodup (List.nodup_cons.mpr ⟨absent, distinct⟩)

theorem connect_distinct : ∀ (pairs : List (Symbol × List Item)) (edges : List (Symbol × Nat))
    (before after : Automaton), before.kernels.toList.Nodup → connect pairs edges before = .ok after →
    after.kernels.toList.Nodup
  | [], _, _, _, distinct, connected => by
      cases connected
      exact distinct
  | (_, _) :: rest, _, _, after, distinct, connected => by
      obtain ⟨⟨_, middle⟩, numbered, remaining⟩ := bind_ok.mp connected
      exact connect_distinct rest _ middle after (number_distinct distinct numbered) remaining

theorem explore_distinct {rules : Rules} : ∀ (rounds state : Nat) (before after : Automaton),
    before.kernels.toList.Nodup → explore rules rounds state before = .ok after → after.kernels.toList.Nodup
  | 0, _, _, _, distinct, done => by
      cases done
      exact distinct
  | rounds + 1, state, before, after, distinct, done => by
      unfold explore at done
      split at done
      · cases done
        exact distinct
      · obtain ⟨middle, connected, remaining⟩ := bind_ok.mp done
        exact explore_distinct rounds (state + 1) middle after
          (connect_distinct _ _ before middle distinct connected) remaining

theorem ofRules_distinct {rules : Rules} {automaton : Automaton} (made : ofRules rules = .ok automaton) :
    automaton.kernels.toList.Nodup :=
  explore_distinct _ 0 ⟨#[startKernel rules], #[]⟩ automaton (List.pairwise_singleton _ _) made

end Automaton

end IncrementalParsing.Lalr
