import IncrementalParsing.Proofs.Lalr.Closure
import Mathlib.Data.List.Basic

/-!
The states of the automaton. The kernel of a state holds what the closures of the states before it
advance to, and every state that is done has an edge for each symbol that stands behind a mark of its
closure. The first state is the only one whose kernel holds a beginning.
-/

namespace IncrementalParsing.Lalr

/-! ### Productions by number -/

namespace Rules

variable (grammar : Grammar)

@[simp] theorem rhs_size : (ofGrammar grammar).rhs.size = grammar.productions.size + 1 := by
  simp [ofGrammar]

@[simp] theorem augmented_ofGrammar : (ofGrammar grammar).augmented = grammar.productions.size := by
  simp [augmented]

theorem rhs_production {number : Nat} {production : Production}
    (found : grammar.productions[number]? = some production) :
    (ofGrammar grammar).rhs[number]? = some production.symbols.toArray := by
  obtain ⟨inside, _⟩ := Array.getElem?_eq_some_iff.mp found
  simp only [ofGrammar]
  rw [Array.getElem?_push_lt (by simpa using inside)]
  rw [Array.getElem?_eq_getElem inside] at found
  cases found
  simp

theorem rhs_augmented :
    (ofGrammar grammar).rhs[grammar.productions.size]? = some #[.nonterminal Grammar.start] := by
  have size : grammar.productions.size =
      (grammar.productions.map (fun production => production.symbols.toArray)).size := by simp
  simp only [ofGrammar]
  rw [size, Array.getElem?_push_size]

private theorem gathered_getElem? (count index : Nat) (inside : index < count) :
    ∀ entries : List (Production × Nat),
      (entries.foldr
        (fun (entry : Production × Nat) (lists : Array (List Nat)) =>
          lists.modify entry.1.lhs.index (entry.2 :: ·))
        (Array.replicate count []))[index]? =
      some ((entries.filter (fun entry => entry.1.lhs.index == index)).map (·.2))
  | [] => by simp [inside]
  | entry :: rest => by
      rw [List.foldr_cons, Array.getElem?_modify, gathered_getElem? count index inside rest,
        List.filter_cons]
      by_cases same : entry.1.lhs.index = index <;> simp [same]

private theorem gathered_size (count : Nat) : ∀ entries : List (Production × Nat),
    (entries.foldr
      (fun (entry : Production × Nat) (lists : Array (List Nat)) =>
        lists.modify entry.1.lhs.index (entry.2 :: ·))
      (Array.replicate count [])).size = count
  | [] => by simp
  | entry :: rest => by rw [List.foldr_cons, Array.size_modify, gathered_size count rest]

private theorem byLhs_eq :
    (ofGrammar grammar).byLhs =
      grammar.productions.zipIdx.toList.foldr
        (fun (entry : Production × Nat) (lists : Array (List Nat)) =>
          lists.modify entry.1.lhs.index (entry.2 :: ·))
        (Array.replicate grammar.nonterminalCount []) := by
  rw [Array.foldr_toList]
  rfl

@[simp] theorem byLhs_size : (ofGrammar grammar).byLhs.size = grammar.nonterminalCount := by
  rw [byLhs_eq]
  exact gathered_size _ _

theorem mem_productionsOf {id : NonterminalId} {number : Nat} :
    number ∈ (ofGrammar grammar).productionsOf id ↔
      id.index < grammar.nonterminalCount ∧
        ∃ production, grammar.productions[number]? = some production ∧ production.lhs = id := by
  unfold productionsOf
  rcases Nat.lt_or_ge id.index grammar.nonterminalCount with inside | outside
  · rw [byLhs_eq, gathered_getElem? _ _ inside, Option.getD_some]
    simp only [List.mem_map, List.mem_filter, beq_iff_eq, Prod.exists, Array.mem_toList_iff,
      Array.mk_mem_zipIdx_iff_getElem?, exists_eq_right, inside, true_and]
    constructor
    · rintro ⟨production, found, same⟩
      exact ⟨production, found, Visited.index_injective same⟩
    · rintro ⟨production, found, same⟩
      exact ⟨production, found, congrArg NonterminalId.index same⟩
  · rw [Array.getElem?_eq_none (by simpa using outside)]
    simp [Nat.not_lt_of_le outside]

theorem nextSymbol_production {number : Nat} {production : Production}
    (found : grammar.productions[number]? = some production) (dot : Nat) :
    (ofGrammar grammar).nextSymbol ⟨number, dot⟩ = production.symbols[dot]? := by
  simp only [nextSymbol, rhs_production grammar found, Option.getD_some]
  simp

theorem nextSymbol_augmented (dot : Nat) :
    (ofGrammar grammar).nextSymbol ⟨grammar.productions.size, dot⟩ =
      ([.nonterminal Grammar.start] : List Symbol)[dot]? := by
  simp only [nextSymbol, rhs_augmented, Option.getD_some]
  simp

/-- What right-hand sides are noted to begin with stands behind the marks at their beginnings. -/
theorem leadingIn_eq (id : NonterminalId) :
    (ofGrammar grammar).leadingIn id = seedsOf (ofGrammar grammar) ((ofGrammar grammar).startsOf id) := by
  have noted : (ofGrammar grammar).leadingIn id =
      ((ofGrammar grammar).productionsOf id).filterMap (fun number => leadingOf
        ((grammar.productions.map (fun production => production.symbols.toArray))[number]?.getD #[])) := by
    unfold leadingIn productionsOf
    rcases Nat.lt_or_ge id.index (ofGrammar grammar).byLhs.size with inside | outside
    · rw [Array.getElem?_eq_getElem inside, Option.getD_some]
      change ((ofGrammar grammar).byLhs.map _)[id.index]?.getD [] = _
      rw [Array.getElem?_map, Array.getElem?_eq_getElem inside]
      rfl
    · rw [Array.getElem?_eq_none outside, Array.getElem?_eq_none]
      · rfl
      · exact Nat.le_trans (Nat.le_of_eq (Array.size_map ..)) outside
  rw [noted]
  unfold seedsOf startsOf
  rw [List.filterMap_map]
  apply List.filterMap_congr
  intro number member
  obtain ⟨_, production, found, _⟩ := (mem_productionsOf grammar).mp member
  rw [Array.getElem?_map, found, Function.comp_apply, nextSymbol_production grammar found]
  rcases begins : production.symbols[0]? with _ | (_ | _) <;> simp [leadingOf, begins]

theorem ofGrammar_consistent : (ofGrammar grammar).Consistent := by
  intro id next
  rw [leadingIn_eq, mem_seedsOf]
  constructor
  · rintro ⟨item, starts, begins⟩
    obtain ⟨dot, among⟩ := mem_startsOf.mp starts
    exact ⟨item.production, among, dot ▸ begins⟩
  · rintro ⟨number, among, begins⟩
    exact ⟨⟨number, 0⟩, mem_startsOf.mpr ⟨rfl, among⟩, begins⟩

end Rules

/-! ### What a closure advances to -/

theorem mem_insertItem (item other : Item) : ∀ items : List Item,
    other ∈ insertItem item items ↔ other = item ∨ other ∈ items
  | [] => by simp [insertItem]
  | first :: rest => by
      unfold insertItem
      split
      · rename_i same
        subst same
        simp
      · split
        · rw [List.mem_cons, mem_insertItem item other rest, List.mem_cons]
          exact or_left_comm
        · rw [List.mem_cons]

theorem mem_orderItems (other : Item) : ∀ items : List Item,
    other ∈ orderItems items ↔ other ∈ items
  | [] => Iff.rfl
  | first :: rest => by
      change other ∈ insertItem first (orderItems rest) ↔ _
      rw [mem_insertItem, mem_orderItems other rest, List.mem_cons]

theorem Groups.lookup_add (symbol : Symbol) (item : Item) (wanted : Symbol) :
    ∀ groups : Groups, (groups.add symbol item).lookup wanted =
      if wanted = symbol then some (item :: (groups.lookup symbol).getD [])
      else groups.lookup wanted
  | [] => by
      by_cases same : wanted = symbol
      · simp [Groups.add, same]
      · have away : (wanted == symbol) = false := by simpa using same
        simp [Groups.add, List.lookup_cons, same, away]
  | (other, items) :: rest => by
      unfold Groups.add
      by_cases here : other = symbol
      · subst here
        by_cases same : wanted = other
        · simp [same]
        · have away : (wanted == other) = false := by simpa using same
          simp [List.lookup_cons, same, away]
      · rw [if_neg here]
        by_cases same : wanted = symbol
        · subst same
          have away : (wanted == other) = false := by simpa using fun equal => here equal.symm
          rw [List.lookup_cons, List.lookup_cons, away, if_pos rfl]
          simpa using Groups.lookup_add wanted item wanted rest
        · rw [if_neg same, List.lookup_cons, List.lookup_cons]
          split
          · rfl
          · have inner := Groups.lookup_add symbol item wanted rest
            rwa [if_neg same] at inner

theorem Groups.mem_keys_add (symbol : Symbol) (item : Item) (wanted : Symbol) :
    ∀ groups : Groups, wanted ∈ (groups.add symbol item).map (·.1) →
      wanted = symbol ∨ wanted ∈ groups.map (·.1)
  | [], member => by simpa [Groups.add] using member
  | (other, items) :: rest, member => by
      unfold Groups.add at member
      split at member
      · exact Or.inr member
      · rw [List.map_cons, List.mem_cons] at member
        rcases member with here | later
        · exact Or.inr (here ▸ List.mem_cons_self)
        · rcases Groups.mem_keys_add symbol item wanted rest later with same | before
          · exact Or.inl same
          · exact Or.inr (List.mem_cons_of_mem _ before)

theorem Groups.nodup_add (symbol : Symbol) (item : Item) : ∀ groups : Groups,
    (groups.map (·.1)).Nodup → ((groups.add symbol item).map (·.1)).Nodup
  | [], _distinct => by simp [Groups.add]
  | (other, items) :: rest, distinct => by
      unfold Groups.add
      rw [List.map_cons, List.nodup_cons] at distinct
      split
      · exact List.nodup_cons.mpr distinct
      · rename_i away
        rw [List.map_cons, List.nodup_cons]
        refine ⟨?_, Groups.nodup_add symbol item rest distinct.2⟩
        intro member
        rcases Groups.mem_keys_add symbol item other rest member with same | before
        · exact away same
        · exact distinct.1 before

structure Gathered (rules : Rules) (items : List Item) (groups : Groups) : Prop where
  distinct : (groups.map (·.1)).Nodup
  nonempty : ∀ symbol group, groups.lookup symbol = some group → group ≠ []
  mem_iff : ∀ symbol item, item ∈ (groups.lookup symbol).getD [] ↔
    ∃ before, before ∈ items ∧ rules.nextSymbol before = some symbol ∧ item = before.advance

private theorem gathered_fold (rules : Rules) : ∀ (items earlier : List Item) (groups : Groups),
    Gathered rules earlier groups →
    Gathered rules (earlier ++ items) (items.foldl
      (fun groups item =>
        match rules.nextSymbol item with
        | some symbol => groups.add symbol item.advance
        | none => groups) groups)
  | [], earlier, groups, gathered => by simpa using gathered
  | item :: rest, earlier, groups, gathered => by
      rw [List.append_cons, List.foldl_cons]
      apply gathered_fold rules rest
      cases next : rules.nextSymbol item with
      | none =>
          refine ⟨gathered.distinct, gathered.nonempty, fun symbol other => ?_⟩
          rw [gathered.mem_iff]
          simp [next, or_and_right, exists_or]
      | some symbol =>
          refine ⟨Groups.nodup_add symbol _ groups gathered.distinct, ?_, ?_⟩
          · intro wanted group found
            rw [Groups.lookup_add] at found
            split at found
            · cases found
              exact List.cons_ne_nil _ _
            · exact gathered.nonempty wanted group found
          · intro wanted other
            rw [Groups.lookup_add]
            by_cases same : wanted = symbol
            · subst same
              rw [if_pos rfl, Option.getD_some, List.mem_cons, gathered.mem_iff]
              simp [next, or_and_right, exists_or, or_comm]
            · have away : symbol ≠ wanted := fun equal => same equal.symm
              rw [if_neg same, gathered.mem_iff]
              simp [next, away, or_and_right, exists_or]

theorem advances_gathered (rules : Rules) (items : List Item) :
    Gathered rules items (advances rules items) := by
  have blank : Gathered rules [] [] := ⟨by simp, by simp, by simp⟩
  have folded := gathered_fold rules items [] [] blank
  rwa [List.nil_append] at folded

theorem lookup_of_mem {α β : Type} [BEq α] [LawfulBEq α] {key : α} {value : β} :
    ∀ {pairs : List (α × β)}, (pairs.map (·.1)).Nodup → (key, value) ∈ pairs →
      pairs.lookup key = some value
  | [], _distinct, member => by cases member
  | (other, found) :: rest, distinct, member => by
      rw [List.map_cons, List.nodup_cons] at distinct
      rcases List.mem_cons.mp member with here | later
      · cases here
        simp
      · have away : (key == other) = false := by
          rw [beq_eq_false_iff_ne]
          intro same
          exact distinct.1 (same ▸ List.mem_map.mpr ⟨(key, value), later, rfl⟩)
        rw [List.lookup_cons, away]
        exact lookup_of_mem distinct.2 later

theorem mem_of_lookup {α β : Type} [BEq α] [LawfulBEq α] {key : α} {value : β} :
    ∀ {pairs : List (α × β)}, pairs.lookup key = some value → (key, value) ∈ pairs
  | [], found => by cases found
  | (other, here) :: rest, found => by
      rw [List.lookup_cons] at found
      split at found
      · rename_i same
        rw [beq_iff_eq] at same
        cases found
        exact same ▸ List.mem_cons_self
      · exact List.mem_cons_of_mem _ (mem_of_lookup found)

section Successors

variable {rules : Rules} {kernel : List Item}

theorem successors_distinct : ((successors rules kernel).map (·.1)).Nodup := by
  unfold successors
  rw [List.map_map]
  exact (advances_gathered rules (closure rules kernel)).distinct

theorem mem_successor {symbol : Symbol} {target : List Item}
    (member : (symbol, target) ∈ successors rules kernel) (item : Item) :
    item ∈ target ↔
      ∃ before, before ∈ closure rules kernel ∧ rules.nextSymbol before = some symbol ∧
        item = before.advance := by
  obtain ⟨⟨other, group⟩, among, same⟩ := List.mem_map.mp member
  cases same
  have gathered := advances_gathered rules (closure rules kernel)
  rw [mem_orderItems, ← gathered.mem_iff, lookup_of_mem gathered.distinct among, Option.getD_some]

theorem exists_successor {symbol : Symbol} {item : Item} (member : item ∈ closure rules kernel)
    (next : rules.nextSymbol item = some symbol) :
    ∃ target, (symbol, target) ∈ successors rules kernel := by
  have gathered := advances_gathered rules (closure rules kernel)
  have present := (gathered.mem_iff symbol item.advance).mpr ⟨item, member, next, rfl⟩
  cases found : (advances rules (closure rules kernel)).lookup symbol with
  | none =>
      rw [found] at present
      cases present
  | some group => exact ⟨orderItems group, List.mem_map.mpr ⟨_, mem_of_lookup found, rfl⟩⟩

theorem successor_begun {symbol : Symbol} {target : List Item}
    (member : (symbol, target) ∈ successors rules kernel) :
    ∃ item, item ∈ closure rules kernel ∧ rules.nextSymbol item = some symbol := by
  obtain ⟨⟨other, group⟩, among, same⟩ := List.mem_map.mp member
  cases same
  have gathered := advances_gathered rules (closure rules kernel)
  have found := lookup_of_mem gathered.distinct among
  obtain ⟨item, inside⟩ := List.exists_mem_of_ne_nil group (gathered.nonempty _ _ found)
  have present := gathered.mem_iff other item
  rw [found, Option.getD_some] at present
  obtain ⟨before, closed, next, _⟩ := present.mp inside
  exact ⟨before, closed, next⟩

end Successors

/-! ### Numbered states -/

namespace Automaton

/-- States keep their numbers while others are added. -/
def Extends (before after : Automaton) : Prop :=
  ∀ (state : Nat) (kernel : List Item), before.kernels[state]? = some kernel →
    after.kernels[state]? = some kernel

theorem Extends.refl (automaton : Automaton) : automaton.Extends automaton :=
  fun _ _ found => found

theorem Extends.trans {first second third : Automaton} (before : first.Extends second)
    (after : second.Extends third) : first.Extends third :=
  fun state kernel found => after state kernel (before state kernel found)

structure Numbers (before : Automaton) (kernel : List Item) (target : Nat) (after : Automaton) :
    Prop where
  grown : before.Extends after
  found : after.kernels[target]? = some kernel
  fresh : ∀ (state : Nat) (other : List Item), after.kernels[state]? = some other →
    before.kernels[state]? = some other ∨ other = kernel
  edges : after.edges = before.edges
  fits : before.kernels.size ≤ stateLimit → after.kernels.size ≤ stateLimit

theorem number_ok {before after : Automaton} {kernel : List Item} {target : Nat}
    (numbered : before.number kernel = .ok (target, after)) : Numbers before kernel target after := by
  unfold number at numbered
  split at numbered
  · rename_i state known
    cases numbered
    obtain ⟨inside, same, _⟩ := Array.findIdx?_eq_some_iff_getElem.mp known
    refine ⟨.refl _, ?_, fun _ _ => Or.inl, rfl, id⟩
    rw [Array.getElem?_eq_getElem inside, eq_of_beq same]
  · dsimp only at numbered
    split at numbered
    · cases numbered
    · rename_i room
      cases numbered
      refine ⟨fun state kernel found => ?_, by simp, fun state other found => ?_, rfl, fun _ => ?_⟩
      · obtain ⟨inside, _⟩ := Array.getElem?_eq_some_iff.mp found
        exact (Array.getElem?_push_lt inside).trans (Array.getElem?_eq_getElem inside ▸ found)
      · rw [Array.getElem?_push] at found
        split at found
        · exact Or.inr (Option.some.inj found).symm
        · exact Or.inl found
      · rw [Array.size_push]
        omega

/-- The edges of a state with some kernel lead to the states of its successors. -/
structure Connected (automaton : Automaton) (pairs : List (Symbol × List Item))
    (edges : List (Symbol × Nat)) : Prop where
  symbols : edges.map (·.1) = pairs.map (·.1)
  targets : ∀ symbol target, (symbol, target) ∈ edges →
    ∃ kernel, automaton.kernels[target]? = some kernel ∧ (symbol, kernel) ∈ pairs

theorem Connected.grow {before after : Automaton} {pairs : List (Symbol × List Item)}
    {edges : List (Symbol × Nat)} (grown : before.Extends after)
    (connected : before.Connected pairs edges) : after.Connected pairs edges where
  symbols := connected.symbols
  targets symbol target member := by
    obtain ⟨kernel, found, among⟩ := connected.targets symbol target member
    exact ⟨kernel, grown target kernel found, among⟩

theorem connect_ok : ∀ (pairs earlier : List (Symbol × List Item)) (edges : List (Symbol × Nat))
    (before after : Automaton), before.Connected earlier edges.reverse →
    connect pairs edges before = .ok after →
    before.Extends after ∧ (before.kernels.size ≤ stateLimit → after.kernels.size ≤ stateLimit) ∧
      (∀ (state : Nat) (kernel : List Item), after.kernels[state]? = some kernel →
        before.kernels[state]? = some kernel ∨ ∃ symbol, (symbol, kernel) ∈ pairs) ∧
      ∃ all, after.edges = before.edges.push all ∧ after.Connected (earlier ++ pairs) all
  | [], earlier, edges, before, after, connected, done => by
      unfold connect at done
      cases done
      rw [List.append_nil]
      exact ⟨fun _ _ found => found, id, fun _ _ => Or.inl, edges.reverse, rfl, connected.symbols,
        connected.targets⟩
  | (symbol, kernel) :: rest, earlier, edges, before, after, connected, done => by
      unfold connect at done
      obtain ⟨⟨target, middle⟩, numbered, remaining⟩ := bind_ok.mp done
      have one := number_ok numbered
      have further : middle.Connected (earlier ++ [(symbol, kernel)])
          ((symbol, target) :: edges).reverse := by
        have before := connected.grow one.grown
        constructor
        · simp [before.symbols]
        · intro other place member
          rw [List.reverse_cons, List.mem_append, List.mem_singleton] at member
          rcases member with known | fresh
          · obtain ⟨found, at_, among⟩ := before.targets other place known
            exact ⟨found, at_, List.mem_append_left _ among⟩
          · cases fresh
            exact ⟨kernel, one.found, List.mem_append_right _ List.mem_cons_self⟩
      obtain ⟨grown, fits, fresh, all, edgesEq, complete⟩ :=
        connect_ok rest _ _ middle after further remaining
      refine ⟨one.grown.trans grown, fits ∘ one.fits, fun state other found => ?_, all, ?_, ?_⟩
      · rcases fresh state other found with known | ⟨later, among⟩
        · rcases one.fresh state other known with old | same
          · exact Or.inl old
          · exact Or.inr ⟨symbol, same ▸ List.mem_cons_self⟩
        · exact Or.inr ⟨later, List.mem_cons_of_mem _ among⟩
      · rw [edgesEq, one.edges]
      · rwa [List.append_assoc] at complete

theorem connect_reaches : ∀ (pairs : List (Symbol × List Item)) (edges : List (Symbol × Nat))
    (before after : Automaton), connect pairs edges before = .ok after →
    ∃ all, after.edges = before.edges.push all ∧ (∀ edge, edge ∈ edges → edge ∈ all) ∧
      ∀ state, before.kernels.size ≤ state → state < after.kernels.size → ∃ symbol, (symbol, state) ∈ all
  | [], edges, before, after, done => by
      unfold connect at done
      cases done
      refine ⟨edges.reverse, rfl, fun edge member => List.mem_reverse.mpr member, fun state above below => ?_⟩
      exact absurd below (Nat.not_lt_of_le above)
  | (symbol, kernel) :: rest, edges, before, after, done => by
      unfold connect at done
      obtain ⟨⟨target, middle⟩, numbered, remaining⟩ := bind_ok.mp done
      obtain ⟨all, edgesEq, kept, later⟩ := connect_reaches rest _ middle after remaining
      refine ⟨all, by rw [edgesEq, (number_ok numbered).edges],
        fun edge member => kept edge (List.mem_cons_of_mem _ member), fun state above below => ?_⟩
      rcases Nat.lt_or_ge state middle.kernels.size with fresh | old
      · have here := kept _ List.mem_cons_self
        unfold number at numbered
        split at numbered
        · cases numbered
          exact absurd fresh (Nat.not_lt_of_le above)
        · dsimp only at numbered
          split at numbered
          · cases numbered
          · cases numbered
            rw [Array.size_push] at fresh
            have same : state = before.kernels.size := by omega
            exact ⟨symbol, same ▸ here⟩
      · exact later state old below

structure Explored (rules : Rules) (done : Nat) (automaton : Automaton) : Prop where
  first : automaton.kernels[0]? = some (startKernel rules)
  size_le : automaton.kernels.size ≤ stateLimit
  done_le : done ≤ automaton.kernels.size
  edges_size : automaton.edges.size = done
  edges : ∀ (state : Nat) (kernel : List Item), state < done →
    automaton.kernels[state]? = some kernel →
    automaton.Connected (successors rules kernel) (automaton.edgesOf state)
  origin : ∀ (state : Nat) (kernel : List Item), automaton.kernels[state]? = some kernel →
    kernel = startKernel rules ∨ ∃ (earlier : Nat) (before : List Item) (symbol : Symbol),
      automaton.kernels[earlier]? = some before ∧ (symbol, kernel) ∈ successors rules before
  reached : ∀ state, 0 < state → state < automaton.kernels.size →
    ∃ earlier symbol, earlier < state ∧ (symbol, state) ∈ automaton.edgesOf earlier

theorem Explored.step {rules : Rules} {done : Nat} {before after : Automaton} {kernel : List Item}
    (explored : before.Explored rules done) (found : before.kernels[done]? = some kernel)
    (connected : connect (successors rules kernel) [] before = .ok after) :
    after.Explored rules (done + 1) := by
  obtain ⟨grown, fits, fresh, all, edgesEq, complete⟩ :=
    connect_ok _ [] [] before after ⟨rfl, fun _ _ member => by cases member⟩ connected
  have size := explored.edges_size
  obtain ⟨inside, _⟩ := Array.getElem?_eq_some_iff.mp (grown _ _ found)
  refine ⟨grown _ _ explored.first, fits explored.size_le, inside,
    by rw [edgesEq, Array.size_push, size], ?_, ?_, ?_⟩
  · intro state other earlierOr at_
    unfold edgesOf
    rcases Nat.lt_or_ge state done with earlier | here
    · rw [edgesEq, Array.getElem?_push_lt (by omega), ← Array.getElem?_eq_getElem]
      have known : before.kernels[state]? = some other := by
        obtain ⟨inside, _⟩ := Array.getElem?_eq_some_iff.mp found
        have present := Array.getElem?_eq_getElem (Nat.lt_trans earlier inside)
        rw [present]
        exact (grown _ _ present).symm.trans at_
      exact (explored.edges state other earlier known).grow grown
    · have same : state = done := by omega
      subst same
      cases (grown _ _ found).symm.trans at_
      rw [edgesEq, ← size, Array.getElem?_push_size, Option.getD_some]
      exact complete
  · intro state other present
    rcases fresh state other present with old | ⟨symbol, among⟩
    · rcases explored.origin state other old with start | ⟨earlier, previous, symbol, at_, among⟩
      · exact Or.inl start
      · exact Or.inr ⟨earlier, previous, symbol, grown _ _ at_, among⟩
    · exact Or.inr ⟨done, kernel, symbol, grown _ _ found, among⟩
  · obtain ⟨others, othersEq, _, targets⟩ := connect_reaches _ [] before after connected
    intro state positive below
    rcases Nat.lt_or_ge state before.kernels.size with old | fresh
    · obtain ⟨earlier, symbol, less, edge⟩ := explored.reached state positive old
      refine ⟨earlier, symbol, less, ?_⟩
      have inside : earlier < before.edges.size := by
        rcases Nat.lt_or_ge earlier before.edges.size with inside | outside
        · exact inside
        · unfold edgesOf at edge
          rw [Array.getElem?_eq_none outside] at edge
          cases edge
      unfold edgesOf at edge ⊢
      rwa [othersEq, Array.getElem?_push_lt inside, ← Array.getElem?_eq_getElem]
    · obtain ⟨symbol, edge⟩ := targets state fresh below
      obtain ⟨known, _⟩ := Array.getElem?_eq_some_iff.mp found
      refine ⟨done, symbol, by omega, ?_⟩
      unfold edgesOf
      rwa [othersEq, ← size, Array.getElem?_push_size, Option.getD_some]

theorem explore_ok {rules : Rules} : ∀ (rounds state : Nat) (before after : Automaton),
    rounds + state = stateLimit + 1 → before.Explored rules state →
    explore rules rounds state before = .ok after → after.Explored rules after.kernels.size
  | 0, state, before, after, budget, explored, done => by
      have overfull := Nat.le_trans explored.done_le explored.size_le
      omega
  | rounds + 1, state, before, after, budget, explored, done => by
      unfold explore at done
      split at done
      · rename_i none
        cases done
        have covers := Array.getElem?_eq_none_iff.mp none
        have all : state = before.kernels.size := Nat.le_antisymm explored.done_le covers
        exact all ▸ explored
      · rename_i kernel found
        obtain ⟨middle, connected, remaining⟩ := bind_ok.mp done
        exact explore_ok rounds (state + 1) middle after (by omega) (explored.step found connected)
          remaining

theorem ofRules_explored {rules : Rules} {automaton : Automaton}
    (made : ofRules rules = .ok automaton) : automaton.Explored rules automaton.kernels.size := by
  refine explore_ok _ 0 _ automaton rfl ?_ made
  refine ⟨rfl, ?_, Nat.zero_le _, rfl, fun state kernel impossible => ?_, fun state kernel only => ?_,
    fun state positive only => ?_⟩
  · simp [stateLimit]
  · exact absurd impossible (Nat.not_lt_zero state)
  · obtain ⟨inside, same⟩ := Array.getElem?_eq_some_iff.mp only
    have zero : state = 0 := by simpa using inside
    subst zero
    exact Or.inl same.symm
  · have single : state < 1 := only
    omega

end Automaton

end IncrementalParsing.Lalr
