import IncrementalParsing.Proofs.Lalr.Chart

/-!
Closures item by item. The items of a closure are gone through in order, and the first item before a
nonterminal appends the beginnings of its productions. The list is the one that the walk over nonterminals
gives: whichever items have been gone through, the list consists of the kernel and of the beginnings of the
nonterminals met so far, and the beginnings of one nonterminal meet what its productions begin with.
-/

namespace IncrementalParsing.Lalr

namespace Guarded

/-- Goes through a list of items from the one at `index` on, and appends the beginnings of every nonterminal
that is not marked as expanded. -/
def expandFrom (rules : Rules) : Nat → Nat → List Item → Array Bool → Except Fault (List Item)
  | 0, _, _, _ => .error .outOfFuel
  | rounds + 1, index, items, expanded =>
      match items[index]? with
      | none => return items
      | some item =>
          match rules.nextSymbol item with
          | some (.nonterminal id) => do
              if ← requireAt expanded id.index then expandFrom rules rounds (index + 1) items expanded
              else
                expandFrom rules rounds (index + 1) (items ++ rules.startsOf id)
                  (expanded.setIfInBounds id.index true)
          | _ => expandFrom rules rounds (index + 1) items expanded

def kernelClosure (rules : Rules) (kernel : List Item) : Except Fault (List Item) :=
  expandFrom rules (kernel.length + rules.byLhs.size * sumOf (rules.byLhs.toList.map List.length) + 1) 0 kernel
    (Array.replicate rules.byLhs.size false)

end Guarded

/-- Nonterminals stand behind marks only if they have a place among the left-hand sides. -/
def Rules.Declared (rules : Rules) : Prop :=
  ∀ item id, rules.nextSymbol item = some (.nonterminal id) → id.index < rules.byLhs.size

def listed (rules : Rules) (kernel : List Item) (visited : Visited) : List Item :=
  kernel ++ visited.order.toList.flatMap rules.startsOf

def followed (rules : Rules) (kernel : List Item) (visited : Visited) (index : Nat) : List Item :=
  kernel ++ (visited.order.toList.take index).flatMap rules.startsOf

namespace Visited

variable {rules : Rules} {kernel : List Item}

theorem exists_order_visits : ∀ (ids : List NonterminalId) (visited : Visited),
    ∃ more, (ids.foldl visit visited).order.toList = visited.order.toList ++ more
  | [], _ => ⟨[], (List.append_nil _).symm⟩
  | id :: rest, visited => by
      obtain ⟨more, later⟩ := exists_order_visits rest (visited.visit id)
      have here : ∃ fresh, (visited.visit id).order.toList = visited.order.toList ++ fresh := by
        unfold visit
        split
        · exact ⟨[], (List.append_nil _).symm⟩
        · exact ⟨[id], Array.toList_push⟩
      obtain ⟨fresh, first⟩ := here
      exact ⟨fresh ++ more, by rw [List.foldl_cons, later, first, List.append_assoc]⟩

theorem exists_order_follow (rules : Rules) : ∀ (rounds index : Nat) (visited : Visited),
    ∃ more, (follow rules rounds index visited).order.toList = visited.order.toList ++ more
  | 0, _, _ => ⟨[], (List.append_nil _).symm⟩
  | rounds + 1, index, visited => by
      unfold follow
      split
      · exact ⟨[], (List.append_nil _).symm⟩
      · rename_i id _
        obtain ⟨fresh, first⟩ := exists_order_visits (rules.leadingIn id) visited
        obtain ⟨more, later⟩ := exists_order_follow rules rounds (index + 1) ((rules.leadingIn id).foldl visit visited)
        exact ⟨fresh ++ more, by rw [later, first, List.append_assoc]⟩

theorem listed_grown {visited after : Visited} {more : List NonterminalId}
    (grown : after.order.toList = visited.order.toList ++ more) :
    listed rules kernel after = listed rules kernel visited ++ more.flatMap rules.startsOf := by
  unfold listed
  rw [grown, List.flatMap_append, List.append_assoc]

end Visited

section Walk

open Visited Guarded

variable {rules : Rules} {kernel : List Item} (declared : rules.Declared)

include declared

theorem expandFrom_step {visited : Visited} (sound : visited.Sound rules.byLhs.size) {index : Nat} {item : Item}
    (found : (listed rules kernel visited)[index]? = some item) (rounds : Nat) :
    expandFrom rules (rounds + 1) index (listed rules kernel visited) visited.seen =
      expandFrom rules rounds (index + 1)
        (listed rules kernel ((seedsOf rules [item]).foldl visit visited))
        ((seedsOf rules [item]).foldl visit visited).seen := by
  have other : (∀ id, rules.nextSymbol item ≠ some (.nonterminal id)) → seedsOf rules [item] = [] := by
    intro none
    apply List.eq_nil_iff_forall_not_mem.mpr
    intro id member
    obtain ⟨same, among, next⟩ := mem_seedsOf.mp member
    cases List.mem_singleton.mp among
    exact none id next
  conv => lhs; unfold expandFrom
  rw [found]
  dsimp only
  split
  · rename_i id next
    have inside := declared item id next
    have seeds : seedsOf rules [item] = [id] := by
      unfold seedsOf
      rw [List.filterMap_cons, next]
      rfl
    rw [← sound.size] at inside
    rw [seeds, List.foldl_cons, List.foldl_nil, requireAt_of_lt _ _ inside, ok_bind]
    unfold visit
    rw [Array.getElem?_eq_getElem inside, Option.getD_some]
    cases visited.seen[id.index] with
    | true => rfl
    | false =>
        have grown : (visited.order.push id).toList = visited.order.toList ++ [id] := Array.toList_push
        have longer : listed rules kernel ⟨visited.order.push id, visited.seen.setIfInBounds id.index true⟩ =
            listed rules kernel visited ++ [id].flatMap rules.startsOf := listed_grown grown
        rw [if_neg Bool.false_ne_true, if_neg Bool.false_ne_true, longer, List.flatMap_singleton]
  · rename_i none
    rw [other none]
    rfl

theorem expandFrom_block (rounds : Nat) : ∀ (block ahead behind : List Item) (visited : Visited),
    visited.Sound rules.byLhs.size → listed rules kernel visited = ahead ++ block ++ behind →
    expandFrom rules (block.length + rounds) ahead.length (listed rules kernel visited) visited.seen =
      expandFrom rules rounds (ahead.length + block.length)
        (listed rules kernel ((seedsOf rules block).foldl visit visited))
        ((seedsOf rules block).foldl visit visited).seen
  | [], ahead, behind, visited, _, _ => by
      rw [List.length_nil, Nat.zero_add, Nat.add_zero]
      rfl
  | item :: rest, ahead, behind, visited, sound, parts => by
      have found : (listed rules kernel visited)[ahead.length]? = some item := by
        rw [parts, List.append_assoc, List.getElem?_append_right (Nat.le_refl _), Nat.sub_self]
        rfl
      have seeds : seedsOf rules (item :: rest) = seedsOf rules [item] ++ seedsOf rules rest :=
        List.filterMap_append (l := [item])
      obtain ⟨more, grown⟩ := exists_order_visits (seedsOf rules [item]) visited
      have later := expandFrom_block rounds rest (ahead ++ [item]) (behind ++ more.flatMap rules.startsOf)
        ((seedsOf rules [item]).foldl visit visited) (sound.visits _) (by
          rw [listed_grown grown, parts]
          simp only [List.append_assoc, List.cons_append, List.nil_append])
      rw [List.length_append, List.length_singleton] at later
      rw [List.length_cons, show rest.length + 1 + rounds = rest.length + rounds + 1 by omega,
        expandFrom_step declared sound found, later, seeds, List.foldl_append]
      congr 1
      omega

omit declared in
theorem listed_at (kernel : List Item) {visited : Visited} {index : Nat} {id : NonterminalId}
    (found : (visited.order[index]? : Option NonterminalId) = some id) :
    listed rules kernel visited = followed rules kernel visited index ++ rules.startsOf id ++
      (visited.order.toList.drop (index + 1)).flatMap rules.startsOf := by
  obtain ⟨inside, same⟩ := Array.getElem?_eq_some_iff.mp found
  have cut := List.drop_eq_getElem_cons (l := visited.order.toList) (i := index) (by rwa [Array.length_toList])
  rw [Array.getElem_toList, same] at cut
  unfold listed followed
  conv => lhs; rw [← List.take_append_drop index visited.order.toList, cut]
  rw [List.flatMap_append, List.flatMap_cons]
  simp only [List.append_assoc]

omit declared in
theorem followed_succ {visited after : Visited} {index : Nat} {id : NonterminalId} {fresh : List NonterminalId}
    (found : (visited.order[index]? : Option NonterminalId) = some id)
    (grown : after.order.toList = visited.order.toList ++ fresh) :
    followed rules kernel after (index + 1) = followed rules kernel visited index ++ rules.startsOf id := by
  obtain ⟨inside, _⟩ := Array.getElem?_eq_some_iff.mp found
  have short : index + 1 ≤ visited.order.toList.length := by
    rw [Array.length_toList]
    exact inside
  have next : visited.order.toList.take (index + 1) = visited.order.toList.take index ++ [id] := by
    rw [List.take_add_one, Array.getElem?_toList, found]
    rfl
  unfold followed
  rw [grown, List.take_append_of_le_length short, next, List.flatMap_append, List.flatMap_singleton,
    ← List.append_assoc]

omit declared in
theorem expandFrom_end {visited : Visited} {index fuel : Nat} (covers : visited.order.size ≤ index)
    (enough : (listed rules kernel visited).length < fuel + (followed rules kernel visited index).length) :
    expandFrom rules fuel (followed rules kernel visited index).length (listed rules kernel visited) visited.seen =
      .ok (listed rules kernel visited) := by
  have all : followed rules kernel visited index = listed rules kernel visited := by
    unfold followed listed
    rw [List.take_of_length_le (by rwa [Array.length_toList])]
  rw [all] at enough ⊢
  cases fuel with
  | zero => omega
  | succ fuel =>
      unfold expandFrom
      rw [List.getElem?_eq_none (Nat.le_refl _)]
      rfl

/-- Behind the beginnings of the nonterminals that have been followed, the list ends as the walk over
nonterminals does. -/
theorem expandFrom_follow (leading : ∀ id, rules.leadingIn id = seedsOf rules (rules.startsOf id))
    (kernel : List Item) :
    ∀ (rounds index fuel : Nat) (visited : Visited), rounds + index = rules.byLhs.size →
      visited.Sound rules.byLhs.size →
      (listed rules kernel (follow rules rounds index visited)).length <
        fuel + (followed rules kernel visited index).length →
      expandFrom rules fuel (followed rules kernel visited index).length (listed rules kernel visited)
        visited.seen = .ok (listed rules kernel (follow rules rounds index visited)) := by
  intro rounds
  induction rounds with
  | zero =>
      intro index fuel visited budget sound enough
      have bound := sound.order_size_le
      exact expandFrom_end (by omega) enough
  | succ rounds ih =>
      intro index fuel visited budget sound enough
      unfold follow at enough ⊢
      cases found : (visited.order[index]? : Option NonterminalId) with
      | none =>
          rw [found] at enough
          exact expandFrom_end (Array.getElem?_eq_none_iff.mp found) enough
      | some id =>
          rw [found] at enough
          dsimp only at enough ⊢
          have whole : listed rules kernel visited = _ := listed_at kernel found
          obtain ⟨fresh, first⟩ := exists_order_visits (rules.leadingIn id) visited
          obtain ⟨more, later⟩ := exists_order_follow rules rounds (index + 1)
            ((rules.leadingIn id).foldl visit visited)
          have longer : (listed rules kernel visited).length ≤
              (listed rules kernel (follow rules rounds (index + 1)
                ((rules.leadingIn id).foldl visit visited))).length := by
            rw [listed_grown later, listed_grown first, List.length_append, List.length_append]
            omega
          have walked : (followed rules kernel ((rules.leadingIn id).foldl visit visited) (index + 1)).length =
              (followed rules kernel visited index).length + (rules.startsOf id).length := by
            rw [followed_succ found first, List.length_append]
          have room : (rules.startsOf id).length ≤ fuel := by
            have length := congrArg List.length whole
            rw [List.length_append, List.length_append] at length
            omega
          have block := expandFrom_block declared (fuel - (rules.startsOf id).length) (rules.startsOf id) _ _
            visited sound whole
          rw [Nat.add_sub_cancel' room, ← leading, ← walked] at block
          rw [block]
          exact ih (index + 1) _ _ (by omega) (sound.visits _) (by omega)

omit declared in
/-- A nonterminal has no more productions than there are entries in the table of left-hand sides. -/
theorem length_startsOf_le (rules : Rules) (id : NonterminalId) :
    (rules.startsOf id).length ≤ sumOf (rules.byLhs.toList.map List.length) := by
  have least : ∀ (lists : List (List Nat)) (list : List Nat), list ∈ lists →
      list.length ≤ sumOf (lists.map List.length) := by
    intro lists list member
    obtain ⟨before, after, rfl⟩ := List.append_of_mem member
    rw [List.map_append, sumOf_append, List.map_cons, sumOf_cons]
    omega
  unfold Rules.startsOf Rules.productionsOf
  rw [List.length_map]
  cases found : rules.byLhs[id.index]? with
  | none => exact Nat.zero_le _
  | some list => exact least _ list (Array.mem_toList_iff.mpr (Array.mem_of_getElem? found))

omit declared in
theorem length_flatMap_startsOf_le (rules : Rules) (ids : List NonterminalId) :
    (ids.flatMap rules.startsOf).length ≤ ids.length * sumOf (rules.byLhs.toList.map List.length) := by
  induction ids with
  | nil => exact Nat.zero_le _
  | cons id rest ih =>
      have here := length_startsOf_le rules id
      rw [List.flatMap_cons, List.length_append, List.length_cons, Nat.succ_mul]
      omega

theorem kernelClosure_eq (leading : ∀ id, rules.leadingIn id = seedsOf rules (rules.startsOf id))
    (kernel : List Item) : kernelClosure rules kernel = .ok (closure rules kernel) := by
  have sound := (blank_sound rules).visits (seedsOf rules kernel)
  have whole : closure rules kernel = listed rules kernel
      (follow rules rules.byLhs.size 0 ((seedsOf rules kernel).foldl visit (blank rules))) := rfl
  have nothing : ∀ visited, followed rules kernel visited 0 = kernel := fun _ => List.append_nil kernel
  have short : ∀ final : Visited, final.order.size ≤ rules.byLhs.size →
      (listed rules kernel final).length <
        rules.byLhs.size * sumOf (rules.byLhs.toList.map List.length) + 1 + kernel.length := by
    intro final most
    have fewer := Nat.le_trans (length_flatMap_startsOf_le rules final.order.toList)
      (Nat.mul_le_mul_right _ (Nat.le_trans (Nat.le_of_eq Array.length_toList) most))
    unfold listed
    rw [List.length_append]
    omega
  have initial : listed rules kernel (blank rules) = kernel := List.append_nil kernel
  have begun := expandFrom_block declared
    (rules.byLhs.size * sumOf (rules.byLhs.toList.map List.length) + 1) kernel [] [] (blank rules)
    (blank_sound rules) (by rw [initial, List.nil_append, List.append_nil])
  have walked := expandFrom_follow declared leading kernel rules.byLhs.size 0
    (rules.byLhs.size * sumOf (rules.byLhs.toList.map List.length) + 1) _ rfl sound (by
      rw [nothing]
      exact short _ (sound.follow rules rules.byLhs.size 0).order_size_le)
  rw [initial, List.length_nil, Nat.zero_add] at begun
  rw [nothing] at walked
  unfold kernelClosure
  rw [Nat.add_assoc, whole]
  exact begun.trans walked

end Walk

/-- Every nonterminal behind a mark has a place among the left-hand sides of a grammar. -/
theorem Rules.ofGrammar_declared {grammar : Grammar} (numbered : grammar.Numbered) :
    (ofGrammar grammar).Declared := by
  intro item id next
  have within : grammar.terminalCount + id.index < grammar.kinds.size := (nextSymbol_within numbered next).2
  rw [byLhs_size]
  unfold Grammar.nonterminalCount
  omega

end IncrementalParsing.Lalr
