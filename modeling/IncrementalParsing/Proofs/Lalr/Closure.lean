import IncrementalParsing.Lalr.Automaton
import IncrementalParsing.Proofs.Grammar.Numbering

/-!
Closures of item sets. The closure of a kernel is the least set of items that contains the kernel
and, with a mark before a nonterminal, the beginnings of its productions. The walk that computes it
visits the nonterminals behind marks one after another; each is visited once, so that as many rounds
as there are nonterminals are enough.
-/

namespace IncrementalParsing.Lalr

inductive Closed (rules : Rules) (kernel : List Item) : Item → Prop
  | kernel {item : Item} : item ∈ kernel → Closed rules kernel item
  | start {item : Item} {id : NonterminalId} {number : Nat} :
      Closed rules kernel item → rules.nextSymbol item = some (.nonterminal id) →
      number ∈ rules.productionsOf id → Closed rules kernel ⟨number, 0⟩

theorem closed_iff_exists_seed {rules : Rules} {kernel : List Item} {item : Item} :
    Closed rules kernel item ↔ ∃ seed, seed ∈ kernel ∧ Closed rules [seed] item := by
  constructor
  · intro closed
    induction closed with
    | @kernel item member => exact ⟨item, member, .kernel (List.mem_singleton_self item)⟩
    | start _ next produced ih =>
        obtain ⟨seed, member, here⟩ := ih
        exact ⟨seed, member, .start here next produced⟩
  · rintro ⟨seed, member, closed⟩
    induction closed with
    | kernel same => exact .kernel (List.mem_singleton.mp same ▸ member)
    | start _ next produced ih => exact .start ih next produced

/-- The nonterminals noted as leading are those that right-hand sides begin with. -/
def Rules.Consistent (rules : Rules) : Prop :=
  ∀ id next, next ∈ rules.leadingIn id ↔
    ∃ number, number ∈ rules.productionsOf id ∧
      rules.nextSymbol ⟨number, 0⟩ = some (.nonterminal next)

namespace Visited

structure Sound (count : Nat) (visited : Visited) : Prop where
  size : visited.seen.size = count
  seen_iff : ∀ id, id ∈ visited.order.toList ↔ visited.seen[id.index]? = some true
  nodup : visited.order.toList.Nodup

theorem index_injective {left right : NonterminalId} (same : left.index = right.index) :
    left = right := by
  rw [← NonterminalId.ofIndex_index left, ← NonterminalId.ofIndex_index right, same]

theorem Sound.order_size_le {count : Nat} {visited : Visited} (sound : visited.Sound count) :
    visited.order.size ≤ count := by
  have distinct : (visited.order.toList.map NonterminalId.index).Nodup :=
    List.Pairwise.map _ (fun _ _ different same => different (index_injective same)) sound.nodup
  have inside : visited.order.toList.map NonterminalId.index ⊆ List.range count := by
    intro index member
    obtain ⟨id, among, rfl⟩ := List.mem_map.mp member
    have present := (sound.seen_iff id).mp among
    obtain ⟨bound, _⟩ := Array.getElem?_eq_some_iff.mp present
    rw [List.mem_range, ← sound.size]
    exact bound
  simpa using distinct.length_le_of_subset inside

theorem Sound.visit {count : Nat} {visited : Visited} (sound : visited.Sound count)
    (id : NonterminalId) : (visited.visit id).Sound count := by
  unfold Visited.visit
  split
  · exact sound
  · rename_i fresh
    have bound : id.index < visited.seen.size := by
      rcases Nat.lt_or_ge id.index visited.seen.size with inside | outside
      · exact inside
      · rw [Array.getElem?_eq_none outside] at fresh
        exact absurd rfl fresh
    have unseen : visited.seen[id.index]? = some false := by
      rw [Array.getElem?_eq_getElem bound] at fresh ⊢
      simpa using fresh
    have absent : id ∉ visited.order.toList := by
      intro member
      rw [(sound.seen_iff id).mp member] at unseen
      cases unseen
    refine ⟨by simpa using sound.size, fun other => ?_, ?_⟩
    · rw [Array.toList_push, List.mem_append, List.mem_singleton, Array.getElem?_setIfInBounds]
      by_cases same : id.index = other.index
      · have equal : id = other := index_injective same
        subst equal
        simp [bound]
      · have different : other ≠ id := fun equal => same (equal ▸ rfl)
        rw [if_neg same, ← sound.seen_iff other]
        simp [different]
    · rw [Array.toList_push, List.nodup_append]
      refine ⟨sound.nodup, by simp, ?_⟩
      intro first member second among
      rw [List.mem_singleton] at among
      subst among
      exact fun same => absent (same ▸ member)

theorem mem_visit (visited : Visited) (id other : NonterminalId)
    (member : other ∈ (visited.visit id).order.toList) : other ∈ visited.order.toList ∨ other = id := by
  unfold Visited.visit at member
  split at member
  · exact Or.inl member
  · simpa using member

theorem visit_keeps (visited : Visited) (id other : NonterminalId)
    (member : other ∈ visited.order.toList) : other ∈ (visited.visit id).order.toList := by
  unfold Visited.visit
  split
  · exact member
  · simp only [Array.toList_push, List.mem_append]
    exact Or.inl member

theorem Sound.visit_meets {count : Nat} {visited : Visited} (sound : visited.Sound count)
    {id : NonterminalId} (declared : id.index < count) : id ∈ (visited.visit id).order.toList := by
  unfold Visited.visit
  split
  · rename_i known
    rw [sound.seen_iff]
    rw [← sound.size] at declared
    rw [Array.getElem?_eq_getElem declared] at known ⊢
    simpa using known
  · simp

theorem visit_getElem? (visited : Visited) (id : NonterminalId) {place : Nat}
    (inside : place < visited.order.size) :
    ((visited.visit id).order[place]? : Option NonterminalId) = visited.order[place]? := by
  unfold Visited.visit
  split
  · rfl
  · rw [Array.getElem?_push_lt inside, Array.getElem?_eq_getElem inside]

theorem order_size_visit_le (visited : Visited) (id : NonterminalId) :
    visited.order.size ≤ (visited.visit id).order.size := by
  unfold Visited.visit
  split
  · exact Nat.le_refl _
  · simp

section Visits

variable {count : Nat}

theorem Sound.visits : ∀ (ids : List NonterminalId) {visited : Visited},
    visited.Sound count → (ids.foldl Visited.visit visited).Sound count
  | [], _visited, sound => sound
  | id :: rest, _visited, sound => Sound.visits rest (sound.visit id)

theorem mem_visits : ∀ (ids : List NonterminalId) (visited : Visited) (other : NonterminalId),
    other ∈ (ids.foldl Visited.visit visited).order.toList →
    other ∈ visited.order.toList ∨ other ∈ ids
  | [], _visited, _other, member => Or.inl member
  | id :: rest, visited, other, member => by
      rcases mem_visits rest (visited.visit id) other member with before | later
      · rcases mem_visit visited id other before with old | same
        · exact Or.inl old
        · exact Or.inr (same ▸ List.mem_cons_self)
      · exact Or.inr (List.mem_cons_of_mem id later)

theorem visits_keep : ∀ (ids : List NonterminalId) (visited : Visited) (other : NonterminalId),
    other ∈ visited.order.toList → other ∈ (ids.foldl Visited.visit visited).order.toList
  | [], _visited, _other, member => member
  | id :: rest, visited, other, member =>
      visits_keep rest (visited.visit id) other (visit_keeps visited id other member)

theorem Sound.visits_meet : ∀ (ids : List NonterminalId) {visited : Visited},
    visited.Sound count → ∀ id, id ∈ ids → id.index < count →
    id ∈ (ids.foldl Visited.visit visited).order.toList
  | [], _visited, _sound, _id, member, _declared => by cases member
  | first :: rest, visited, sound, id, member, declared => by
      rcases List.mem_cons.mp member with same | later
      · subst same
        exact visits_keep rest _ id (sound.visit_meets declared)
      · exact Sound.visits_meet rest (sound.visit first) id later declared

theorem visits_getElem? : ∀ (ids : List NonterminalId) (visited : Visited) (place : Nat),
    place < visited.order.size →
    ((ids.foldl Visited.visit visited).order[place]? : Option NonterminalId) = visited.order[place]?
  | [], _visited, _place, _inside => rfl
  | id :: rest, visited, place, inside => by
      have inner := visits_getElem? rest (visited.visit id) place
        (Nat.lt_of_lt_of_le inside (order_size_visit_le visited id))
      exact inner.trans (visit_getElem? visited id inside)

end Visits

theorem Sound.follow {count : Nat} (rules : Rules) : ∀ (rounds index : Nat) {visited : Visited},
    visited.Sound count → (Visited.follow rules rounds index visited).Sound count
  | 0, _index, _visited, sound => sound
  | rounds + 1, index, visited, sound => by
      unfold Visited.follow
      split
      · exact sound
      · exact Sound.follow rules rounds (index + 1) (sound.visits _)

theorem follow_induction (rules : Rules) (holds : NonterminalId → Prop)
    (leads : ∀ id next, holds id → next ∈ rules.leadingIn id → holds next) :
    ∀ (rounds index : Nat) (visited : Visited), (∀ id, id ∈ visited.order.toList → holds id) →
      ∀ id, id ∈ (Visited.follow rules rounds index visited).order.toList → holds id
  | 0, _index, _visited, initially, id, member => initially id member
  | rounds + 1, index, visited, initially, id, member => by
      unfold Visited.follow at member
      split at member
      · exact initially id member
      · rename_i current found
        refine follow_induction rules holds leads rounds (index + 1) _ ?_ id member
        intro other among
        rcases mem_visits _ visited other among with before | fresh
        · exact initially other before
        · have listed : current ∈ visited.order.toList :=
            List.mem_of_getElem? (Array.getElem?_toList.trans found)
          exact leads current other (initially current listed) fresh

theorem follow_keeps (rules : Rules) : ∀ (rounds index : Nat) (visited : Visited) (id : NonterminalId),
    id ∈ visited.order.toList → id ∈ (Visited.follow rules rounds index visited).order.toList
  | 0, _index, _visited, _id, member => member
  | rounds + 1, index, visited, id, member => by
      unfold Visited.follow
      split
      · exact member
      · exact follow_keeps rules rounds (index + 1) _ id (visits_keep _ visited id member)

def Followed (count : Nat) (rules : Rules) (index : Nat) (visited : Visited) : Prop :=
  ∀ place id, place < index → visited.order[place]? = some id →
    ∀ next, next ∈ rules.leadingIn id → next.index < count → next ∈ visited.order.toList

theorem Followed.step {count : Nat} {rules : Rules} {index : Nat} {visited : Visited}
    {current : NonterminalId} (sound : visited.Sound count)
    (followed : Followed count rules index visited) (found : visited.order[index]? = some current) :
    Followed count rules (index + 1) ((rules.leadingIn current).foldl Visited.visit visited) := by
  obtain ⟨inside, _⟩ := Array.getElem?_eq_some_iff.mp found
  intro place id before at_ next leads declared
  have placed : place < visited.order.size := by omega
  rw [visits_getElem? _ visited place placed] at at_
  rcases Nat.lt_or_ge place index with earlier | here
  · exact visits_keep _ visited next (followed place id earlier at_ next leads declared)
  · have same : place = index := by omega
    subst same
    cases found.symm.trans at_
    exact sound.visits_meet _ next leads declared

theorem Followed.all {count : Nat} {rules : Rules} {index : Nat} {visited : Visited}
    (followed : Followed count rules index visited) (covers : visited.order.size ≤ index) :
    ∀ id, id ∈ visited.order.toList → ∀ next, next ∈ rules.leadingIn id → next.index < count →
      next ∈ visited.order.toList := by
  intro id member
  obtain ⟨place, inside, at_⟩ := List.mem_iff_getElem.mp member
  rw [Array.length_toList] at inside
  refine followed place id (Nat.lt_of_lt_of_le inside covers) ?_
  rw [Array.getElem?_eq_getElem inside]
  simpa using at_

theorem follow_complete {count : Nat} (rules : Rules) :
    ∀ (rounds index : Nat) (visited : Visited), rounds + index = count → visited.Sound count →
      Followed count rules index visited →
      ∀ id, id ∈ (Visited.follow rules rounds index visited).order.toList →
        ∀ next, next ∈ rules.leadingIn id → next.index < count →
          next ∈ (Visited.follow rules rounds index visited).order.toList
  | 0, index, visited, budget, sound, followed => by
      have bound := sound.order_size_le
      exact followed.all (by omega)
  | rounds + 1, index, visited, budget, sound, followed => by
      unfold Visited.follow
      split
      · rename_i none
        exact followed.all (Array.getElem?_eq_none_iff.mp none)
      · rename_i current found
        exact follow_complete rules rounds (index + 1) _ (by omega) (sound.visits _)
          (followed.step sound found)

end Visited

section Closure

variable {rules : Rules} {kernel : List Item}

def seedsOf (rules : Rules) (items : List Item) : List NonterminalId :=
  items.filterMap fun item =>
    match rules.nextSymbol item with
    | some (.nonterminal id) => some id
    | _ => none

theorem mem_seedsOf {items : List Item} {id : NonterminalId} :
    id ∈ seedsOf rules items ↔
      ∃ item, item ∈ items ∧ rules.nextSymbol item = some (.nonterminal id) := by
  unfold seedsOf
  rw [List.mem_filterMap]
  constructor
  · rintro ⟨item, member, same⟩
    refine ⟨item, member, ?_⟩
    split at same
    · rename_i other next
      cases same
      exact next
    · cases same
  · rintro ⟨item, member, next⟩
    exact ⟨item, member, by rw [next]⟩

def Visited.blank (rules : Rules) : Visited := ⟨#[], Array.replicate rules.byLhs.size false⟩

theorem Visited.blank_sound (rules : Rules) : (blank rules).Sound rules.byLhs.size where
  size := by simp [blank]
  seen_iff id := by simp [blank, Array.getElem?_replicate]
  nodup := by simp [blank]

theorem entered_eq (rules : Rules) (items : List Item) :
    entered rules items =
      (Visited.follow rules rules.byLhs.size 0
        ((seedsOf rules items).foldl Visited.visit (.blank rules))).order.toList := rfl

theorem closed_of_mem_entered (consistent : rules.Consistent) {id : NonterminalId}
    (member : id ∈ entered rules kernel) :
    ∃ item, Closed rules kernel item ∧ rules.nextSymbol item = some (.nonterminal id) := by
  rw [entered_eq] at member
  refine Visited.follow_induction rules
    (fun id => ∃ item, Closed rules kernel item ∧ rules.nextSymbol item = some (.nonterminal id))
    ?_ _ _ _ ?_ id member
  · rintro current next ⟨item, closed, here⟩ leads
    obtain ⟨number, among, begins⟩ := (consistent current next).mp leads
    exact ⟨⟨number, 0⟩, .start closed here among, begins⟩
  · intro seed among
    rcases Visited.mem_visits _ _ seed among with none | given
    · simp [Visited.blank] at none
    · obtain ⟨item, inKernel, next⟩ := mem_seedsOf.mp given
      exact ⟨item, .kernel inKernel, next⟩

theorem entered_of_kernel {item : Item} {id : NonterminalId} (member : item ∈ kernel)
    (next : rules.nextSymbol item = some (.nonterminal id)) (declared : id.index < rules.byLhs.size) :
    id ∈ entered rules kernel := by
  rw [entered_eq]
  exact Visited.follow_keeps rules _ _ _ id
    ((Visited.blank_sound rules).visits_meet _ id (mem_seedsOf.mpr ⟨item, member, next⟩) declared)

theorem entered_of_entered {id next : NonterminalId} (member : id ∈ entered rules kernel)
    (leads : next ∈ rules.leadingIn id) (declared : next.index < rules.byLhs.size) :
    next ∈ entered rules kernel := by
  rw [entered_eq] at member ⊢
  refine Visited.follow_complete rules _ _ _ (Nat.add_zero _) ((Visited.blank_sound rules).visits _) ?_
    id member next leads declared
  intro place current before
  exact absurd before (Nat.not_lt_zero place)

theorem declared_of_mem_productionsOf {id : NonterminalId} {number : Nat}
    (member : number ∈ rules.productionsOf id) : id.index < rules.byLhs.size := by
  unfold Rules.productionsOf at member
  rcases Nat.lt_or_ge id.index rules.byLhs.size with inside | outside
  · exact inside
  · rw [Array.getElem?_eq_none outside] at member
    cases member

theorem mem_startsOf {id : NonterminalId} {item : Item} :
    item ∈ rules.startsOf id ↔ item.dot = 0 ∧ item.production ∈ rules.productionsOf id := by
  unfold Rules.startsOf
  rw [List.mem_map]
  constructor
  · rintro ⟨number, member, rfl⟩
    exact ⟨rfl, member⟩
  · rintro ⟨start, member⟩
    refine ⟨item.production, member, ?_⟩
    rw [← start]

theorem mem_closure (consistent : rules.Consistent) {item : Item} :
    item ∈ closure rules kernel ↔ Closed rules kernel item := by
  unfold closure
  rw [List.mem_append, List.mem_flatMap]
  constructor
  · rintro (inKernel | ⟨id, among, starts⟩)
    · exact .kernel inKernel
    · obtain ⟨before, closed, next⟩ := closed_of_mem_entered consistent among
      obtain ⟨start, member⟩ := mem_startsOf.mp starts
      have shape : item = ⟨item.production, 0⟩ := by rw [← start]
      rw [shape]
      exact .start closed next member
  · intro closed
    induction closed with
    | kernel member => exact Or.inl member
    | @start before id number _ next member ih =>
        have declared := declared_of_mem_productionsOf member
        refine Or.inr ⟨id, ?_, mem_startsOf.mpr ⟨rfl, member⟩⟩
        rcases ih with inKernel | ⟨outer, among, starts⟩
        · exact entered_of_kernel inKernel next declared
        · obtain ⟨start, produced⟩ := mem_startsOf.mp starts
          have shape : before = ⟨before.production, 0⟩ := by rw [← start]
          rw [shape] at next
          exact entered_of_entered among ((consistent outer id).mpr ⟨_, produced, next⟩) declared

end Closure

end IncrementalParsing.Lalr
