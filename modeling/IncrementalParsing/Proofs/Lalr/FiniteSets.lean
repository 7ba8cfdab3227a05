import IncrementalParsing.Proofs.Lalr.Capacity
import IncrementalParsing.Proofs.Lalr.Words
import Mathlib.Data.Finset.Card
import Mathlib.Logic.Function.Basic

/-!
Sets of terminals as finite sets. Any number of sets are made with one capacity and then changed in any
order, also by one another. The same changes of finite sets are what the answers and the looks of the sets
are compared with, for sets in words and for sets that are one number.
-/

namespace IncrementalParsing

structure SetOperations (σ : Type) where
  withCapacity : Nat → σ
  add : σ → KindId → Except Fault (σ × Bool)
  remove : σ → KindId → σ
  unite : σ → σ → σ × Bool
  contains : σ → KindId → Bool
  size : σ → Nat
  isEmpty : σ → Bool
  intersects : σ → σ → Bool
  toList : σ → List KindId

def WordSet.operations : SetOperations WordSet :=
  { withCapacity := WordSet.withCapacity
    add := WordSet.insert
    remove := WordSet.remove
    unite := WordSet.union
    contains := WordSet.contains
    size := WordSet.size
    isEmpty := WordSet.isEmpty
    intersects := WordSet.intersects
    toList := WordSet.toList }

def TerminalSet.operations : SetOperations TerminalSet :=
  { withCapacity := TerminalSet.withCapacity
    add := TerminalSet.insert
    remove := TerminalSet.remove
    unite := TerminalSet.unionGrew
    contains := TerminalSet.contains
    size := TerminalSet.size
    isEmpty := TerminalSet.isEmpty
    intersects := TerminalSet.intersects
    toList := TerminalSet.toList }

/-- A change of one among several sets. -/
inductive SetUpdate (count : Nat) where
  | add (target : Fin count) (kind : KindId)
  | remove (target : Fin count) (kind : KindId)
  | unite (target source : Fin count)

namespace SetUpdate

variable {count : Nat}

/-- Whether a change adds no kind that is out of the capacity. -/
def Below (capacity : Nat) : SetUpdate count → Prop
  | .add _ kind => kind.index < capacity
  | .remove _ _ => True
  | .unite _ _ => True

instance (capacity : Nat) : (update : SetUpdate count) → Decidable (update.Below capacity)
  | .add _ kind => inferInstanceAs (Decidable (kind.index < capacity))
  | .remove _ _ => inferInstanceAs (Decidable True)
  | .unite _ _ => inferInstanceAs (Decidable True)

def apply (members : Fin count → Finset KindId) : SetUpdate count → Fin count → Finset KindId
  | .add target kind => Function.update members target (insert kind (members target))
  | .remove target kind => Function.update members target ((members target).erase kind)
  | .unite target source => Function.update members target (members target ∪ members source)

def answer (members : Fin count → Finset KindId) : SetUpdate count → Option Bool
  | .add target kind => some (decide (kind ∉ members target))
  | .remove _ _ => none
  | .unite target source => some (decide (members target ⊂ members target ∪ members source))

/-- The finite sets after some changes, and the answers on the way. -/
def history (members : Fin count → Finset KindId) :
    List (SetUpdate count) → (Fin count → Finset KindId) × List (Option Bool)
  | [] => (members, [])
  | update :: rest =>
      let (last, answers) := history (update.apply members) rest
      (last, update.answer members :: answers)

end SetUpdate

namespace SetOperations

variable {σ : Type} {count : Nat}

def update (operations : SetOperations σ) (sets : Fin count → σ) :
    SetUpdate count → Except Fault ((Fin count → σ) × Option Bool)
  | .add target kind => do
      let (next, fresh) ← operations.add (sets target) kind
      return (Function.update sets target next, some fresh)
  | .remove target kind => return (Function.update sets target (operations.remove (sets target) kind), none)
  | .unite target source =>
      let (next, grew) := operations.unite (sets target) (sets source)
      return (Function.update sets target next, some grew)

def run (operations : SetOperations σ) (sets : Fin count → σ) :
    List (SetUpdate count) → Except Fault ((Fin count → σ) × List (Option Bool))
  | [] => return (sets, [])
  | update :: rest => do
      let (next, answer) ← operations.update sets update
      let (last, answers) ← operations.run next rest
      return (last, answer :: answers)

/-- Sets that look like finite sets in every way that they can be looked at. -/
structure Shows (operations : SetOperations σ) (sets : Fin count → σ) (members : Fin count → Finset KindId) :
    Prop where
  contains : ∀ one kind, operations.contains (sets one) kind = decide (kind ∈ members one)
  size : ∀ one, operations.size (sets one) = (members one).card
  isEmpty : ∀ one, operations.isEmpty (sets one) = decide (members one = ∅)
  intersects : ∀ one two, operations.intersects (sets one) (sets two) =
    decide (¬ Disjoint (members one) (members two))
  increasing : ∀ one, (operations.toList (sets one)).Pairwise fun first second => first.index < second.index
  lists : ∀ one, (operations.toList (sets one)).toFinset = members one
  same : ∀ one two, sets one = sets two ↔ members one = members two

/-- A relation of sets to finite sets that begins with the empty set, that every operation keeps, and that
shows in every look. -/
structure Refines (operations : SetOperations σ) (capacity : Nat) (holds : σ → Finset KindId → Prop) :
    Prop where
  empty : holds (operations.withCapacity capacity) ∅
  add : ∀ {set members kind}, holds set members → kind.index < capacity →
    ∃ next, operations.add set kind = .ok (next, decide (kind ∉ members)) ∧ holds next (insert kind members)
  remove : ∀ {set members} kind, holds set members → holds (operations.remove set kind) (members.erase kind)
  unite : ∀ {set other members others}, holds set members → holds other others →
    (operations.unite set other).2 = decide (members ⊂ members ∪ others) ∧
      holds (operations.unite set other).1 (members ∪ others)
  shows : ∀ {count} {sets : Fin count → σ} {members : Fin count → Finset KindId},
    (∀ one, holds (sets one) (members one)) → operations.Shows sets members

variable {operations : SetOperations σ} {capacity : Nat} {holds : σ → Finset KindId → Prop}

theorem holds_update {sets : Fin count → σ} {members : Fin count → Finset KindId}
    (all : ∀ one, holds (sets one) (members one)) {target : Fin count} {next : σ} {after : Finset KindId}
    (changed : holds next after) (one : Fin count) :
    holds (Function.update sets target next one) (Function.update members target after one) := by
  by_cases here : one = target
  · subst here
    rw [Function.update_self, Function.update_self]
    exact changed
  · rw [Function.update_of_ne here, Function.update_of_ne here]
    exact all one

theorem update_refines (refines : operations.Refines capacity holds) {sets : Fin count → σ}
    {members : Fin count → Finset KindId} (all : ∀ one, holds (sets one) (members one))
    (update : SetUpdate count) (below : update.Below capacity) :
    ∃ next, operations.update sets update = .ok (next, update.answer members) ∧
      ∀ one, holds (next one) (update.apply members one) := by
  cases update with
  | add target kind =>
      obtain ⟨next, added, changed⟩ := refines.add (all target) below
      refine ⟨Function.update sets target next, ?_, holds_update all changed⟩
      dsimp only [SetOperations.update]
      rw [added]
      rfl
  | remove target kind =>
      have changed := refines.remove kind (all target)
      exact ⟨_, rfl, holds_update all changed⟩
  | unite target source =>
      obtain ⟨grew, changed⟩ := refines.unite (all target) (all source)
      refine ⟨Function.update sets target _, ?_, holds_update all changed⟩
      dsimp only [SetOperations.update, SetUpdate.answer]
      rw [← grew]
      rfl

theorem run_refines (refines : operations.Refines capacity holds) (updates : List (SetUpdate count))
    (below : ∀ update ∈ updates, update.Below capacity) {sets : Fin count → σ}
    {members : Fin count → Finset KindId} (all : ∀ one, holds (sets one) (members one)) :
    ∃ last, operations.run sets updates = .ok (last, (SetUpdate.history members updates).2) ∧
      ∀ one, holds (last one) ((SetUpdate.history members updates).1 one) := by
  induction updates generalizing sets members with
  | nil => exact ⟨sets, rfl, all⟩
  | cons update rest ih =>
      obtain ⟨next, updated, related⟩ := update_refines refines all update (below update List.mem_cons_self)
      obtain ⟨last, ran, ended⟩ := ih (fun other member => below other (List.mem_cons_of_mem update member)) related
      refine ⟨last, ?_, ended⟩
      unfold run
      rw [updated, ok_bind]
      dsimp only
      rw [ran]
      rfl

end SetOperations

namespace TerminalSet

variable {capacity : Nat} {set other : TerminalSet} {members others : Finset KindId}

structure Has (capacity : Nat) (set : TerminalSet) (members : Finset KindId) : Prop where
  made : set.MadeFor capacity
  contains : ∀ kind, set.contains kind = decide (kind ∈ members)

theorem Has.contains_iff (has : set.Has capacity members) {kind : KindId} :
    set.contains kind = true ↔ kind ∈ members := by
  rw [has.contains kind, decide_eq_true_eq]

theorem MadeFor.slots_le (made : set.MadeFor capacity) (numbered : capacity ≤ 65536) : set.slots ≤ 1024 := by
  unfold MadeFor at made
  omega

theorem Has.inj (numbered : capacity ≤ 65536) (has : set.Has capacity members)
    (hasToo : other.Has capacity others) : set = other ↔ members = others := by
  constructor
  · intro same
    ext kind
    rw [← has.contains_iff, ← hasToo.contains_iff, same]
  · intro same
    apply eq_of_contains (has.made.slots_le numbered) (has.made.trans hasToo.made.symm)
    intro kind
    rw [has.contains, hasToo.contains, same]

theorem has_withCapacity (capacity : Nat) : (withCapacity capacity).Has capacity ∅ :=
  ⟨madeFor_withCapacity capacity, fun kind => contains_withCapacity capacity kind⟩

theorem Has.add (has : set.Has capacity members) {kind : KindId} (below : kind.index < capacity) :
    (set.add kind).Has capacity (Insert.insert kind members) := by
  refine ⟨has.made.add kind, fun other => ?_⟩
  rw [contains_add set kind other (has.made.fits below), has.contains, Bool.eq_iff_iff, Bool.or_eq_true,
    decide_eq_true_eq, beq_iff_eq, decide_eq_true_eq, Finset.mem_insert, or_comm]

theorem Has.remove (has : set.Has capacity members) (kind : KindId) :
    (set.remove kind).Has capacity (members.erase kind) := by
  refine ⟨has.made.remove kind, fun other => ?_⟩
  rw [contains_remove, has.contains, Bool.eq_iff_iff, Bool.and_eq_true, decide_eq_true_eq, bne_iff_ne,
    decide_eq_true_eq, Finset.mem_erase, and_comm]

theorem Has.union (has : set.Has capacity members) (hasToo : other.Has capacity others) :
    (set.union other).Has capacity (members ∪ others) := by
  refine ⟨has.made.union other, fun kind => ?_⟩
  have room : other.slots ≤ set.slots := Nat.le_of_eq (hasToo.made.trans has.made.symm)
  rw [contains_union_of_slots room, has.contains, hasToo.contains, Bool.eq_iff_iff, Bool.or_eq_true,
    decide_eq_true_eq, decide_eq_true_eq, decide_eq_true_eq, Finset.mem_union]

theorem Has.grew (numbered : capacity ≤ 65536) (has : set.Has capacity members)
    (hasToo : other.Has capacity others) :
    (set.unionGrew other).2 = decide (members ⊂ members ∪ others) := by
  have same := (has.union hasToo).inj numbered has
  have grown : members ⊂ members ∪ others ↔ ¬ members ∪ others = members := by
    rw [Finset.ssubset_iff_subset_ne, ne_comm]
    exact and_iff_right Finset.subset_union_left
  rw [Bool.eq_iff_iff, unionGrew_changed, decide_eq_true_eq, grown, ne_eq, same]

theorem Has.toFinset_toList (numbered : capacity ≤ 65536) (has : set.Has capacity members) :
    set.toList.toFinset = members := by
  ext kind
  rw [List.mem_toFinset, mem_toList (has.made.slots_le numbered), has.contains_iff]

theorem Has.size (numbered : capacity ≤ 65536) (has : set.Has capacity members) : set.size = members.card := by
  have distinct : set.toList.Nodup :=
    (toList_increasing (has.made.slots_le numbered)).imp fun less same => absurd (same ▸ less) (Nat.lt_irrefl _)
  rw [← has.toFinset_toList numbered, List.toFinset_card_of_nodup distinct]
  rfl

theorem Has.isEmpty (numbered : capacity ≤ 65536) (has : set.Has capacity members) :
    set.isEmpty = decide (members = ∅) := by
  have blank := has.inj numbered (has_withCapacity capacity)
  rw [Bool.eq_iff_iff, decide_eq_true_eq, ← blank]
  constructor
  · intro empty
    apply eq_of_contains (has.made.slots_le numbered) (has.made.trans (madeFor_withCapacity capacity).symm)
    intro kind
    rw [contains_of_isEmpty empty, contains_withCapacity]
  · rintro rfl
    rfl

theorem Has.intersects (numbered : capacity ≤ 65536) (has : set.Has capacity members)
    (hasToo : other.Has capacity others) :
    set.intersects other = decide (¬ Disjoint members others) := by
  rw [Bool.eq_iff_iff, decide_eq_true_eq, Finset.not_disjoint_iff]
  unfold TerminalSet.intersects
  rw [bne_iff_ne]
  constructor
  · intro shared
    obtain ⟨place, both⟩ := Nat.exists_testBit_of_ne_zero shared
    rw [Nat.testBit_and, Bool.and_eq_true] at both
    have inside := index_lt_of_testBit set.bits_lt both.1
    have room := has.made.slots_le numbered
    have index : (KindId.ofIndex place).index = place := KindId.index_ofIndex (by omega)
    refine ⟨.ofIndex place, has.contains_iff.mp ?_, hasToo.contains_iff.mp ?_⟩
    · unfold TerminalSet.contains
      rw [index]
      exact both.1
    · unfold TerminalSet.contains
      rw [index]
      exact both.2
  · rintro ⟨kind, mine, given⟩ apart
    have here : set.bits.testBit kind.index = true := has.contains_iff.mpr mine
    have there : other.bits.testBit kind.index = true := hasToo.contains_iff.mpr given
    have both : (set.bits &&& other.bits).testBit kind.index = true := by
      rw [Nat.testBit_and, here, there]
      rfl
    rw [apart, Nat.zero_testBit] at both
    cases both

theorem operations_refine (numbered : capacity ≤ 65536) : operations.Refines capacity (Has capacity) where
  empty := has_withCapacity capacity
  add := by
    intro set members kind has below
    refine ⟨set.add kind, ?_, has.add below⟩
    change set.insert kind = _
    unfold insert
    rw [if_pos (has.made.fits below), has.contains, decide_not]
  remove := fun kind has => has.remove kind
  unite := fun has hasToo => ⟨has.grew numbered hasToo, has.union hasToo⟩
  shows := fun all =>
    { contains := fun one kind => (all one).contains kind
      size := fun one => (all one).size numbered
      isEmpty := fun one => (all one).isEmpty numbered
      intersects := fun one two => (all one).intersects numbered (all two)
      increasing := fun one => toList_increasing ((all one).made.slots_le numbered)
      lists := fun one => (all one).toFinset_toList numbered
      same := fun one two => (all one).inj numbered (all two) }

end TerminalSet

namespace WordSet

variable {capacity : Nat}

theorem operations_refine (numbered : capacity ≤ 65536) :
    operations.Refines capacity fun set members => set.toTerminalSet.Has capacity members where
  empty := by
    change (withCapacity capacity).toTerminalSet.Has capacity ∅
    rw [toTerminalSet_withCapacity]
    exact TerminalSet.has_withCapacity capacity
  add := by
    intro set members kind has below
    obtain ⟨number, added, changed⟩ := (TerminalSet.operations_refine numbered).add has below
    have inserted : set.toTerminalSet.insert kind = .ok (number, decide (kind ∉ members)) := added
    rw [toTerminalSet_insert] at inserted
    obtain ⟨⟨next, fresh⟩, answered, same⟩ := map_ok.mp inserted
    cases same
    exact ⟨next, answered, changed⟩
  remove := by
    intro set members kind has
    change (set.remove kind).toTerminalSet.Has capacity _
    rw [toTerminalSet_remove]
    exact has.remove kind
  unite := by
    intro set other members others has hasToo
    have united := @toTerminalSet_unionGrew set other
    constructor
    · exact (congrArg Prod.snd united).symm.trans (has.grew numbered hasToo)
    · change (set.union other).1.toTerminalSet.Has capacity _
      rw [toTerminalSet_union]
      exact has.union hasToo
  shows := by
    intro count sets members all
    have shown := (TerminalSet.operations_refine numbered).shows all
    have listed : ∀ one, TerminalSet.operations.toList (sets one).toTerminalSet = operations.toList (sets one) :=
      fun one => toList_toTerminalSet
    exact
      { contains := fun one kind => contains_toTerminalSet.symm.trans (shown.contains one kind)
        size := fun one => size_toTerminalSet.symm.trans (shown.size one)
        isEmpty := fun one => isEmpty_toTerminalSet.symm.trans (shown.isEmpty one)
        intersects := fun one two => intersects_toTerminalSet.symm.trans (shown.intersects one two)
        increasing := fun one => listed one ▸ shown.increasing one
        lists := fun one => listed one ▸ shown.lists one
        same := fun one two => toTerminalSet_inj.symm.trans (shown.same one two) }

end WordSet

namespace SetOperations

variable {capacity count : Nat}

/-- Sets of terminals refine finite sets. Whatever sets of one capacity go through, with kinds below the
capacity added to them, every answer is the one of the finite sets, and in every look they are these finite
sets; in words as well as in one number. -/
theorem histories_refine (numbered : capacity ≤ 65536) (updates : List (SetUpdate count))
    (below : ∀ update ∈ updates, update.Below capacity) :
    (∃ sets, WordSet.operations.run (fun _ => .withCapacity capacity) updates =
        .ok (sets, (SetUpdate.history (fun _ => ∅) updates).2) ∧
      WordSet.operations.Shows sets (SetUpdate.history (fun _ => ∅) updates).1) ∧
    ∃ sets, TerminalSet.operations.run (fun _ => .withCapacity capacity) updates =
        .ok (sets, (SetUpdate.history (fun _ => ∅) updates).2) ∧
      TerminalSet.operations.Shows sets (SetUpdate.history (fun _ => ∅) updates).1 := by
  have words := WordSet.operations_refine numbered
  have numbers := TerminalSet.operations_refine numbered
  obtain ⟨inWords, ranWords, heldWords⟩ := run_refines words updates below (fun _ => words.empty)
  obtain ⟨inNumbers, ranNumbers, heldNumbers⟩ := run_refines numbers updates below (fun _ => numbers.empty)
  exact ⟨⟨inWords, ranWords, words.shows heldWords⟩, inNumbers, ranNumbers, numbers.shows heldNumbers⟩

def crossings : List (SetUpdate 2) :=
  [.add 0 (.ofIndex 63), .add 0 (.ofIndex 64), .add 0 (.ofIndex 129), .add 0 (.ofIndex 64), .unite 1 0,
    .unite 1 0, .remove 0 (.ofIndex 63), .add 1 (.ofIndex 0), .unite 0 1, .remove 0 (.ofIndex 0),
    .remove 1 (.ofIndex 0)]

theorem histories_refine_crossings :
    130 ≤ 65536 ∧ (∀ update ∈ crossings, update.Below 130) ∧
    ∃ sets : Fin 2 → WordSet, WordSet.operations.run (fun _ => .withCapacity 130) crossings =
        .ok (sets, [some true, some true, some true, some false, some true, some false, none, some true,
          some true, none, none]) ∧
      sets 0 = sets 1 ∧ (sets 0).size = 3 ∧ (sets 0).contains (.ofIndex 64) = true ∧
      (sets 0).contains (.ofIndex 65) = false := by
  have capacity : 130 ≤ 65536 := by decide
  have below : ∀ update ∈ crossings, update.Below 130 := by
    decide
  obtain ⟨⟨sets, ran, shown⟩, _⟩ := histories_refine capacity crossings below
  refine ⟨capacity, below, sets, ran, (shown.same 0 1).mpr (by decide), ?_, ?_, ?_⟩
  · exact (shown.size 0).trans (by decide)
  · exact (shown.contains 0 _).trans (by decide)
  · exact (shown.contains 0 _).trans (by decide)

end SetOperations

end IncrementalParsing
