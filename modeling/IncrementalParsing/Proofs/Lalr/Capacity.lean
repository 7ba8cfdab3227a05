import IncrementalParsing.Proofs.Lalr.TerminalSets
import IncrementalParsing.Proofs.Outcome

/-!
Terminal sets within their capacity. A set is made for the kinds below some capacity; the room that it has is
a multiple of a slot and may be more. The operations here ask for the capacity: what they insert or unite is
below it, or they break off. Within the capacity they do what the operations without a check do, and no kind
is lost.
-/

namespace IncrementalParsing.TerminalSet

/-- Whether a set was made with a capacity. -/
def MadeFor (capacity : Nat) (set : TerminalSet) : Prop := set.slots = (capacity + 63) / 64

instance (capacity : Nat) (set : TerminalSet) : Decidable (set.MadeFor capacity) := Nat.decEq _ _

def insertBelow (capacity : Nat) (set : TerminalSet) (kind : KindId) : Except Fault (TerminalSet × Bool) :=
  if set.MadeFor capacity ∧ kind.index < capacity then set.insert kind else .error .indexOutOfRange

/-- Unites a set with one that has no kinds but those below its capacity, and answers whether it grew. -/
def unionBelow (capacity : Nat) (set other : TerminalSet) : Except Fault (TerminalSet × Bool) :=
  if set.MadeFor capacity ∧ other.bits < 1 <<< capacity then .ok (set.unionGrew other)
  else .error .indexOutOfRange

variable {capacity : Nat} {set other : TerminalSet} {kind : KindId}

theorem madeFor_withCapacity (capacity : Nat) : (withCapacity capacity).MadeFor capacity := rfl

theorem MadeFor.add (made : set.MadeFor capacity) (kind : KindId) : (set.add kind).MadeFor capacity :=
  (slots_add set kind).trans made

theorem MadeFor.union (made : set.MadeFor capacity) (other : TerminalSet) : (set.union other).MadeFor capacity :=
  made

theorem MadeFor.remove (made : set.MadeFor capacity) (kind : KindId) : (set.remove kind).MadeFor capacity :=
  (slots_remove set kind).trans made

theorem MadeFor.fits (made : set.MadeFor capacity) (below : kind.index < capacity) : set.fits kind = true := by
  unfold MadeFor at made
  unfold TerminalSet.fits
  rw [decide_eq_true_eq, made]
  omega

theorem insertBelow_eq (made : set.MadeFor capacity) (below : kind.index < capacity) :
    set.insertBelow capacity kind = .ok (set.add kind, !set.contains kind) := by
  unfold insertBelow insert
  rw [if_pos ⟨made, below⟩, if_pos (made.fits below)]

theorem unionBelow_eq (made : set.MadeFor capacity) (below : other.bits < 1 <<< capacity) :
    set.unionBelow capacity other = .ok (set.union other, (set.unionGrew other).2) := by
  unfold unionBelow
  rw [if_pos ⟨made, below⟩]
  rfl

theorem bits_lt_of_contains (numbered : set.slots ≤ 1024)
    (below : ∀ kind, set.contains kind = true → kind.index < capacity) : set.bits < 1 <<< capacity := by
  rw [Nat.one_shiftLeft]
  apply Nat.lt_pow_two_of_testBit
  intro place beyond
  cases present : set.bits.testBit place with
  | false => rfl
  | true =>
      have inside := index_lt_of_testBit set.bits_lt present
      have index : (KindId.ofIndex place).index = place := KindId.index_ofIndex (by omega)
      have known : set.contains (.ofIndex place) = true := by
        unfold contains
        rwa [index]
      have bound := below _ known
      omega

theorem lt_of_bits_lt (below : set.bits < 1 <<< capacity) (present : set.contains kind = true) :
    kind.index < capacity :=
  index_lt_of_testBit below present

theorem contains_union_below (made : set.MadeFor capacity) (below : other.bits < 1 <<< capacity) :
    (set.union other).contains kind = (set.contains kind || other.contains kind) := by
  cases room : set.fits kind with
  | true => exact contains_union set other kind room
  | false =>
      have outside : ∀ some : TerminalSet, some.slots = set.slots → some.contains kind = false := by
        intro some slots
        by_contra present
        have inRoom := fits_of_contains some kind (Bool.not_eq_false _ ▸ present)
        unfold TerminalSet.fits at inRoom room
        rw [slots, room] at inRoom
        cases inRoom
      have lacks : other.contains kind = false := by
        by_contra present
        have low := lt_of_bits_lt below (Bool.not_eq_false _ ▸ present)
        rw [made.fits low] at room
        cases room
      rw [outside (set.union other) rfl, outside set rfl, lacks]
      rfl

theorem bits_union_lt (mine : set.bits < 1 <<< capacity) (given : other.bits < 1 <<< capacity) :
    (set.union other).bits < 1 <<< capacity := by
  refine or_lt_one_shift mine (Nat.lt_of_le_of_lt ?_ given)
  unfold within
  split
  · exact Nat.le_refl _
  · exact Nat.mod_le _ _

theorem bits_add_lt (mine : set.bits < 1 <<< capacity) (below : kind.index < capacity) :
    (set.add kind).bits < 1 <<< capacity := by
  unfold add
  split
  · exact or_lt_one_shift mine (one_shift_lt below)
  · exact mine

theorem add_of_contains (present : set.contains kind = true) : set.add kind = set := by
  have inside := index_lt_of_testBit set.bits_lt present
  have bits : set.bits ||| 1 <<< kind.index = set.bits := by
    apply Nat.eq_of_testBit_eq
    intro place
    rw [Nat.testBit_or, Nat.one_shiftLeft, Nat.testBit_two_pow]
    by_cases same : kind.index = place
    · subst same
      rw [show set.bits.testBit kind.index = true from present, Bool.true_or]
    · rw [decide_eq_false same, Bool.or_false]
  cases set
  unfold add
  rw [dif_pos inside]
  congr

theorem union_of_isEmpty (empty : other.isEmpty = true) : set.union other = set := by
  have within : within set other = 0 := by
    unfold isEmpty at empty
    unfold TerminalSet.within
    rw [beq_iff_eq.mp empty, Nat.zero_mod, ite_self]
  cases set
  unfold union
  congr
  rw [within, Nat.or_zero]

theorem unionGrew_self (set : TerminalSet) : set.unionGrew set = (set, false) := by
  have within : within set set = set.bits := if_pos (Nat.le_refl _)
  have bits : (set.union set).bits = set.bits := by
    change set.bits ||| TerminalSet.within set set = set.bits
    rw [within, Nat.or_self]
  have same : set.union set = set := by
    cases set
    unfold union at bits ⊢
    congr
  unfold unionGrew
  rw [same]
  dsimp only
  rw [bne_self_eq_false]

end IncrementalParsing.TerminalSet
