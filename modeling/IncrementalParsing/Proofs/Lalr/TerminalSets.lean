import IncrementalParsing.Lalr.TerminalSet
import Mathlib.Data.List.Basic
import Mathlib.Tactic.ByContra

/-!
Terminal sets as they grow. In a grammar all sets have the same room, which is never more than 16 bits can
number; such a set is known by its members, and a union that reports growth has a member that the set did
not have.
-/

namespace IncrementalParsing.TerminalSet

variable {set other : TerminalSet} {kind : KindId}

theorem contains_union_of_slots (room : other.slots ≤ set.slots) :
    (set.union other).contains kind = (set.contains kind || other.contains kind) := by
  have bits : (set.union other).bits = set.bits ||| within set other := rfl
  unfold contains
  rw [bits, Nat.testBit_or, within, if_pos room]

theorem eq_of_contains (numbered : set.slots ≤ 1024) (slots : set.slots = other.slots)
    (same : ∀ kind, set.contains kind = other.contains kind) : set = other := by
  have bits : set.bits = other.bits := by
    apply Nat.eq_of_testBit_eq
    intro place
    by_cases small : place < 65536
    · have here := same (.ofIndex place)
      unfold contains at here
      rwa [KindId.index_ofIndex small] at here
    · have beyond : ∀ some : TerminalSet, some.slots ≤ 1024 → some.bits.testBit place = false := by
        intro some bound
        cases present : some.bits.testBit place with
        | false => rfl
        | true =>
            have inside := index_lt_of_testBit some.bits_lt present
            omega
      rw [beyond set numbered, beyond other (slots ▸ numbered)]
  cases set
  cases other
  subst slots
  subst bits
  rfl

theorem union_of_unionGrew_eq_false (quiet : (set.unionGrew other).2 = false) : set.union other = set := by
  have bits : (set.union other).bits = set.bits := by
    unfold unionGrew at quiet
    dsimp only at quiet
    rw [bne_eq_false_iff_eq] at quiet
    exact quiet
  cases set
  unfold union at bits ⊢
  simp only [mk.injEq, true_and]
  exact bits

theorem exists_news_of_unionGrew (numbered : set.slots ≤ 1024) (grew : (set.unionGrew other).2 = true) :
    ∃ kind, set.contains kind = false ∧ (set.union other).contains kind = true := by
  by_contra none
  have same : set.union other = set := by
    have slots : (set.union other).slots = set.slots := rfl
    apply eq_of_contains (slots ▸ numbered) slots
    intro kind
    cases present : (set.union other).contains kind with
    | false =>
        cases old : set.contains kind with
        | false => rfl
        | true =>
            have kept : (set.union other).contains kind = true := by
              unfold contains union at *
              rw [Nat.testBit_or, old, Bool.true_or]
            rw [present] at kept
            cases kept
    | true =>
        cases old : set.contains kind with
        | true => rfl
        | false => exact absurd ⟨kind, old, present⟩ none
  unfold unionGrew at grew
  dsimp only at grew
  rw [same, bne_self_eq_false] at grew
  cases grew

theorem mem_toList (numbered : set.slots ≤ 1024) : kind ∈ set.toList ↔ set.contains kind = true := by
  unfold toList contains
  rw [List.mem_map]
  constructor
  · rintro ⟨place, member, rfl⟩
    obtain ⟨_, present⟩ := List.mem_filter.mp member
    have inside := index_lt_of_testBit set.bits_lt present
    rwa [KindId.index_ofIndex (show place < 65536 by omega)]
  · intro present
    refine ⟨kind.index, List.mem_filter.mpr ⟨?_, present⟩, KindId.ofIndex_index kind⟩
    have large := Nat.ge_two_pow_of_testBit present
    have nonzero : set.bits ≠ 0 := by
      intro zero
      rw [zero, Nat.zero_testBit] at present
      cases present
    rw [List.mem_range]
    have bound := (Nat.le_log2 nonzero).mpr large
    omega

/-- The members are listed in increasing order, so that none of them is listed twice. -/
theorem toList_increasing (numbered : set.slots ≤ 1024) :
    set.toList.Pairwise fun first second => first.index < second.index := by
  unfold toList
  rw [List.pairwise_map]
  have increasing : ((List.range (set.bits.log2 + 1)).filter set.bits.testBit).Pairwise (· < ·) :=
    List.pairwise_lt_range.filter _
  apply increasing.imp_of_mem
  intro first second firstIn secondIn less
  have small : ∀ place, place ∈ (List.range (set.bits.log2 + 1)).filter set.bits.testBit → place < 65536 := by
    intro place member
    have inside := index_lt_of_testBit set.bits_lt (List.mem_filter.mp member).2
    omega
  rwa [KindId.index_ofIndex (small first firstIn), KindId.index_ofIndex (small second secondIn)]

theorem contains_foldl_add {α : Type} (skips : α → Prop) [DecidablePred skips] (place : α → Nat) :
    ∀ (entries : List α) (set : TerminalSet),
      (∀ entry, entry ∈ entries → place entry < 64 * set.slots ∧ place entry < 65536) →
      ((entries.foldl (fun set entry => if skips entry then set else set.add (.ofIndex (place entry)))
          set).contains kind = true ↔
        set.contains kind = true ∨ ∃ entry, entry ∈ entries ∧ ¬ skips entry ∧ place entry = kind.index)
  | [], set, _ => by simp
  | entry :: rest, set, room => by
      obtain ⟨slots, small⟩ := room entry List.mem_cons_self
      have others := fun other member => room other (List.mem_cons_of_mem entry member)
      rw [List.foldl_cons, List.exists_mem_cons_iff]
      by_cases skipped : skips entry
      · rw [if_pos skipped, contains_foldl_add skips place rest set others]
        simp only [skipped, not_true_eq_false, false_and, false_or]
      · have index : (KindId.ofIndex (place entry)).index = place entry := KindId.index_ofIndex small
        have added := contains_add set (.ofIndex (place entry)) kind
          (by unfold fits; rw [index]; exact decide_eq_true slots)
        have same : kind = .ofIndex (place entry) ↔ place entry = kind.index := by
          constructor
          · rintro rfl
            exact index.symm
          · intro equal
            rw [equal, KindId.ofIndex_index]
        rw [if_neg skipped, contains_foldl_add skips place rest _ (by rw [slots_add]; exact others), added,
          Bool.or_eq_true, beq_iff_eq, same, or_assoc]
        simp only [skipped, not_false_eq_true, true_and]

theorem slots_foldl_add {α : Type} (skips : α → Prop) [DecidablePred skips] (place : α → KindId) :
    ∀ (entries : List α) (set : TerminalSet),
      (entries.foldl (fun set entry => if skips entry then set else set.add (place entry)) set).slots = set.slots
  | [], _ => rfl
  | entry :: rest, set => by
      rw [List.foldl_cons, slots_foldl_add skips place rest]
      split
      · rfl
      · exact slots_add set _

theorem contains_of_isEmpty (empty : set.isEmpty = true) : set.contains kind = false := by
  unfold isEmpty at empty
  unfold contains
  rw [beq_iff_eq.mp empty, Nat.zero_testBit]

end IncrementalParsing.TerminalSet
