import IncrementalParsing.Green.Basic

/-!
Search among children. The children of a node lie one after another, so the child that contains an offset is
found by halving.
-/

namespace IncrementalParsing

/-- The first number from `low` on at which a test fails, or `high` if it holds up to there. It is found by
halving, for a test that fails from some number on. -/
def partitionPoint (holds : Nat → Bool) (low high : Nat) : Nat :=
  if low < high then
    let middle := low + (high - low) / 2
    if holds middle then partitionPoint holds (middle + 1) high else partitionPoint holds low middle
  else low
termination_by high - low

theorem partitionPoint_spec (holds : Nat → Bool)
    (falls : ∀ index later, index ≤ later → holds later = true → holds index = true) (low high : Nat) :
    (∀ index, low ≤ index → index < partitionPoint holds low high → holds index = true) ∧
      (partitionPoint holds low high < high → holds (partitionPoint holds low high) = false) := by
  fun_induction partitionPoint holds low high with
  | case1 low high inside middle above ih =>
      refine ⟨fun index from_ below => ?_, ih.2⟩
      by_cases passed : index ≤ middle
      · exact falls index middle passed above
      · exact ih.1 index (Nat.lt_of_not_le passed) below
  | case2 low high inside middle fails ih =>
      refine ⟨ih.1, fun _ => ?_⟩
      by_cases within : partitionPoint holds low middle < middle
      · exact ih.2 within
      · exact Bool.eq_false_iff.mpr fun above =>
          fails (falls middle _ (Nat.le_of_not_lt within) above)
  | case3 low high outside =>
      exact ⟨fun index from_ below => absurd below (Nat.not_lt.mpr from_), fun within => absurd within outside⟩

namespace Green

/-- Where a child ends, counted from the start of the node. -/
def stopOfChild (children : List Child) (index : Nat) : Nat := lengthOf (children.take (index + 1))

/-- The number of the child that contains an offset, counted from the start of the node. -/
def childIndexAt? (children : List Child) (offset : Nat) : Option (Fin children.length) :=
  let index := partitionPoint (fun index => stopOfChild children index ≤ offset) 0 children.length
  if inside : index < children.length then some ⟨index, inside⟩ else none

end Green

end IncrementalParsing
