/-!
Saturation. Several tables of this library are the least ones closed under some rules. They are found
by applying all rules in rounds until a round adds nothing. A round answers whether it added
something; each addition is one of finitely many, so the number of rounds has a bound that the caller
knows.
-/

namespace IncrementalParsing

/-- Repeats `round` until it reports no change, but no more than `rounds` times. -/
def saturate {State : Type} (round : State → State × Bool) : Nat → State → State
  | 0, state => state
  | rounds + 1, state =>
      let (next, changed) := round state
      if changed then saturate round rounds next else next

theorem saturate_induction {State : Type} (round : State → State × Bool) (holds : State → Prop)
    (keeps : ∀ state, holds state → holds (round state).1) (rounds : Nat) (state : State)
    (initially : holds state) : holds (saturate round rounds state) := by
  induction rounds generalizing state with
  | zero => exact initially
  | succ rounds ih =>
      unfold saturate
      simp only
      split
      · exact ih _ (keeps state initially)
      · exact keeps state initially

end IncrementalParsing
