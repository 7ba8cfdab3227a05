import IncrementalParsing.Saturation
import IncrementalParsing.Proofs.Outcome
import Mathlib.Data.Finset.Card
import Mathlib.Data.Finset.Prod

/-!
Saturation comes to rest. What a state knows is a set of facts, each in one of so many rows and columns.
A round that reports a change has learned a fact and forgotten none, so that there are no more such rounds
than there are facts. One round more than that is enough to find a state that no round changes.
-/

namespace IncrementalParsing

section

open Classical in
private noncomputable def facts {State : Type} (fact : State → Nat → Nat → Prop) (rows columns : Nat)
    (state : State) : Finset (Nat × Nat) :=
  (Finset.range rows ×ˢ Finset.range columns).filter fun place => fact state place.1 place.2

variable {State : Type} {round : State → State × Bool} {fact : State → Nat → Nat → Prop}
  {rows columns : Nat}

private theorem mem_facts {state : State} {place : Nat × Nat} :
    place ∈ facts fact rows columns state ↔
      (place.1 < rows ∧ place.2 < columns) ∧ fact state place.1 place.2 := by
  classical
  unfold facts
  rw [Finset.mem_filter, Finset.mem_product, Finset.mem_range, Finset.mem_range]

private theorem card_facts_le (state : State) : (facts fact rows columns state).card ≤ rows * columns := by
  classical
  have bound : (facts fact rows columns state).card ≤ (Finset.range rows ×ˢ Finset.range columns).card :=
    Finset.card_filter_le _ _
  rwa [Finset.card_product, Finset.card_range, Finset.card_range] at bound

structure Learns (fact : State → Nat → Nat → Prop) (rows columns : Nat) (before after : State)
    (changed : Bool) : Prop where
  keeps : ∀ row column, fact before row column → fact after row column
  gains : changed = true → ∃ row column, row < rows ∧ column < columns ∧
    ¬ fact before row column ∧ fact after row column
  rests : changed = false → after = before

theorem Learns.refl (fact : State → Nat → Nat → Prop) (rows columns : Nat) (state : State) :
    Learns fact rows columns state state false where
  keeps _ _ known := known
  gains impossible := by cases impossible
  rests _ := rfl

theorem Learns.trans {first second third : State} {earlier later : Bool}
    (before : Learns fact rows columns first second earlier)
    (after : Learns fact rows columns second third later) :
    Learns fact rows columns first third (earlier || later) where
  keeps row column known := after.keeps row column (before.keeps row column known)
  gains news := by
    rcases Bool.or_eq_true_iff.mp news with one | two
    · obtain ⟨row, column, rowLt, columnLt, unknown, known⟩ := before.gains one
      exact ⟨row, column, rowLt, columnLt, unknown, after.keeps row column known⟩
    · obtain ⟨row, column, rowLt, columnLt, unknown, known⟩ := after.gains two
      exact ⟨row, column, rowLt, columnLt, fun old => unknown (before.keeps row column old), known⟩
  rests quiet := by
    obtain ⟨one, two⟩ := Bool.or_eq_false_iff.mp quiet
    rw [after.rests two, before.rests one]

/-- What a part of a round does to a state and to the flag that says whether there were news so far. If the
part has no news, then there is nothing left for it to do. -/
structure Progress (holds : State → Prop) (fact : State → Nat → Nat → Prop) (rows columns : Nat)
    (done : State → Prop) (before after : State × Bool) : Prop where
  holds : holds after.1
  exists_news : ∃ news, after.2 = (before.2 || news) ∧ Learns fact rows columns before.1 after.1 news ∧
    (news = false → done before.1)

theorem Progress.idle {holds done : State → Prop} {state : State × Bool} (holding : holds state.1)
    (finished : done state.1) : Progress holds fact rows columns done state state where
  holds := holding
  exists_news := ⟨false, (Bool.or_false _).symm, .refl _ _ _ _, fun _ => finished⟩

theorem Progress.imp {holds done finished : State → Prop} {before after : State × Bool}
    (progress : Progress holds fact rows columns done before after)
    (implies : done before.1 → finished before.1) :
    Progress holds fact rows columns finished before after where
  holds := progress.holds
  exists_news := by
    obtain ⟨news, flag, learns, here⟩ := progress.exists_news
    exact ⟨news, flag, learns, fun quiet => implies (here quiet)⟩

theorem Progress.trans {holds first second : State → Prop} {before middle after : State × Bool}
    (one : Progress holds fact rows columns first before middle)
    (two : Progress holds fact rows columns second middle after) :
    Progress holds fact rows columns (fun state => first state ∧ second state) before after where
  holds := two.holds
  exists_news := by
    obtain ⟨news, flag, learns, here⟩ := one.exists_news
    obtain ⟨others, lastFlag, further, there⟩ := two.exists_news
    refine ⟨news || others, ?_, learns.trans further, ?_⟩
    · rw [lastFlag, flag, Bool.or_assoc]
    · intro quiet
      obtain ⟨quietFirst, quietSecond⟩ := Bool.or_eq_false_iff.mp quiet
      exact ⟨here quietFirst, learns.rests quietFirst ▸ there quietSecond⟩

theorem Progress.foldl {α : Type} {holds : State → Prop} {step : State × Bool → α → State × Bool}
    {done : α → State → Prop} :
    ∀ (items : List α), (∀ item, item ∈ items → ∀ before : State × Bool, holds before.1 →
        Progress holds fact rows columns (done item) before (step before item)) →
      ∀ before : State × Bool, holds before.1 →
        Progress holds fact rows columns (fun state => ∀ item, item ∈ items → done item state) before
          (items.foldl step before)
  | [], _each, before, holding => .idle holding (fun item none => by cases none)
  | item :: rest, each, before, holding => by
      have here := each item List.mem_cons_self before holding
      have there := Progress.foldl rest
        (fun other member => each other (List.mem_cons_of_mem item member)) (step before item) here.holds
      apply (here.trans there).imp
      rintro ⟨first, others⟩ other member
      rcases List.mem_cons.mp member with rfl | later
      · exact first
      · exact others other later

private theorem Learns.card_lt {before after : State} (learns : Learns fact rows columns before after true) :
    (facts fact rows columns before).card < (facts fact rows columns after).card := by
  obtain ⟨row, column, rowLt, columnLt, unknown, known⟩ := learns.gains rfl
  apply Finset.card_lt_card
  apply Finset.ssubset_iff_subset_ne.mpr
  constructor
  · intro place member
    obtain ⟨bounds, old⟩ := mem_facts.mp member
    exact mem_facts.mpr ⟨bounds, learns.keeps _ _ old⟩
  · intro same
    have present : (row, column) ∈ facts fact rows columns after := mem_facts.mpr ⟨⟨rowLt, columnLt⟩, known⟩
    rw [← same] at present
    exact unknown (mem_facts.mp present).2

/-- A round that has news comes closer to the end, and one that has none is the last. What is so of the last
round, and of a round that is followed by a shorter run, is so of every run with a round more than there are
facts to learn. -/
private theorem saturation_induction {holds done : State → Prop}
    (progress : ∀ state, holds state →
      Progress holds fact rows columns done (state, false) (round state))
    {motive : Nat → State → Prop}
    (more : ∀ rounds state, holds state → (round state).2 = true → motive rounds (round state).1 →
      motive (rounds + 1) state)
    (last : ∀ rounds state, holds state → done state → round state = (state, false) →
      motive (rounds + 1) state)
    {initial : State} (initially : holds initial) : motive (rows * columns + 1) initial := by
  have rest : ∀ (rounds : Nat) (state : State), holds state →
      rows * columns < rounds + (facts fact rows columns state).card → motive rounds state := by
    intro rounds
    induction rounds with
    | zero =>
        intro state _ enough
        have bound : (facts fact rows columns state).card ≤ rows * columns := card_facts_le state
        omega
    | succ rounds ih =>
        intro state holding enough
        obtain ⟨holdsNext, news, flag, learns, finished⟩ := progress state holding
        rw [Bool.false_or] at flag
        cases news with
        | true =>
            have gained := learns.card_lt
            dsimp only at gained
            exact more rounds state holding flag (ih _ holdsNext (by omega))
        | false => exact last rounds state holding (finished rfl) (Prod.ext (learns.rests rfl) flag)
  exact rest _ initial initially (by omega)

theorem saturate_done {holds done : State → Prop}
    (progress : ∀ state, holds state →
      Progress holds fact rows columns done (state, false) (round state))
    {initial : State} (initially : holds initial) :
    holds (saturate round (rows * columns + 1) initial) ∧
      done (saturate round (rows * columns + 1) initial) := by
  refine saturation_induction
    (motive := fun rounds state => holds (saturate round rounds state) ∧ done (saturate round rounds state))
    progress ?_ ?_ initially
  · intro rounds state _ changed later
    unfold saturate
    dsimp only
    rwa [if_pos changed]
  · intro rounds state holding finished quiet
    unfold saturate
    dsimp only
    rw [quiet, if_neg Bool.false_ne_true]
    exact ⟨holding, finished⟩

/-- What is left to do when a round without news ends a run: nothing, and another round has no news either. -/
theorem Progress.rests {holds done : State → Prop} {state : State}
    (progress : Progress holds fact rows columns done (state, false) (round state)) :
    Progress holds fact rows columns (fun state => done state ∧ round state = (state, false)) (state, false)
      (round state) where
  holds := progress.holds
  exists_news := by
    obtain ⟨news, flag, learns, finished⟩ := progress.exists_news
    refine ⟨news, flag, learns, fun quiet => ⟨finished quiet, ?_⟩⟩
    subst quiet
    exact Prod.ext (learns.rests rfl) flag

/-- Repeats a round that may break off until it reports no change, and gives up after so many rounds. -/
def saturateWithin (round : State → Except Fault (State × Bool)) : Nat → State → Except Fault State
  | 0, _ => .error .outOfFuel
  | rounds + 1, state => do
      let (next, changed) ← round state
      if changed then saturateWithin round rounds next else return next

/-- Rounds that do not break off come to rest before the run is given up. -/
theorem saturateWithin_eq {holds done : State → Prop}
    (progress : ∀ state, holds state →
      Progress holds fact rows columns done (state, false) (round state))
    {checked : State → Except Fault (State × Bool)}
    (agrees : ∀ state, holds state → checked state = .ok (round state))
    {initial : State} (initially : holds initial) :
    saturateWithin checked (rows * columns + 1) initial =
      .ok (saturate round (rows * columns + 1) initial) := by
  refine saturation_induction
    (motive := fun rounds state => saturateWithin checked rounds state = .ok (saturate round rounds state))
    progress ?_ ?_ initially
  · intro rounds state holding changed later
    unfold saturateWithin saturate
    rw [agrees state holding, ok_bind]
    dsimp only
    rw [if_pos changed, if_pos changed]
    exact later
  · intro rounds state holding _ quiet
    unfold saturateWithin saturate
    rw [agrees state holding, ok_bind, quiet]
    rfl

/-- What is known can be measured: no fact is lost while the measure stays, and news add to it. -/
theorem exists_measure (fact : State → Nat → Nat → Prop) (rows columns : Nat) : ∃ known : State → Nat,
    (∀ state, known state ≤ rows * columns) ∧
    ∀ before after changed, Learns fact rows columns before after changed →
      known before + changed.toNat ≤ known after := by
  refine ⟨fun state => (facts fact rows columns state).card, card_facts_le, ?_⟩
  rintro before after (_ | _) learns
  · rw [learns.rests rfl]
    exact Nat.le_refl _
  · exact learns.card_lt

end

end IncrementalParsing
