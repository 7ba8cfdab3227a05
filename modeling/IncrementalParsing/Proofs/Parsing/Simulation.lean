import IncrementalParsing.Proofs.Parsing.States

/-!
Simulations of the automaton. Before recovery goes on with a token it simulates the automaton on states alone,
through the reductions that the token asks for. A simulation that ends is unique, and it is what the search for
a repair computes as far as it is given steps enough.
-/

namespace IncrementalParsing

/-- Productions that are reduced one after the other, each with the state that it leads to. -/
abbrev Reductions := List (ProductionId × StateId)

/-- A simulation of the automaton on some states, through reductions up to states in which it consumes a
terminal. -/
inductive Table.Simulates (table : Table) (terminal : KindId) :
    List StateId → Reductions → List StateId → Prop
  | consumes {states : List StateId} : Recovery.Consumes (table.actionOn terminal states) →
      Simulates table terminal states [] states
  | reduces {states below last : List StateId} {top next : StateId} {id : ProductionId}
      {production : ProductionInfo} {more : Reductions} :
      table.actionOn terminal states = .reduce id → table.production id = .ok production →
      states.drop production.length = top :: below → table.goto top production.lhs = some next →
      Simulates table terminal (next :: top :: below) more last →
      Simulates table terminal states ((id, next) :: more) last

def Table.Continues (table : Table) (terminal : KindId) (states : List StateId) : Prop :=
  ∃ reductions last, table.Simulates terminal states reductions last

theorem Recovery.Consumes.shift_or_accept {action : Action} (consumed : Consumes action) :
    (∃ target, action = .shift target) ∨ action = .accept := by
  cases action with
  | shift target => exact Or.inl ⟨target, rfl⟩
  | accept => exact Or.inr rfl
  | error => exact consumed.elim
  | reduce id => exact consumed.elim

section

variable {table : Table} {terminal : KindId}

theorem Table.Simulates.unique {states last : List StateId} {reductions : Reductions}
    (simulates : table.Simulates terminal states reductions last) : ∀ {others : Reductions} {final : List StateId},
    table.Simulates terminal states others final → reductions = others ∧ last = final := by
  induction simulates with
  | consumes consumed =>
      intro others final again
      cases again with
      | consumes _ => exact ⟨rfl, rfl⟩
      | reduces acts =>
          rw [acts] at consumed
          exact consumed.elim
  | reduces acts found left goes _ ih =>
      intro others final again
      cases again with
      | consumes consumed =>
          rw [acts] at consumed
          exact consumed.elim
      | reduces otherActs otherFound otherLeft otherGoes further =>
          cases acts.symm.trans otherActs
          cases found.symm.trans otherFound
          cases left.symm.trans otherLeft
          cases goes.symm.trans otherGoes
          obtain ⟨same, lastSame⟩ := ih further
          exact ⟨congrArg _ same, lastSame⟩

namespace Recovery

theorem canContinueFrom_succ (limit : Nat) (states : List StateId) :
    canContinueFrom table terminal (limit + 1) states =
      match table.actionOn terminal states with
      | .shift _ => .ok true
      | .accept => .ok true
      | .error => .ok false
      | .reduce id => (do
          let production ← table.production id
          match states.drop production.length with
          | [] => return false
          | top :: below =>
              match table.goto top production.lhs with
              | some next => canContinueFrom table terminal limit (next :: top :: below)
              | none => return false) := rfl

theorem canContinueFrom_of_consumes (limit : Nat) {states : List StateId}
    (consumed : Consumes (table.actionOn terminal states)) :
    canContinueFrom table terminal (limit + 1) states = .ok true := by
  rw [canContinueFrom_succ]
  rcases consumed.shift_or_accept with ⟨target, acts⟩ | acts <;> rw [acts]

theorem canContinueFrom_of_reduces (limit : Nat) {states below : List StateId} {top next : StateId}
    {id : ProductionId} {production : ProductionInfo} (acts : table.actionOn terminal states = .reduce id)
    (found : table.production id = .ok production) (left : states.drop production.length = top :: below)
    (goes : table.goto top production.lhs = some next) :
    canContinueFrom table terminal (limit + 1) states =
      canContinueFrom table terminal limit (next :: top :: below) := by
  rw [canContinueFrom_succ, acts]
  dsimp only
  rw [found, ok_bind, left]
  dsimp only
  rw [goes]

/-- If there is a simulation, the computation finds it once it has as many steps, and never denies it. -/
theorem canContinueFrom_of_simulates {states last : List StateId} {reductions : Reductions}
    (simulates : table.Simulates terminal states reductions last) : ∀ limit : Nat,
    (reductions.length < limit → canContinueFrom table terminal limit states = .ok true) ∧
      canContinueFrom table terminal limit states ≠ .ok false := by
  induction simulates with
  | consumes consumed =>
      intro limit
      cases limit with
      | zero => exact ⟨fun impossible => absurd impossible (Nat.not_lt_zero _), error_ne_ok⟩
      | succ limit =>
          rw [canContinueFrom_of_consumes limit consumed]
          exact ⟨fun _ => rfl, by simp⟩
  | reduces acts found left goes _ ih =>
      intro limit
      cases limit with
      | zero => exact ⟨fun impossible => absurd impossible (Nat.not_lt_zero _), error_ne_ok⟩
      | succ limit =>
          rw [canContinueFrom_of_reduces limit acts found left goes]
          exact ⟨fun short => (ih limit).1 (Nat.lt_of_succ_lt_succ short), (ih limit).2⟩

/-- The computation answers that the automaton gets on only after it has simulated that. -/
theorem simulates_of_canContinueFrom : ∀ {limit : Nat} {states : List StateId},
    canContinueFrom table terminal limit states = .ok true →
    ∃ reductions last, table.Simulates terminal states reductions last ∧ reductions.length < limit
  | 0, _, impossible => by cases impossible
  | limit + 1, states, continues => by
      cases acts : table.actionOn terminal states with
      | shift target => exact ⟨[], states, .consumes (by rw [acts]; trivial), Nat.succ_pos _⟩
      | accept => exact ⟨[], states, .consumes (by rw [acts]; trivial), Nat.succ_pos _⟩
      | error =>
          rw [canContinueFrom_succ, acts] at continues
          cases continues
      | reduce id =>
          rw [canContinueFrom_succ, acts] at continues
          obtain ⟨production, found, continues⟩ := bind_ok.mp continues
          split at continues
          · cases continues
          · rename_i top below left
            split at continues
            · rename_i next goes
              obtain ⟨more, last, simulates, short⟩ := simulates_of_canContinueFrom continues
              exact ⟨(id, next) :: more, last, .reduces acts found left goes simulates, Nat.succ_lt_succ short⟩
            · cases continues

end Recovery

end

end IncrementalParsing
