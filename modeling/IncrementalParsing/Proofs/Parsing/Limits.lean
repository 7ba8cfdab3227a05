import IncrementalParsing.Parsing.Parser
import IncrementalParsing.Proofs.Parsing.Recovery

/-!
Limits on the number of steps. A limit only decides whether a run or a simulation of the automaton answers, and not
what: whatever is answered within a limit is answered within every larger one.
-/

namespace IncrementalParsing

def Carries {α : Type} (computation other : Except Fault α) : Prop :=
  ∀ answer, computation = .ok answer → other = .ok answer

namespace Carries

variable {α β : Type}

theorem refl (computation : Except Fault α) : Carries computation computation := fun _ done => done

theorem bind {first other : Except Fault α} {next after : α → Except Fault β} (firstly : Carries first other)
    (then_ : ∀ middle, Carries (next middle) (after middle)) : Carries (first >>= next) (other >>= after) := by
  intro answer done
  obtain ⟨middle, begun, ended⟩ := bind_ok.mp done
  exact bind_ok.mpr ⟨middle, firstly middle begun, then_ middle answer ended⟩

end Carries

/-- A job in which simulations may take another number of steps. -/
def Job.within (job : Job) (limit : Nat) : Job := { job with stepLimit := limit }

namespace Recovery

theorem canContinueFrom_carries (table : Table) (terminal : KindId) : ∀ {fuel more : Nat} (states : List StateId),
    fuel ≤ more → Carries (canContinueFrom table terminal fuel states) (canContinueFrom table terminal more states)
  | 0, _, _, _ => fun _ done => by cases done
  | fuel + 1, more, states, le => by
      obtain ⟨rest, rfl⟩ : ∃ rest, more = rest + 1 := ⟨more - 1, by omega⟩
      unfold canContinueFrom
      cases table.action (states.head?.getD .start) terminal with
      | shift target => exact .refl _
      | accept => exact .refl _
      | error => exact .refl _
      | reduce id =>
          refine .bind (.refl _) fun production => ?_
          split
          · exact .refl _
          · split
            · exact canContinueFrom_carries table terminal _ (Nat.le_of_succ_le_succ le)
            · exact .refl _

namespace Search

variable {search : Search} {limit : Nat} (le : search.job.stepLimit ≤ limit)

include le

theorem attempt_carries (skips : Skips) (skipped popped : Nat) : Carries (search.attempt skips skipped popped)
    (attempt { search with job := search.job.within limit } skips skipped popped) := by
  refine .bind (.refl _) fun resume => .bind ?_ fun possible => .refl _
  exact canContinueFrom_carries _ _ _ le

theorem tryPopping_carries (skips : Skips) (cost : Nat) : ∀ count popped : Nat,
    Carries (search.tryPopping skips cost count popped)
      (tryPopping { search with job := search.job.within limit } skips cost count popped)
  | 0, _ => .refl _
  | count + 1, popped => by
      unfold tryPopping
      dsimp only
      split
      · exact tryPopping_carries skips cost count (popped + 1)
      · refine .bind (attempt_carries le skips (cost - popped) popped) fun tried => ?_
        cases tried with
        | some repair => exact .refl _
        | none => exact tryPopping_carries skips cost count (popped + 1)

theorem tryCosts_carries : ∀ (count cost : Nat) (skips : Skips), Carries (search.tryCosts count cost skips)
    (tryCosts { search with job := search.job.within limit } count cost skips)
  | 0, _, _ => .refl _
  | count + 1, cost, skips => by
      rw [tryCosts_succ, tryCosts_succ]
      refine .bind (.refl _) fun known => .bind (tryPopping_carries le known cost _ 0) fun tried => ?_
      cases tried with
      | some repair => exact .refl _
      | none => exact tryCosts_carries count (cost + 1) known

end Search

theorem recover_carries {job : Job} {limit : Nat} (le : job.stepLimit ≤ limit) (machine : Machine)
    (token : LexedToken) :
    Carries (recover job machine token) (recover (job.within limit) machine token) := by
  refine .bind (fun found searched => ?_) fun found => .refl _
  obtain ⟨room, done⟩ := cheapest?_ok.mp searched
  exact cheapest?_ok.mpr ⟨room, @Search.tryCosts_carries (searchFor job machine) limit le _ 1 (.start token) found done⟩

end Recovery

namespace Machine

theorem step_carries {job : Job} {limit : Nat} (le : job.stepLimit ≤ limit) (machine : Machine) :
    Carries (machine.step job) (machine.step (job.within limit)) := by
  refine .bind (.refl _) fun looked => ?_
  obtain ⟨lookahead, next⟩ := looked
  have table : (job.within limit).table = job.table := rfl
  dsimp only
  rw [table]
  cases job.table.action next.stack.state lookahead.kind with
  | reduce id => exact .refl _
  | shift target => cases lookahead with
    | lexed token => exact .refl _
    | reused element mode => cases element <;> exact .refl _
  | accept => cases lookahead with
    | lexed token => exact .refl _
    | reused element mode => cases element <;> exact .refl _
  | error => cases lookahead with
    | lexed token => exact Recovery.recover_carries le next token
    | reused element mode => cases element <;> exact .refl _

theorem run_carries {job : Job} {limit : Nat} (le : job.stepLimit ≤ limit) : ∀ {fuel more : Nat} (machine : Machine),
    fuel ≤ more → Carries (run job fuel machine) (run (job.within limit) more machine)
  | 0, _, _, _ => fun _ done => by cases done
  | fuel + 1, more, machine, enough => by
      obtain ⟨rest, rfl⟩ : ∃ rest, more = rest + 1 := ⟨more - 1, by omega⟩
      refine .bind (step_carries le machine) fun answer => ?_
      cases answer with
      | inl next => exact run_carries le next (Nat.le_of_succ_le_succ enough)
      | inr root => exact .refl _

end Machine

end IncrementalParsing
