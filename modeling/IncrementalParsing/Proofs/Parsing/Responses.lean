import IncrementalParsing.Parsing.Parser
import IncrementalParsing.Proofs.Outcome

/-!
What a step can do. A machine looks ahead, to what it has looked at already, to an element of the old tree or
to a fresh token. Then it reduces, shifts what is ahead, pushes a node of the old tree or looks at its children,
lexes in place of an old token, accepts or recovers. What steps keep is shown for each of these.
-/

namespace IncrementalParsing

open Green

namespace Recovery

variable {job : Job} {machine : Machine} {lookahead : LexedToken}

/-- What recovery answers: the machine after the repair that the search finds or, where it finds none, without
the lookahead. -/
inductive Answers (job : Job) (machine : Machine) (lookahead : LexedToken) : Machine ⊕ Node → Prop
  | resumes {repair : Repair} : cheapest? job machine lookahead = .ok (some repair) →
      Answers job machine lookahead (.inl (apply job machine repair))
  | skips : cheapest? job machine lookahead = .ok none → lookahead.kind ≠ .endOfInput →
      Answers job machine lookahead (.inl
        { pushError job { machine with position := lookahead.stop, nextSerial := machine.nextSerial + 1 }
            (leaves machine.nextSerial [lookahead]) lookahead.examinedEnd with
          mode := none })
  | ends : cheapest? job machine lookahead = .ok none → lookahead.kind = .endOfInput →
      Answers job machine lookahead (.inr (machine.stack.toErrorRoot job.table (machine.nextSerial + 1)
        (Machine.endToken lookahead machine.nextSerial)))

theorem recover_answers {answer : Machine ⊕ Node} (done : recover job machine lookahead = .ok answer) :
    Answers job machine lookahead answer := by
  unfold recover at done
  obtain ⟨found, searched, done⟩ := bind_ok.mp done
  cases found with
  | some repair =>
      cases pure_ok.mp done
      exact .resumes searched
  | none =>
      cases pure_ok.mp done
      unfold giveUp
      split
      · rename_i ended
        exact .ends searched ended
      · rename_i proper
        exact .skips searched proper

end Recovery

namespace Machine

/-- Where a lookahead comes from, with the machine that has it ahead. -/
inductive Sees (job : Job) (machine : Machine) : Lookahead → Machine → Prop
  | waiting {lookahead : Lookahead} : machine.pending = some lookahead →
      Sees job machine lookahead { machine with pending := none }
  | offered {element : Element} {first : Green.Token} : machine.pending = none →
      ({ machine with mode := some (machine.dueMode job.table) } : Machine).offer.1 = some element →
      element.firstToken? = some first →
      (first.lexMode = machine.dueMode job.table ∨ ∃ token,
        job.lex machine.position (machine.dueMode job.table) = .ok token ∧
          confirms machine.position token first = true) →
      Sees job machine (.reused element (machine.dueMode job.table))
        ({ machine with mode := some (machine.dueMode job.table) } : Machine).offer.2
  | lexed {token : LexedToken} : machine.pending = none →
      job.lex machine.position (machine.dueMode job.table) = .ok token →
      Sees job machine (.lexed token)
        ({ machine with mode := some (machine.dueMode job.table) } : Machine).offer.2

theorem lookahead_sees {job : Job} {machine next : Machine} {lookahead : Lookahead}
    (done : machine.lookahead job = .ok (lookahead, next)) : machine.Sees job lookahead next := by
  unfold Machine.lookahead at done
  split at done
  · rename_i waiting here
    cases done
    exact .waiting here
  · rename_i idle
    unfold nextLookahead at done
    dsimp only at done
    split at done
    · rename_i element first here begins
      rw [here] at begins
      split at done
      · rename_i same
        cases pure_ok.mp done
        exact .offered idle here begins (Or.inl same)
      · obtain ⟨token, lexed, done⟩ := bind_ok.mp done
        split at done
        · rename_i confirmed
          cases pure_ok.mp done
          exact .offered idle here begins (Or.inr ⟨token, lexed, confirmed⟩)
        · cases pure_ok.mp done
          exact .lexed idle lexed
    · obtain ⟨token, lexed, done⟩ := bind_ok.mp done
      cases pure_ok.mp done
      exact .lexed idle lexed

theorem reduce_ok {job : Job} {machine next : Machine} {id : ProductionId} {lookahead : Lookahead} :
    machine.reduce job id lookahead = .ok next ↔ ∃ production stack,
      job.table.production id = .ok production ∧
      machine.stack.reduce job.table machine.nextSerial production
        (lookahead.examinedEnd machine.position) lookahead.lexMode = .ok stack ∧
      next = { machine with
        stack
        pending := some lookahead
        nextSerial := machine.nextSerial + 1 } := by
  unfold Machine.reduce
  constructor
  · intro done
    obtain ⟨production, found, done⟩ := bind_ok.mp done
    obtain ⟨stack, reduced, done⟩ := bind_ok.mp done
    exact ⟨production, stack, found, reduced, (pure_ok.mp done).symm⟩
  · rintro ⟨production, stack, found, reduced, rfl⟩
    exact bind_ok.mpr ⟨production, found, bind_ok.mpr ⟨stack, reduced, rfl⟩⟩

inductive Responds (job : Job) (machine : Machine) : Lookahead → Machine ⊕ Node → Prop
  | reduce {lookahead : Lookahead} {id : ProductionId} {next : Machine} :
      job.table.action machine.stack.state lookahead.kind = .reduce id →
      machine.reduce job id lookahead = .ok next → Responds job machine lookahead (.inl next)
  | shift {token : LexedToken} {target : StateId} :
      job.table.action machine.stack.state token.kind = .shift target →
      Responds job machine (.lexed token) (.inl (machine.shiftToken target token))
  | shiftReused {leaf : Green.Token} {mode : LexMode} {target : StateId} :
      job.table.action machine.stack.state leaf.kind = .shift target →
      Responds job machine (.reused (.token leaf) mode) (.inl (machine.shiftReused target leaf))
  | push {node : Node} {mode : LexMode} {state target : StateId} :
      job.table.action machine.stack.state (Lookahead.reused node.element mode).kind = .shift state →
      node.info.preState = machine.stack.state → job.table.goto machine.stack.state node.kind = some target →
      Responds job machine (.reused node.element mode) (.inl { machine with
        stack := machine.stack.push target node.element
        position := machine.position + node.textLength
        mode := some node.info.nextLexMode })
  | enter {node : Node} {mode : LexMode} :
      Responds job machine (.reused node.element mode) (.inl machine.descend)
  | lex {leaf : Green.Token} {mode : LexMode} {token : LexedToken} : job.lex machine.position mode = .ok token →
      Responds job machine (.reused (.token leaf) mode) (.inl { machine with pending := some (.lexed token) })
  | accept {token : LexedToken} : job.table.action machine.stack.state token.kind = .accept →
      Responds job machine (.lexed token) (.inr (machine.stack.toRoot job.table (machine.nextSerial + 1)
        (endToken token machine.nextSerial)))
  | recover {token : LexedToken} {answer : Machine ⊕ Node} :
      job.table.action machine.stack.state token.kind = .error →
      Recovery.recover job machine token = .ok answer → Responds job machine (.lexed token) answer

theorem step_responds {job : Job} {machine : Machine} {answer : Machine ⊕ Node}
    (done : machine.step job = .ok answer) : ∃ lookahead next,
      machine.lookahead job = .ok (lookahead, next) ∧ Responds job next lookahead answer := by
  unfold step at done
  obtain ⟨⟨lookahead, next⟩, looked, done⟩ := bind_ok.mp done
  refine ⟨lookahead, next, looked, ?_⟩
  dsimp only at done
  split at done
  · rename_i acts
    obtain ⟨reduced, reduces, done⟩ := bind_ok.mp done
    cases pure_ok.mp done
    exact .reduce acts reduces
  · rename_i acts
    cases pure_ok.mp done
    exact .shift acts
  · rename_i leaf mode acts
    cases pure_ok.mp done
    exact .shiftReused acts
  · rename_i head children mode acts
    cases pure_ok.mp done
    unfold pushReused
    dsimp only
    split
    · rename_i begun
      split
      · rename_i target goes
        exact @Responds.push _ _ ⟨head, children⟩ _ _ _ acts begun goes
      · exact @Responds.enter _ _ ⟨head, children⟩ _
    · exact @Responds.enter _ _ ⟨head, children⟩ _
  · rename_i acts
    cases pure_ok.mp done
    exact .accept acts
  · rename_i acts
    exact .recover acts done
  · rename_i head children mode _ _
    cases pure_ok.mp done
    exact @Responds.enter _ _ ⟨head, children⟩ _
  · rename_i leaf mode _ _
    obtain ⟨token, lexed, done⟩ := bind_ok.mp done
    cases pure_ok.mp done
    exact .lex lexed

end Machine

end IncrementalParsing
