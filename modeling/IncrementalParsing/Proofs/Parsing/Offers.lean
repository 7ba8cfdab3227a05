import IncrementalParsing.Proofs.Parsing.Responses
import IncrementalParsing.Proofs.Parsing.Reuse

/-!
What machines have of the old tree. A machine takes over elements of the old tree as they are, so whatever holds
everywhere in the old tree holds of all that is looked ahead to or yet to come.
-/

namespace IncrementalParsing

open Green

/-- A property that holds everywhere in what a machine has of the old tree and has not pushed yet. -/
structure Machine.Offers (holds : Element → Prop) (machine : Machine) : Prop where
  pending : ∀ element mode, machine.pending = some (.reused element mode) → element.Everywhere holds
  reuse : ∀ cursor, machine.reuse = some cursor → cursor.Everywhere holds

namespace Machine.Offers

variable {job : Job} {machine : Machine} {holds : Element → Prop}

theorem offer (offers : machine.Offers holds) : machine.offer.2.Offers holds ∧
    ∀ element, machine.offer.1 = some element → element.Everywhere holds := by
  unfold Machine.offer
  split
  · exact ⟨offers, fun _ none => by cases none⟩
  · rename_i cursor here
    obtain ⟨kept, found⟩ := (offers.reuse cursor here).candidate machine.position
    refine ⟨⟨offers.pending, ?_⟩, found⟩
    intro other same
    cases same
    exact kept

theorem lookahead (offers : machine.Offers holds) {lookahead : Lookahead} {next : Machine}
    (done : machine.lookahead job = .ok (lookahead, next)) :
    (∀ element mode, lookahead = .reused element mode → element.Everywhere holds) ∧ next.Offers holds := by
  have moded : ({ machine with mode := some (machine.dueMode job.table) } : Machine).Offers holds :=
    ⟨offers.pending, offers.reuse⟩
  obtain ⟨kept, offered⟩ := moded.offer
  cases lookahead_sees done with
  | waiting here =>
      exact ⟨fun element mode same => offers.pending element mode (same ▸ here), fun _ _ none => (by cases none),
        offers.reuse⟩
  | offered _ here => exact ⟨fun _ _ same => by cases same; exact offered _ here, kept⟩
  | lexed => exact ⟨fun _ _ same => (by cases same), kept⟩

theorem descend (offers : machine.Offers holds) : machine.descend.Offers holds := by
  refine ⟨offers.pending, ?_⟩
  intro cursor here
  obtain ⟨before, found, rfl⟩ := Option.map_eq_some_iff.mp here
  exact (offers.reuse before found).descend

theorem recover (offers : machine.Offers holds) {token : LexedToken} {next : Machine}
    (done : Recovery.recover job machine token = .ok (.inl next)) : next.Offers holds := by
  cases Recovery.recover_answers done with
  | resumes => exact ⟨fun _ _ same => (by cases same), offers.reuse⟩
  | skips => exact ⟨offers.pending, offers.reuse⟩

theorem step (offers : machine.Offers holds) {next : Machine} (done : machine.step job = .ok (.inl next)) :
    next.Offers holds := by
  obtain ⟨lookahead, ahead, looked, responds⟩ := step_responds done
  obtain ⟨here, kept⟩ := offers.lookahead looked
  cases responds with
  | reduce _ reduces =>
      obtain ⟨production, stack, _, _, rfl⟩ := reduce_ok.mp reduces
      refine ⟨fun element mode same => ?_, kept.reuse⟩
      cases same
      exact here element mode rfl
  | shift => exact ⟨kept.pending, kept.reuse⟩
  | shiftReused => exact ⟨kept.pending, kept.reuse⟩
  | push => exact ⟨kept.pending, kept.reuse⟩
  | enter => exact kept.descend
  | lex => exact ⟨fun _ _ same => (by cases same), kept.reuse⟩
  | recover _ done => exact kept.recover done

end Machine.Offers

end IncrementalParsing
