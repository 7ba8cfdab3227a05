import IncrementalParsing.Proofs.Parsing.Prospect

/-!
Trees that recall their texts. What recovery removes is put into error nodes as it is, so the stack stays known;
nothing is expected after such a node. The children of a root are what was on the stack at the end, and so the
tree of every run recalls its text, whether there was an old tree or not.
-/

namespace IncrementalParsing

open Green

/-! ### Error nodes -/

namespace Recovery

variable {job : Job} {position stop : Nat} {lookahead : LexedToken} {tokens : List LexedToken}

theorem leaves_append (serial : Nat) (left right : List LexedToken) :
    leaves serial (left ++ right) = leaves serial left ++ leaves (serial + left.length) right := by
  unfold leaves
  rw [List.zipIdx_append, List.map_append]

theorem Skippable.recalls (sound : job.Sound) (reports : job.Reports) (inside : position ≤ job.text.size)
    (lexed : job.lex position lookahead.lexMode = .ok lookahead)
    (skippable : Skippable job position lookahead tokens stop) (serial : Nat) :
    job.RecallsAll position (loose (leaves serial tokens)) := by
  have alone : ∀ {start : Nat} {mode : LexMode} {token : LexedToken} (serial : Nat), start ≤ job.text.size →
      job.lex start mode = .ok token → job.RecallsAll start (loose (leaves serial [token])) := by
    intro start mode token serial within read
    have same := (Job.lex_fits sound within read).mode_eq
    refine Job.recallsAll_cons.mpr ⟨Job.recalls_token.mpr ?_, Job.recallsAll_nil⟩
    exact Job.Lexes.of_lex sound reports within (by rw [← same] at read; exact read) serial
  have here : lookahead.FitsAt job.table job.text position := (Job.lex_fits sound inside lexed).at
  induction skippable with
  | none => exact Job.recallsAll_nil
  | lookahead => exact alone serial inside lexed
  | @more tokens stop token before _ read _ ih =>
      have tile := before.tile sound inside here
      rw [leaves_append, loose_append, Job.recallsAll_append]
      refine ⟨ih, ?_⟩
      have length : position + lengthOf (loose (leaves serial tokens)) = stop := by
        rw [← (leaves_fit tile serial).1]
        congr 1
        induction leaves serial tokens with
        | nil => rfl
        | cons element rest later => rw [loose_cons, lengthOf_cons, later, lengthOfElements_cons]
      rw [length]
      exact alone _ (tile.bounds.2 inside) read

theorem recalls_errorNode (sound : job.Sound) {elements : List Element} {offset : Nat}
    (each : ∀ element, element ∈ elements → element.Sound job.table) (recalls : job.RecallsAll offset (loose elements))
    (serial : Nat) (state : StateId) (decisionEnd : Nat) :
    job.Recalls ⟨offset, (ParseStack.errorNode job.table serial elements state decisionEnd).element⟩ := by
  have numbered : job.table.Numbered := sound.table
  refine Job.recalls_node.mpr ⟨⟨⟨fun repeats => absurd rfl (numbered.ne_error_of_repeat repeats), fun impossible => ?_⟩,
    fun _ intact => ?_, fun impossible => ?_, fun impossible => ?_⟩, Job.recallsAll_errorChildren _ _ each recalls⟩
  · exact absurd impossible (Nat.lt_irrefl 0)
  · cases intact.1
  · exact absurd impossible (Nat.lt_irrefl 0)
  · exact absurd impossible (Nat.lt_irrefl 0)

theorem Wraps.known {machine next : Machine} {popped : Nat} {skipped : List LexedToken} (sound : job.Sound)
    (fits : machine.Fits job) (known : machine.stack.Known job) (wraps : Wraps job machine next popped skipped)
    (recalls : job.RecallsAll machine.position (loose (leaves machine.nextSerial skipped)))
    (each : ∀ element, element ∈ leaves machine.nextSerial skipped → element.Sound job.table) :
    next.stack.Known job ∧ (∀ ahead, next.stack.Expects job ahead) ∧ ∀ mode, next.stack.Dues job.table mode := by
  obtain ⟨serial, decisionEnd, stackIs⟩ := wraps.stack_eq
  dsimp only at stackIs
  generalize leftIs : (machine.stack.drop popped).dropWhile (·.extra) = left at stackIs
  generalize removedIs : machine.stack.take popped ++ (machine.stack.drop popped).takeWhile (·.extra) = removed
    at stackIs
  have shape : machine.stack = removed ++ left := by
    rw [← leftIs, ← removedIs, List.append_assoc, List.takeWhile_append_dropWhile, List.take_append_drop]
  have follows := fits.follows
  have stackSound := fits.sound
  have position := fits.stop_eq
  rw [shape] at follows stackSound known position
  rw [follows.stop_append removed left] at position
  have inner : job.RecallsAll (ParseStack.stop left)
      (loose (removed.reverse.map (·.element) ++ leaves machine.nextSerial skipped)) := by
    rw [loose_append, Job.recallsAll_append]
    refine ⟨known.contents removed follows, ?_⟩
    have length : lengthOf (loose (removed.reverse.map (·.element))) = totalLength removed :=
      (lengthOf_contents removed.reverse).trans (totalLength_reverse removed)
    rw [length, position]
    exact recalls
  rw [stackIs]
  refine ⟨(ParseStack.Known.lower removed known).pushExtra (recalls_errorNode sound ?_ inner _ _ _) rfl,
    fun ahead => .of_extra rfl, fun _ plain => by cases plain⟩
  intro element member
  rcases List.mem_append.mp member with before | after
  · obtain ⟨entry, among, rfl⟩ := List.mem_map.mp before
    exact stackSound entry (List.mem_append_left _ (List.mem_reverse.mp among))
  · exact each element after

end Recovery

/-! ### Roots -/

namespace Machine

variable {job : Job}

theorem recallsAll_gathered : ∀ stack : ParseStack, stack.Follows job.table → ParseStack.Sound job.table stack →
    stack.Known job → job.RecallsAll 0 (gathered stack).2
  | [], _, _, _ => Job.recallsAll_nil
  | entry :: below, follows, sound, known => by
      have place : entry.offset = 0 + lengthOf (gathered below).2 := by
        have whole := ParseStack.Follows.stop_append below [] (below.append_nil.symm ▸ follows.tail)
        rw [follows.rests.offset_eq, lengthOf_gathered below sound.tail]
        rw [List.append_nil] at whole
        exact whole
      have before := recallsAll_gathered below follows.tail sound.tail known.tail
      have here := known.here.recalls
      rw [place] at here
      rw [gathered_cons]
      split
      · rename_i head inner extra shape
        rw [shape] at here
        exact Job.recallsAll_append.mpr ⟨before, here.inside⟩
      · exact Job.recallsAll_append.mpr ⟨before, Job.recallsAll_cons.mpr ⟨here, Job.recallsAll_nil⟩⟩

theorem recallsAll_end {position : Nat} {token : LexedToken} (sound : job.Sound) (reports : job.Reports)
    (inside : position ≤ job.text.size) (lexed : job.lex position token.lexMode = .ok token) (serial : Nat) :
    job.RecallsAll position (ParseStack.endChild (endToken token serial)) := by
  unfold endToken
  split
  · exact Job.recallsAll_nil
  · exact Job.recallsAll_cons.mpr
      ⟨Job.recalls_token.mpr (Job.Lexes.of_lex sound reports inside lexed serial), Job.recallsAll_nil⟩

section Steps

variable {prior : Job} {machine : Machine} {items : StateId → Lalr.Item → Prop}
  (chart : job.table.Chart items) (accepted : job.language.Accepted) (first : job.table.JoinsFirst)
  (reports : job.Reports) (priorReports : prior.Reports) (language : job.language = prior.language)

include accepted reports

theorem Considers.recover {token : LexedToken} (considers : machine.Considers prior job (.lexed token)) {next : Machine}
    (done : Recovery.recover job machine token = .ok (.inl next)) : next.Foresees prior job := by
  have sound := accepted.sound
  have fits := considers.fits
  have lexed : job.lex machine.position token.lexMode = .ok token := considers.foreseen
  have here : token.FitsAt job.table job.text machine.position := (Job.lex_fits sound fits.inside lexed).at
  have picks := Recovery.recover_picks sound fits considers.idle here done
  obtain ⟨reuse, _⟩ := reuse_of_recover considers.idle done
  have known : ∀ {popped stop : Nat} {skipped : List LexedToken}, Recovery.Wraps job machine next popped skipped →
      Recovery.Skippable job machine.position token skipped stop →
      next.stack.Known job ∧ (∀ ahead, next.stack.Expects job ahead) ∧ ∀ mode, next.stack.Dues job.table mode := by
    intro popped stop skipped wraps skippable
    exact wraps.known sound fits considers.foresees.known
      (skippable.recalls sound reports fits.inside lexed machine.nextSerial)
      (Recovery.leaves_fit (skippable.tile sound fits.inside here) machine.nextSerial).2
  generalize answerIs : Sum.inl next = answer at picks
  cases picks with
  | @resumes repair after feasible _ wraps pending mode =>
      cases answerIs
      obtain ⟨stop, skippable, resumes⟩ := feasible.resumes
      obtain ⟨stackKnown, expects, dues⟩ := known wraps skippable
      have place : next.position = stop := wraps.position_eq.trans skippable.stop_eq.symm
      have inside : stop ≤ job.text.size := (skippable.tile sound fits.inside here).bounds.2 fits.inside
      have same := (Job.lex_fits sound inside resumes).mode_eq
      refine ⟨stackKnown, fun fresh _ => expects _, dues _, ?_, reuse ▸ considers.foresees.reuse⟩
      intro lookahead waiting
      cases pending.symm.trans waiting
      refine ⟨mode, ?_⟩
      rw [place]
      rw [← same] at resumes
      exact resumes
  | skips _ proper wraps pending mode =>
      cases answerIs
      obtain ⟨stackKnown, expects, dues⟩ := known wraps (.lookahead proper)
      exact ⟨stackKnown, fun fresh _ => expects _, dues _, fun _ waiting => (by cases pending.symm.trans waiting),
        reuse ▸ considers.foresees.reuse⟩
  | ends => cases answerIs

theorem Considers.root {lookahead : Lookahead} (considers : machine.Considers prior job lookahead) {root : Node}
    (responds : machine.Responds job lookahead (.inr root)) : job.RecallsAll 0 root.children := by
  have sound := accepted.sound
  have fits := considers.fits
  have whole := stop_whole fits
  generalize answerIs : Sum.inr root = answer at responds
  cases responds with
  | @accept token acts =>
      cases answerIs
      change job.RecallsAll 0 ((gathered machine.stack).2 ++ _)
      refine Job.recallsAll_append.mpr
        ⟨recallsAll_gathered machine.stack fits.follows fits.sound considers.foresees.known, ?_⟩
      rw [Nat.zero_add, lengthOf_gathered machine.stack fits.sound, whole]
      exact recallsAll_end sound reports fits.inside considers.foreseen _
  | @recover token _ acts done =>
      have lexed : job.lex machine.position token.lexMode = .ok token := considers.foreseen
      have here : token.FitsAt job.table job.text machine.position := (Job.lex_fits sound fits.inside lexed).at
      have picks := Recovery.recover_picks sound fits considers.idle here done
      rw [← answerIs] at picks
      generalize endIs : Sum.inr root = last at picks
      cases picks with
      | ends _ _ _ children =>
          cases endIs
          rw [children, ← List.flatMap_map]
          have shape : machine.stack ++ [] = machine.stack := List.append_nil _
          have elementsSound : ∀ element, element ∈ machine.stack.reverse.map (·.element) →
              element.Sound job.table := by
            intro element member
            obtain ⟨entry, among, rfl⟩ := List.mem_map.mp member
            exact fits.sound entry (List.mem_reverse.mp among)
          have contents := @ParseStack.Known.contents job job.table machine.stack []
            (shape.symm ▸ fits.follows) (shape.symm ▸ considers.foresees.known)
          refine Job.recallsAll_append.mpr ⟨Job.recallsAll_errorChildren _ _ elementsSound contents, ?_⟩
          have length : lengthOf ((machine.stack.reverse.map (·.element)).flatMap
              (splicedIntoError job.table)) = machine.position := by
            refine ((Recovery.errorNode_fits sound.table 0 0 .start elementsSound).2 : lengthOf _ = _).trans ?_
            rw [Recovery.lengthOfElements_entries, totalLength_reverse, whole]
          rw [Nat.zero_add, length]
          exact recallsAll_end sound reports fits.inside lexed _
      | resumes => cases endIs
      | skips => cases endIs
  | reduce => cases answerIs
  | shift => cases answerIs
  | shiftReused => cases answerIs
  | push => cases answerIs
  | enter => cases answerIs
  | lex => cases answerIs

include chart first

theorem Considers.next {lookahead : Lookahead} (considers : machine.Considers prior job lookahead) {next : Machine}
    (responds : machine.Responds job lookahead (.inl next)) (after : next.Fits job) : next.Foresees prior job := by
  generalize answerIs : Sum.inl next = answer at responds
  cases responds with
  | reduce acts reduced =>
      cases answerIs
      exact considers.reduce chart accepted first reports acts reduced
  | shift acts =>
      cases answerIs
      exact considers.shift accepted first reports rfl acts after
  | shiftReused acts =>
      cases answerIs
      exact considers.shiftReused accepted first reports rfl acts after
  | push acts begun goes =>
      cases answerIs
      exact considers.push accepted first reports rfl acts begun goes rfl rfl after.inside rfl considers.idle rfl
  | enter =>
      cases answerIs
      exact considers.foresees.descend
  | lex lexed =>
      cases answerIs
      exact considers.lex accepted rfl lexed
  | accept => cases answerIs
  | recover acts done =>
      cases answerIs
      exact considers.recover accepted reports done

include priorReports language

theorem Foresees.step {next : Machine} (fits : machine.Fits job) (foresees : machine.Foresees prior job)
    (done : machine.step job = .ok (.inl next)) : next.Foresees prior job := by
  obtain ⟨lookahead, ahead, looked, responds⟩ := step_responds done
  exact (foresees.considers accepted reports priorReports language fits looked).next chart accepted first reports
    responds (step_fits accepted.sound fits done)

theorem run_recalls (fuel : Nat) {root : Node} (fits : machine.Fits job) (foresees : machine.Foresees prior job)
    (done : run job fuel machine = .ok root) : job.RecallsAll 0 root.children := by
  refine run_induction (fun machine => machine.Fits job ∧ machine.Foresees prior job)
    (fun root => job.RecallsAll 0 root.children) ?_ ?_ fuel ⟨fits, foresees⟩ done
  · rintro machine next ⟨fits, foresees⟩ stepped
    exact ⟨step_fits accepted.sound fits stepped,
      foresees.step chart accepted first reports priorReports language fits stepped⟩
  · rintro machine root ⟨fits, foresees⟩ stepped
    obtain ⟨lookahead, ahead, looked, responds⟩ := step_responds stepped
    exact (foresees.considers accepted reports priorReports language fits looked).root accepted reports responds

end Steps

end Machine

end IncrementalParsing
