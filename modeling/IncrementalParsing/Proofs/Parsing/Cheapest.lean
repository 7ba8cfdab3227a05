import IncrementalParsing.Proofs.Parsing.Returns
import IncrementalParsing.Proofs.Parsing.Simulation

/-!
The cheapest repair. A number of tokens to skip and a number of entries to pop are feasible together if the
automaton gets on afterwards. The search tries them by the sum of both numbers and then by the number of entries,
and lexes tokens only as far as it needs them; so what it finds is the least feasible pair in that order, and
where it finds none there is none.
-/

namespace IncrementalParsing

open Green

namespace Recovery

/-! ### Feasible repairs -/

/-- Tokens that can be skipped from a position on, and where they end: the lookahead and then what is lexed in
the mode of recovery one after the other. The end of the input is not among them. -/
inductive Skippable (job : Job) (position : Nat) (lookahead : LexedToken) : List LexedToken → Nat → Prop
  | none : Skippable job position lookahead [] position
  | lookahead : lookahead.kind ≠ .endOfInput → Skippable job position lookahead [lookahead] lookahead.stop
  | more {tokens : List LexedToken} {stop : Nat} {token : LexedToken} :
      Skippable job position lookahead tokens stop → tokens ≠ [] → job.lex stop .error = .ok token →
      token.kind ≠ .endOfInput → Skippable job position lookahead (tokens ++ [token]) token.stop

namespace Repair

def cost (repair : Repair) : Nat := repair.skipped.length + repair.popped

/-- The order in which repairs are preferred. -/
def Precedes (repair other : Repair) : Prop :=
  repair.cost < other.cost ∨ repair.cost = other.cost ∧ repair.popped ≤ other.popped

/-- A repair after which the automaton gets on. -/
structure Feasible (job : Job) (machine : Machine) (lookahead : LexedToken) (repair : Repair) : Prop where
  skipped_le : repair.skipped.length ≤ job.maxSkipped
  popped_le : repair.popped ≤ machine.stack.length
  removes : 1 ≤ repair.cost
  resumes : ∃ stop, Skippable job machine.position lookahead repair.skipped stop ∧
    job.lex stop (job.table.lexMode
      ((ParseStack.states (machine.stack.drop repair.popped)).head?.getD .start)) = .ok repair.resume
  continues : job.table.Continues repair.resume.kind (ParseStack.states (machine.stack.drop repair.popped))

end Repair

namespace Skippable

variable {job : Job} {position stop : Nat} {lookahead : LexedToken} {tokens : List LexedToken}

theorem stop_eq (skippable : Skippable job position lookahead tokens stop) :
    stop = (tokens.getLast?.map (·.stop)).getD position := by
  cases skippable with
  | none => rfl
  | lookahead _ => rfl
  | more _ _ _ _ => simp

theorem proper (skippable : Skippable job position lookahead tokens stop) (some : tokens ≠ []) :
    lookahead.kind ≠ .endOfInput := by
  induction skippable with
  | none => exact absurd rfl some
  | lookahead proper => exact proper
  | more _ others _ _ ih => exact ih others

theorem unique (skippable : Skippable job position lookahead tokens stop) :
    ∀ {others : List LexedToken} {last : Nat}, Skippable job position lookahead others last →
    tokens.length = others.length → tokens = others ∧ stop = last := by
  induction skippable with
  | none =>
      intro others last again same
      cases again with
      | none => exact ⟨rfl, rfl⟩
      | lookahead _ => simp at same
      | more _ _ _ _ => simp at same
  | lookahead _ =>
      intro others last again same
      cases again with
      | none => simp at same
      | lookahead _ => exact ⟨rfl, rfl⟩
      | more _ some _ _ =>
          rw [List.length_append] at same
          exact absurd (List.length_eq_zero_iff.mp (Nat.succ.inj same).symm) some
  | more _ some lexed _ ih =>
      intro others last again same
      cases again with
      | none => simp at same
      | lookahead _ =>
          rw [List.length_append] at same
          exact absurd (List.length_eq_zero_iff.mp (Nat.succ.inj same)) some
      | more further _ otherLexed _ =>
          rw [List.length_append, List.length_append] at same
          obtain ⟨rfl, rfl⟩ := ih further (Nat.succ.inj same)
          cases lexed.symm.trans otherLexed
          exact ⟨rfl, rfl⟩

theorem take (skippable : Skippable job position lookahead tokens stop) : ∀ {count : Nat},
    count ≤ tokens.length → ∃ middle, Skippable job position lookahead (tokens.take count) middle := by
  induction skippable with
  | none =>
      intro count within
      exact ⟨position, by rw [List.take_nil]; exact .none⟩
  | lookahead proper =>
      intro count within
      cases count with
      | zero => exact ⟨position, .none⟩
      | succ count => exact ⟨lookahead.stop, by rw [List.take_succ_cons, List.take_nil]; exact .lookahead proper⟩
  | @more tokens stop token before some lexed proper ih =>
      intro count within
      by_cases all : count ≤ tokens.length
      · rw [List.take_append_of_le_length all]
        exact ih all
      · rw [List.take_of_length_le (by simp; omega)]
        exact ⟨token.stop, .more before some lexed proper⟩

theorem tile (sound : job.Sound) (inside : position ≤ job.text.size)
    (here : lookahead.FitsAt job.table job.text position)
    (skippable : Skippable job position lookahead tokens stop) :
    LexedToken.Tile job.table job.text position tokens stop := by
  induction skippable with
  | none => exact .nil
  | lookahead proper => exact .cons here proper .nil
  | more _ _ lexed proper ih =>
      exact ih.append (Job.lex_fits sound (ih.bounds.2 inside) lexed).at proper

end Skippable

end Recovery

theorem LexedToken.Tile.length_le {table : Table} {text : Array UInt8} {position stop : Nat}
    {tokens : List LexedToken} (tile : LexedToken.Tile table text position tokens stop) :
    position + tokens.length ≤ stop := by
  induction tile with
  | nil => exact Nat.le_refl _
  | cons fits proper _ ih =>
      have advances := fits.advances proper
      have start := fits.start_eq
      unfold LexedToken.textStart at advances
      rw [List.length_cons]
      omega

namespace Recovery

variable {job : Job} {machine : Machine} {lookahead : LexedToken}

theorem Repair.Feasible.unique {repair other : Repair} (feasible : repair.Feasible job machine lookahead)
    (again : other.Feasible job machine lookahead) (skipped : repair.skipped.length = other.skipped.length)
    (popped : repair.popped = other.popped) : repair = other := by
  obtain ⟨stop, skips, lexed⟩ := feasible.resumes
  obtain ⟨last, otherSkips, otherLexed⟩ := again.resumes
  obtain ⟨sameTokens, rfl⟩ := skips.unique otherSkips skipped
  rw [popped, otherLexed] at lexed
  have sameResume := Except.ok.inj lexed
  cases repair
  cases other
  cases sameTokens
  cases popped
  cases sameResume
  rfl

/-! ### What a search knows -/

structure Skips.Knows (job : Job) (position : Nat) (lookahead : LexedToken) (skips : Skips) : Prop where
  tokens : ∃ stop, Skippable job position lookahead skips.tokens.toList stop
  begun : skips.ended = false → 0 < skips.tokens.size
  ended : skips.ended = true → ∀ tokens stop, Skippable job position lookahead tokens stop →
    tokens.length ≤ skips.tokens.size

namespace Skips.Knows

variable {position : Nat} {skips : Skips}

theorem start : (Skips.start lookahead).Knows job position lookahead := by
  unfold Skips.start
  split
  · rename_i atEnd
    refine ⟨⟨position, .none⟩, (fun impossible => by cases impossible), ?_⟩
    intro _ tokens stop skippable
    by_contra some
    exact skippable.proper (fun none => some (by rw [none]; exact Nat.zero_le _)) atEnd
  · rename_i proper
    exact ⟨⟨lookahead.stop, .lookahead proper⟩, fun _ => Nat.one_pos, fun impossible => by cases impossible⟩

theorem stopAfter (knows : skips.Knows job position lookahead) {count : Nat} (within : count ≤ skips.tokens.size) :
    Skippable job position lookahead (skips.tokens.toList.take count) (skips.stopAfter position count) := by
  obtain ⟨stop, skippable⟩ := knows.tokens
  obtain ⟨middle, taken⟩ := skippable.take (show count ≤ skips.tokens.toList.length by simpa using within)
  have same : middle = skips.stopAfter position count := by
    rw [taken.stop_eq]
    cases count with
    | zero => rfl
    | succ before =>
        have inside : before < skips.tokens.toList.length := by
          rw [Array.length_toList]
          exact within
        rw [List.getLast?_take, if_neg (Nat.succ_ne_zero before), Nat.add_sub_cancel,
          List.getElem?_eq_getElem inside]
        simp [Skips.stopAfter, Array.getElem?_eq_getElem (show before < skips.tokens.size from within)]
  exact same ▸ taken

theorem grow (knows : skips.Knows job position lookahead) (open_ : skips.ended = false) {more : Skips}
    (done : skips.grow job position = .ok more) :
    more.Knows job position lookahead ∧ (more.ended = true ∨ more.tokens.size = skips.tokens.size + 1) := by
  have whole := knows.stopAfter (Nat.le_refl _)
  rw [List.take_of_length_le (Nat.le_of_eq (by simp))] at whole
  have begun := knows.begun open_
  have some : skips.tokens.toList ≠ [] := by
    intro none
    rw [← Array.length_toList, none] at begun
    exact absurd begun (Nat.lt_irrefl 0)
  unfold Skips.grow at done
  obtain ⟨token, lexed, done⟩ := bind_ok.mp done
  split at done
  · rename_i atEnd
    cases pure_ok.mp done
    refine ⟨⟨knows.tokens, (fun impossible => by cases impossible), ?_⟩, Or.inl rfl⟩
    intro _ tokens stop skippable
    by_contra beyond
    have within : skips.tokens.size + 1 ≤ tokens.length := Nat.lt_of_not_le beyond
    obtain ⟨middle, taken⟩ := skippable.take within
    generalize shape : tokens.take (skips.tokens.size + 1) = first at taken
    have length : first.length = skips.tokens.size + 1 := by
      rw [← shape, List.length_take]
      exact Nat.min_eq_left within
    cases taken with
    | none => simp at length
    | lookahead _ => exact absurd (Nat.succ.inj length) (Nat.ne_of_lt begun)
    | more before _ otherLexed proper =>
        rw [List.length_append] at length
        obtain ⟨_, rfl⟩ := before.unique whole (by simpa using Nat.succ.inj length)
        cases lexed.symm.trans otherLexed
        exact proper atEnd
  · rename_i proper
    cases pure_ok.mp done
    refine ⟨⟨⟨token.stop, ?_⟩, fun _ => by simp, fun impossible => ?_⟩, Or.inr (by simp)⟩
    · rw [Array.toList_push]
      exact .more whole some lexed proper
    · rw [open_] at impossible
      cases impossible

end Skips.Knows

/-! ### Searching -/

def Finds (job : Job) (machine : Machine) (lookahead : LexedToken) (among : Repair → Prop) : Option Repair → Prop
  | some repair => repair.Feasible job machine lookahead ∧ among repair ∧
      ∀ other : Repair, other.Feasible job machine lookahead → among other → repair.Precedes other
  | none => ∀ other : Repair, other.Feasible job machine lookahead → ¬ among other

theorem Finds.widen {among more : Repair → Prop} {repair : Repair}
    (finds : Finds job machine lookahead among (some repair)) (belongs : ∀ other, among other → more other)
    (later : ∀ other, more other → among other ∨ repair.Precedes other) :
    Finds job machine lookahead more (some repair) := by
  obtain ⟨feasible, member, first⟩ := finds
  refine ⟨feasible, belongs repair member, fun other otherFeasible otherMember => ?_⟩
  rcases later other otherMember with early | late
  · exact first other otherFeasible early
  · exact late

theorem Finds.congr {among others : Repair → Prop} {found : Option Repair}
    (finds : Finds job machine lookahead others found)
    (same : ∀ other : Repair, other.Feasible job machine lookahead → (among other ↔ others other)) :
    Finds job machine lookahead among found := by
  cases found with
  | none => exact fun other feasible member => finds other feasible ((same other feasible).mp member)
  | some repair =>
      obtain ⟨feasible, member, first⟩ := finds
      exact ⟨feasible, (same repair feasible).mpr member, fun other otherFeasible otherMember =>
        first other otherFeasible ((same other otherFeasible).mp otherMember)⟩

theorem Finds.skip {early late among : Repair → Prop} {found : Option Repair}
    (none : Finds job machine lookahead early none) (finds : Finds job machine lookahead late found)
    (split : ∀ other : Repair, other.Feasible job machine lookahead → (among other ↔ early other ∨ late other)) :
    Finds job machine lookahead among found := by
  cases found with
  | none =>
      intro other feasible member
      rcases (split other feasible).mp member with first | second
      · exact none other feasible first
      · exact finds other feasible second
  | some repair =>
      obtain ⟨feasible, member, first⟩ := finds
      refine ⟨feasible, (split repair feasible).mpr (Or.inr member), fun other otherFeasible otherMember => ?_⟩
      rcases (split other otherFeasible).mp otherMember with nothing | second
      · exact absurd nothing (none other otherFeasible)
      · exact first other otherFeasible second

theorem statesBelow_length : ∀ stack : ParseStack, (statesBelow stack).length = stack.length + 1
  | [] => rfl
  | _ :: below => congrArg (· + 1) (statesBelow_length below)

theorem searchFor_depth (job : Job) (machine : Machine) : (searchFor job machine).depth = machine.stack.length := by
  unfold Search.depth searchFor
  rw [List.size_toArray, statesBelow_length]
  rfl

theorem searchFor_states (job : Job) (machine : Machine) (popped : Nat) :
    ((searchFor job machine).states[popped]?).getD [.start] = ParseStack.states (machine.stack.drop popped) := by
  unfold searchFor
  rw [List.getElem?_toArray]
  exact statesBelow_getElem? machine.stack popped

namespace Search

variable {skips : Skips}

theorem attempt_finds (knows : skips.Knows job machine.position lookahead) {skipped popped : Nat}
    (known : skipped ≤ skips.tokens.size) (within : skipped ≤ job.maxSkipped)
    (inside : popped ≤ machine.stack.length) (removes : 1 ≤ skipped + popped) {found : Option Repair}
    (done : (searchFor job machine).attempt skips skipped popped = .ok found) :
    Finds job machine lookahead (fun other => other.skipped.length = skipped ∧ other.popped = popped) found := by
  have skippable := knows.stopAfter known
  have length : (skips.tokens.toList.take skipped).length = skipped := by
    rw [List.length_take, Array.length_toList]
    exact Nat.min_eq_left known
  unfold attempt at done
  rw [searchFor_states] at done
  obtain ⟨resume, lexed, done⟩ := bind_ok.mp done
  obtain ⟨possible, continues, done⟩ := bind_ok.mp done
  change canContinueFrom job.table resume.kind job.stepLimit _ = .ok possible at continues
  cases possible with
  | true =>
      cases pure_ok.mp done
      obtain ⟨reductions, last, simulates, _⟩ := simulates_of_canContinueFrom continues
      refine ⟨⟨?_, inside, ?_, ⟨_, skippable, lexed⟩, reductions, last, simulates⟩, ⟨length, rfl⟩, ?_⟩
      · exact Nat.le_trans (Nat.le_of_eq length) within
      · unfold Repair.cost
        exact length.symm ▸ removes
      · rintro other _ ⟨sameLength, samePopped⟩
        unfold Repair.Precedes Repair.cost
        dsimp only
        omega
  | false =>
      cases pure_ok.mp done
      rintro other feasible ⟨sameLength, samePopped⟩
      obtain ⟨stop, otherSkippable, otherLexed⟩ := feasible.resumes
      obtain ⟨_, rfl⟩ := otherSkippable.unique skippable (sameLength.trans length.symm)
      obtain ⟨reductions, last, simulates⟩ := feasible.continues
      rw [samePopped] at otherLexed simulates
      cases lexed.symm.trans otherLexed
      exact (canContinueFrom_of_simulates simulates job.stepLimit).2 continues

/-- What a search knows when it tries the ways of some cost: no more tokens can be skipped at that cost than it
has lexed. -/
structure Ready (job : Job) (machine : Machine) (lookahead : LexedToken) (cost : Nat) (skips : Skips) : Prop where
  knows : skips.Knows job machine.position lookahead
  enough : skips.ended = true ∨ min cost (searchFor job machine).maxSkipped ≤ skips.tokens.size

section Searches

variable (sound : job.Sound) (inside : machine.position ≤ job.text.size)
  (here : lookahead.FitsAt job.table job.text machine.position)

include sound inside here

theorem skipped_le {repair : Repair} (feasible : repair.Feasible job machine lookahead) :
    repair.skipped.length ≤ (searchFor job machine).maxSkipped := by
  obtain ⟨stop, skippable, _⟩ := feasible.resumes
  have tile := skippable.tile sound inside here
  have length := tile.length_le
  have bound := tile.bounds.2 inside
  have limited := feasible.skipped_le
  change _ ≤ min job.maxSkipped job.text.size
  omega

/-- Trying the ways of one cost, from some number of entries on, finds the first feasible one of them. -/
theorem tryPopping_finds {cost : Nat} (positive : 1 ≤ cost) (ready : Ready job machine lookahead cost skips) :
    ∀ (count popped : Nat) {found : Option Repair}, popped + count ≤ min cost machine.stack.length + 1 →
    (searchFor job machine).tryPopping skips cost count popped = .ok found →
    Finds job machine lookahead
      (fun other => other.cost = cost ∧ popped ≤ other.popped ∧ other.popped < popped + count) found
  | 0, popped, found, _, done => by
      cases done
      rintro other _ ⟨_, low, high⟩
      omega
  | count + 1, popped, found, bound, done => by
      have split : ∀ other : Repair, other.Feasible job machine lookahead →
          ((other.cost = cost ∧ popped ≤ other.popped ∧ other.popped < popped + (count + 1)) ↔
            (other.skipped.length = cost - popped ∧ other.popped = popped) ∨
            (other.cost = cost ∧ popped + 1 ≤ other.popped ∧ other.popped < popped + 1 + count)) := by
        intro other _
        unfold Repair.cost
        omega
      unfold tryPopping at done
      dsimp only at done
      split at done
      · rename_i beyond
        have rest := tryPopping_finds positive ready count (popped + 1) (by omega) done
        refine Finds.skip ?_ rest split
        rintro other feasible ⟨length, _⟩
        have allowed := skipped_le sound inside here feasible
        rcases beyond with many | unknown
        · omega
        · rcases ready.enough with ended | lexed
          · obtain ⟨stop, skippable, _⟩ := feasible.resumes
            have most := ready.knows.ended ended _ _ skippable
            omega
          · omega
      · rename_i allowed
        have most : (searchFor job machine).maxSkipped ≤ job.maxSkipped := Nat.min_le_left _ _
        obtain ⟨attempted, tried, done⟩ := bind_ok.mp done
        have first := attempt_finds ready.knows (show cost - popped ≤ skips.tokens.size by omega)
          (show cost - popped ≤ job.maxSkipped by omega) (show popped ≤ machine.stack.length by omega)
          (by omega) tried
        cases attempted with
        | none => exact Finds.skip first (tryPopping_finds positive ready count (popped + 1) (by omega) done) split
        | some repair =>
            cases pure_ok.mp done
            obtain ⟨length, samePopped⟩ := first.2.1
            refine first.widen (fun other member => ?_) (fun other member => ?_)
            · unfold Repair.cost
              omega
            · refine Or.inr (Or.inr ⟨?_, by omega⟩)
              rw [member.1]
              unfold Repair.cost
              omega

omit sound inside here in
theorem known_ready {cost : Nat} (positive : 1 ≤ cost) {before more : Skips}
    (knows : before.Knows job machine.position lookahead)
    (enough : before.ended = true ∨ min (cost - 1) (searchFor job machine).maxSkipped ≤ before.tokens.size)
    (done : (searchFor job machine).known cost before = .ok more) : Ready job machine lookahead cost more := by
  unfold known at done
  split at done
  · rename_i wanted
    rw [Bool.and_eq_true, Bool.not_eq_true'] at wanted
    obtain ⟨grown, further⟩ := knows.grow wanted.1 done
    refine ⟨grown, further.imp_right fun size => ?_⟩
    have lexed := enough.resolve_left (by rw [wanted.1]; exact Bool.false_ne_true)
    omega
  · rename_i complete
    cases done
    refine ⟨knows, ?_⟩
    cases open_ : before.ended with
    | true => exact Or.inl rfl
    | false =>
        right
        rw [open_, Bool.not_false, Bool.true_and, decide_eq_true_eq, Nat.not_lt] at complete
        exact complete

theorem tryCosts_finds : ∀ (count cost : Nat) (before : Skips) {found : Option Repair}, 1 ≤ cost →
    before.Knows job machine.position lookahead →
    (before.ended = true ∨ min (cost - 1) (searchFor job machine).maxSkipped ≤ before.tokens.size) →
    (searchFor job machine).tryCosts count cost before = .ok found →
    Finds job machine lookahead (fun other => cost ≤ other.cost ∧ other.cost < cost + count) found
  | 0, cost, before, found, _, _, _, done => by
      cases done
      rintro other _ ⟨low, high⟩
      omega
  | count + 1, cost, before, found, positive, knows, enough, done => by
      rw [tryCosts_succ] at done
      obtain ⟨more, grown, done⟩ := bind_ok.mp done
      obtain ⟨attempted, tried, done⟩ := bind_ok.mp done
      have ready := known_ready positive knows enough grown
      rw [searchFor_depth] at tried
      have first := tryPopping_finds sound inside here positive ready _ 0 (by omega) tried
      have all : Finds job machine lookahead (fun other => other.cost = cost) attempted := by
        refine Finds.congr first (fun other feasible => ?_)
        have low := feasible.popped_le
        unfold Repair.cost
        omega
      cases attempted with
      | some repair =>
          cases pure_ok.mp done
          have same := all.2.1
          refine all.widen (fun other member => by omega) (fun other member => ?_)
          rcases Nat.lt_or_eq_of_le member.1 with above | equal
          · exact Or.inr (Or.inl (by omega))
          · exact Or.inl equal.symm
      | none =>
          have rest := tryCosts_finds count (cost + 1) more (by omega) ready.knows
            (by rw [Nat.add_sub_cancel]; exact ready.enough) done
          have split : ∀ other : Repair, other.Feasible job machine lookahead →
              (cost ≤ other.cost ∧ other.cost < cost + (count + 1) ↔
                other.cost = cost ∨ cost + 1 ≤ other.cost ∧ other.cost < cost + 1 + count) :=
            fun other _ => by omega
          exact Finds.skip all rest split

end Searches

end Search

theorem cheapest?_finds (sound : job.Sound) (inside : machine.position ≤ job.text.size)
    (here : lookahead.FitsAt job.table job.text machine.position) {found : Option Repair}
    (done : cheapest? job machine lookahead = .ok found) :
    Finds job machine lookahead (fun _ => True) found := by
  have begun : (Skips.start lookahead).ended = true ∨
      min (1 - 1) (searchFor job machine).maxSkipped ≤ (Skips.start lookahead).tokens.size :=
    Or.inr (Nat.le_trans (Nat.min_le_left _ _) (Nat.zero_le _))
  have searched := Search.tryCosts_finds sound inside here
    ((searchFor job machine).maxSkipped + (searchFor job machine).depth) 1 _ (Nat.le_refl 1) .start begun
    (cheapest?_ok.mp done).2
  refine searched.congr (fun other feasible => iff_of_true trivial ⟨feasible.removes, ?_⟩)
  have skipped := Search.skipped_le sound inside here feasible
  have popped := feasible.popped_le
  rw [searchFor_depth]
  unfold Repair.cost
  omega

/-! ### Wrapping -/

/-- What recovery removes ends up in an error node on top of what is left of the stack: an error node that lies
there already, the entries that are popped and the tokens that are skipped, in the order of the text. -/
structure Wraps (job : Job) (machine next : Machine) (popped : Nat) (skipped : List LexedToken) : Prop where
  stack_eq : ∃ serial decisionEnd,
    let left := (machine.stack.drop popped).dropWhile (·.extra)
    let removed := machine.stack.take popped ++ (machine.stack.drop popped).takeWhile (·.extra)
    let elements := removed.reverse.map (·.element) ++ leaves machine.nextSerial skipped
    next.stack = ParseStack.pushExtra left
      (ParseStack.errorNode job.table serial elements (ParseStack.state left) decisionEnd).element
  position_eq : next.position = (skipped.getLast?.map (·.stop)).getD machine.position

/-- What recovery is to do: the first feasible repair; and where there is none, to take the lookahead away, or the
whole stack at the end of the input. -/
inductive Picks (job : Job) (machine : Machine) (lookahead : LexedToken) : Machine ⊕ Node → Prop
  | resumes {repair : Repair} {next : Machine} : repair.Feasible job machine lookahead →
      (∀ other : Repair, other.Feasible job machine lookahead → repair.Precedes other) →
      Wraps job machine next repair.popped repair.skipped → next.pending = some (.lexed repair.resume) →
      next.mode = some repair.resume.lexMode → Picks job machine lookahead (.inl next)
  | skips {next : Machine} : (∀ repair : Repair, ¬ repair.Feasible job machine lookahead) →
      lookahead.kind ≠ .endOfInput → Wraps job machine next 0 [lookahead] → next.pending = none →
      next.mode = none → Picks job machine lookahead (.inl next)
  | ends {root : Node} : (∀ repair : Repair, ¬ repair.Feasible job machine lookahead) →
      lookahead.kind = .endOfInput → root.kind = .error →
      root.children = machine.stack.reverse.flatMap (fun entry => splicedIntoError job.table entry.element) ++
        ParseStack.endChild (Machine.endToken lookahead machine.nextSerial) →
      Picks job machine lookahead (.inr root)

theorem pushError_stack (machine : Machine) (elements : List Element) (examinedEnd : Nat)
    (follows : machine.stack.Follows job.table) :
    ∃ decisionEnd, (pushError job machine elements examinedEnd).stack =
      ParseStack.pushExtra (machine.stack.dropWhile (·.extra)) (ParseStack.errorNode job.table machine.nextSerial
        ((machine.stack.takeWhile (·.extra)).reverse.map (·.element) ++ elements)
        (ParseStack.state (machine.stack.dropWhile (·.extra))) decisionEnd).element := by
  unfold pushError
  cases shape : machine.stack with
  | nil => exact ⟨_, rfl⟩
  | cons top below =>
      rw [shape] at follows
      cases extra : top.extra with
      | false =>
          rw [List.takeWhile_cons_of_neg (by rw [extra]; exact Bool.false_ne_true),
            List.dropWhile_cons_of_neg (by rw [extra]; exact Bool.false_ne_true)]
          dsimp only
          rw [extra, if_neg Bool.false_ne_true]
          exact ⟨_, rfl⟩
      | true =>
          rcases follows.trailing with ⟨none, _⟩ | ⟨_, _, same, _, one, rest⟩
          · rw [List.takeWhile_cons_of_pos extra] at none
            cases none
          · cases same
            rw [one, rest]
            dsimp only
            rw [if_pos extra]
            exact ⟨_, rfl⟩

theorem apply_wraps (follows : machine.stack.Follows job.table) (repair : Repair) :
    Wraps job machine (apply job machine repair) repair.popped repair.skipped := by
  refine ⟨?_, rfl⟩
  obtain ⟨decisionEnd, stack⟩ := @pushError_stack job
    { machine with
      stack := machine.stack.drop repair.popped
      position := (repair.skipped.getLast?.map (·.stop)).getD machine.position
      nextSerial := machine.nextSerial + repair.skipped.length }
    ((machine.stack.take repair.popped).reverse.map (·.element) ++ leaves machine.nextSerial repair.skipped)
    repair.resume.examinedEnd (follows.drop _)
  refine ⟨machine.nextSerial + repair.skipped.length, decisionEnd, stack.trans ?_⟩
  dsimp only
  rw [List.reverse_append, List.map_append, List.append_assoc]

/-- Taking the lookahead away removes nothing else. -/
theorem giveUp_wraps (follows : machine.stack.Follows job.table) (proper : lookahead.kind ≠ .endOfInput) :
    ∃ next, giveUp job machine lookahead = .inl next ∧ Wraps job machine next 0 [lookahead] ∧
      next.pending = machine.pending ∧ next.mode = none := by
  unfold giveUp
  rw [if_neg proper]
  refine ⟨_, rfl, ⟨?_, rfl⟩, rfl, rfl⟩
  obtain ⟨decisionEnd, stack⟩ := @pushError_stack job
    { machine with position := lookahead.stop, nextSerial := machine.nextSerial + 1 }
    (leaves machine.nextSerial [lookahead]) lookahead.examinedEnd follows
  exact ⟨machine.nextSerial + 1, decisionEnd, stack⟩

theorem recover_picks (sound : job.Sound) (fits : machine.Fits job) (idle : machine.pending = none)
    (here : lookahead.FitsAt job.table job.text machine.position) {answer : Machine ⊕ Node}
    (done : recover job machine lookahead = .ok answer) : Picks job machine lookahead answer := by
  have never (searched : cheapest? job machine lookahead = .ok none) (repair : Repair) :
      ¬ repair.Feasible job machine lookahead :=
    fun feasible => cheapest?_finds sound fits.inside here searched repair feasible trivial
  cases recover_answers done with
  | resumes searched =>
      obtain ⟨feasible, _, first⟩ := cheapest?_finds sound fits.inside here searched
      exact .resumes feasible (fun other otherFeasible => first other otherFeasible trivial)
        (apply_wraps fits.follows _) rfl rfl
  | skips searched proper =>
      obtain ⟨next, gaveUp, wraps, pending, mode⟩ := giveUp_wraps fits.follows proper
      cases gaveUp.symm.trans (if_neg proper)
      exact .skips (never searched) proper wraps (pending.trans idle) mode
  | ends searched ended => exact .ends (never searched) ended rfl rfl

end Recovery

/-- What holds of a machine does not depend on how many steps a simulation may take. -/
theorem Machine.Fits.any_limit {parser : Parser} {text : Array UInt8} {limit : Nat} {machine : Machine}
    (fits : machine.Fits (parser.job limit text)) (other : Nat) : machine.Fits (parser.job other text) :=
  ⟨fits.follows, fits.sound, fits.stop_eq, fits.inside, fits.pending, fits.reuse⟩

/-- Where the scanner answers and chains of reductions end, recovery answers. -/
theorem Parser.Ready.recover_eventually {parser : Parser} {text : Array UInt8} (ready : parser.Ready text)
    {machine : Machine} (fits : machine.Fits (parser.job 0 text))
    (room : parser.maxSkipped + machine.stack.length < sizeLimit) {token : LexedToken}
    (here : token.FitsAt parser.language.table text machine.position) :
    ∃ answer, Eventually (fun limit => Recovery.recover (parser.job limit text) machine token) answer := by
  have bare : ({ machine with mode := none, pending := none, reuse := none } : Machine).Plain parser text :=
    ⟨⟨fits.follows, fits.sound, fits.stop_eq, fits.inside, (fun _ none => by cases none),
      (fun _ none => by cases none)⟩, rfl, (fun _ none => by cases none), (fun _ none => by cases none)⟩
  obtain ⟨found, searched, _⟩ := cheapest?_eventually ready _ bare room here
  have same : Eventually (fun limit => Recovery.cheapest? (parser.job limit text) machine token) found := searched
  cases found with
  | some repair =>
      exact ⟨.inl (Recovery.apply (parser.job 0 text) machine repair), .bind same (.always fun _ => rfl)⟩
  | none => exact ⟨Recovery.giveUp (parser.job 0 text) machine token, .bind same (.always fun _ => rfl)⟩

/-- Whatever configuration a run comes to, recovery that answers carries out the first feasible repair, and where
none is feasible it takes the lookahead away, or the whole stack at the end of the input. It answers if chains
of reductions end, the extents in the text and of the entries on the stack are offsets, as they have to be in the
error node over them, and the highest cost of a repair is a size. -/
theorem Parser.recovery_cheapest {declaration : Declaration} {scanner : Scanner} {parser : Parser}
    (through : scanner.ThroughCursor) (compiled : Language.compile declaration scanner = .ok parser.language)
    {limit : Nat} {text : Array UInt8} {first machine next : Machine} {token : LexedToken}
    (begins : parser.Begins text first) (reached : Machine.Reaches (parser.job limit text) first machine)
    (looked : machine.lookahead (parser.job limit text) = .ok (.lexed token, next)) :
    (∀ answer, Recovery.recover (parser.job limit text) next token = .ok answer →
      Recovery.Picks (parser.job limit text) next token answer) ∧
    (scanner.Answers → parser.language.table.Small → parser.language.table.Settling → parser.Measures text →
      (∀ entry, entry ∈ next.stack → entry.stop + entry.element.lookahead < offsetLimit) →
      parser.maxSkipped + next.stack.length < sizeLimit →
      ∃ answer, Eventually (fun limit => Recovery.recover (parser.job limit text) next token) answer) := by
  have sound := Language.compile_sound through compiled
  have ahead := Machine.lookahead_fits (parser.job limit text) sound
    (reached.fits sound (begins.fits sound limit)) looked
  constructor
  · intro answer done
    exact Recovery.recover_picks sound ahead.fits ahead.idle ahead.lookahead done
  · intro answers small settling measures _ room
    have ready : parser.Ready text :=
      ⟨sound, Language.compile_complete answers compiled, small, settling, measures⟩
    exact ready.recover_eventually (ahead.fits.any_limit 0) room ahead.lookahead

/-- The token on which there is nothing to do, with the machine as it recovers from that. -/
def Machine.stuckOn? (job : Job) (machine : Machine) : Option (LexedToken × Machine) :=
  match machine.lookahead job with
  | .ok (.lexed token, next) =>
      if job.table.action next.stack.state token.kind = .error then some (token, next) else none
  | _ => none

theorem Machine.stuckOn?_eq_some {job : Job} {machine next : Machine} {token : LexedToken} :
    machine.stuckOn? job = some (token, next) ↔ machine.lookahead job = .ok (.lexed token, next) ∧
      job.table.action next.stack.state token.kind = .error := by
  unfold stuckOn?
  constructor
  · intro stuck
    split at stuck
    · rename_i looked
      split at stuck
      · rename_i acts
        cases stuck
        exact ⟨looked, acts⟩
      · cases stuck
    · cases stuck
  · rintro ⟨looked, acts⟩
    rw [looked]
    exact if_pos acts

namespace Pairs

/-- The fifth step over `ab a ab` comes to the third `a`, on which there is nothing to do; there is a way on. -/
theorem gets_stuck : (((Machine.after (parser.job 100 longer) 5 (.start none 0)).bind
    (·.stuckOn? (parser.job 100 longer))).any fun stuck =>
      stuck.2.stack.all (fun entry => decide (entry.stop + entry.element.lookahead < offsetLimit)) &&
        (Recovery.recover (parser.job 100 longer) stuck.2 stuck.1).toOption.isSome) = true := by
  rw [parser_eq]
  decide +kernel

end Pairs

theorem Parser.recovery_cheapest_pairs : ∃ machine token next,
    Machine.Reaches (Pairs.parser.job 100 Pairs.longer) (.start none 0) machine ∧
    machine.stuckOn? (Pairs.parser.job 100 Pairs.longer) = some (token, next) ∧
    Pairs.parser.Measures Pairs.longer ∧
    (∀ entry, entry ∈ next.stack → entry.stop + entry.element.lookahead < offsetLimit) ∧
    Pairs.parser.maxSkipped + next.stack.length < sizeLimit ∧
    (∃ answer, Recovery.recover (Pairs.parser.job 100 Pairs.longer) next token = .ok answer ∧
      Recovery.Picks (Pairs.parser.job 100 Pairs.longer) next token answer) ∧
    ∃ answer, Eventually (fun limit => Recovery.recover (Pairs.parser.job limit Pairs.longer) next token) answer := by
  obtain ⟨⟨token, next⟩, found, both⟩ := (Option.any_eq_true _ _).mp Pairs.gets_stuck
  obtain ⟨near, recovers⟩ := Bool.and_eq_true_iff.mp both
  have extents : ∀ entry, entry ∈ next.stack → entry.stop + entry.element.lookahead < offsetLimit :=
    fun entry member => of_decide_eq_true (List.all_eq_true.mp near entry member)
  obtain ⟨machine, after, stuck⟩ := Option.bind_eq_some_iff.mp found
  have reached := Machine.Reaches.refl.after 5 after
  obtain ⟨picks, answers⟩ := @Parser.recovery_cheapest _ _ Pairs.parser (ClassScanner.toScanner_throughCursor _)
    (eq_ok_get Pairs.compiles) _ _ _ _ _ _ .fresh reached (Machine.stuckOn?_eq_some.mp stuck).1
  have measures : Pairs.parser.Measures Pairs.longer := Pairs.measures (by decide)
  obtain ⟨found, searched, _⟩ := bind_ok.mp (eq_ok_get recovers)
  have room : Pairs.parser.maxSkipped + next.stack.length < sizeLimit := (Recovery.cheapest?_ok.mp searched).1
  refine ⟨machine, token, next, reached, stuck, measures, extents, room,
    ⟨_, eq_ok_get recovers, picks _ (eq_ok_get recovers)⟩, ?_⟩
  exact answers (ClassScanner.toScanner_answers _) Pairs.small Pairs.settling measures extents room

/-! ### A search that does not come to an end -/

/-! A hidden rule that is its own first alternative, before a letter. -/

namespace Stall

def declaration : Declaration :=
  { Declaration.empty "stall" with
    rules := #[("s", .choice [.sequence [.symbol "u", .literal "c"], .literal "c"]),
      ("_t", .choice [.symbol "_t", .literal "a"]), ("u", .symbol "_t")] }

def table : Table where
  name := "stall"
  version := 1
  kinds :=
    ⟨#[⟨"end", true, true, true⟩, ⟨"ERROR", true, true, true⟩, ⟨"c", false, true, true⟩,
      ⟨"a", false, true, true⟩, ⟨"s", true, true, false⟩, ⟨"_t", true, false, false⟩,
      ⟨"u", true, true, false⟩], #[]⟩
  terminalCount := 4
  ruleCount := 3
  productions :=
    #[⟨⟨4⟩, [.nonterminal ⟨2⟩, .terminal ⟨2⟩], [none, none], .plain⟩,
      ⟨⟨4⟩, [.terminal ⟨2⟩], [none], .plain⟩,
      ⟨⟨5⟩, [.nonterminal ⟨1⟩], [none], .plain⟩,
      ⟨⟨5⟩, [.terminal ⟨3⟩], [none], .plain⟩,
      ⟨⟨6⟩, [.nonterminal ⟨1⟩], [none], .plain⟩]
  actions :=
    #[.error, .error, .shift ⟨3⟩, .shift ⟨5⟩,
      .accept, .error, .error, .error,
      .error, .error, .shift ⟨6⟩, .error,
      .reduce ⟨1⟩, .error, .error, .error,
      .error, .error, .reduce ⟨2⟩, .error,
      .error, .error, .reduce ⟨3⟩, .error,
      .reduce ⟨0⟩, .error, .error, .error]
  gotos :=
    #[some ⟨1⟩, some ⟨4⟩, some ⟨2⟩,
      none, none, none,
      none, none, none,
      none, none, none,
      none, none, none,
      none, none, none,
      none, none, none]
  stateModes := #[⟨1⟩, ⟨2⟩, ⟨3⟩, ⟨2⟩, ⟨3⟩, ⟨3⟩, ⟨2⟩]
  lexModes := #[.ofList [⟨0⟩, ⟨2⟩, ⟨3⟩], .ofList [⟨2⟩, ⟨3⟩], .ofList [⟨0⟩], .ofList [⟨2⟩]]
  lexical := ⟨#[("c", ⟨2⟩), ("a", ⟨3⟩)], #[], #[], none⟩
  conflicts := 0

theorem compile_table : declaration.compile = .ok table := eq_ok_of_toOption (by decide +kernel)

def lexer : Lexer := .ofLiterals table Pairs.scanner [([99], ⟨2⟩), ([97], ⟨3⟩)]

theorem make_eq : Lexer.make table Pairs.scanner = .ok lexer :=
  Lexer.make_ofLiterals rfl rfl rfl rfl (eq_ok_of_toOption (by decide +kernel))

theorem compile_eq : Language.compile declaration Pairs.scanner = .ok ⟨lexer⟩ :=
  bind_ok.mpr ⟨table, compile_table, bind_ok.mpr ⟨lexer, make_eq, rfl⟩⟩

def parser : Parser := .ofLanguage ⟨lexer⟩

def text : Array UInt8 := #[97, 98, 99]

def letter : LexedToken := ⟨⟨3⟩, [], 0, 1, 1, ⟨1⟩⟩

def stray : LexedToken := ⟨.error, [], 1, 2, 2, ⟨3⟩⟩

def last (mode : LexMode) : LexedToken := ⟨⟨2⟩, [], 2, 3, 3, mode⟩

theorem lexes (limit : Nat) : (parser.job limit text).lex 0 ⟨1⟩ = .ok letter ∧
    (parser.job limit text).lex 1 ⟨3⟩ = .ok stray ∧ (parser.job limit text).lex 2 ⟨3⟩ = .ok (last ⟨3⟩) ∧
    (parser.job limit text).lex 2 ⟨1⟩ = .ok (last ⟨1⟩) := by
  change (parser.job 0 text).lex 0 ⟨1⟩ = .ok letter ∧ (parser.job 0 text).lex 1 ⟨3⟩ = .ok stray ∧
    (parser.job 0 text).lex 2 ⟨3⟩ = .ok (last ⟨3⟩) ∧ (parser.job 0 text).lex 2 ⟨1⟩ = .ok (last ⟨1⟩)
  refine ⟨eq_ok_of_toOption ?_, eq_ok_of_toOption ?_, eq_ok_of_toOption ?_, eq_ok_of_toOption ?_⟩ <;>
    decide +kernel

def machine : Machine := ((Machine.start none 0).decidesOn letter).shiftToken ⟨5⟩ letter

theorem reached (limit : Nat) : Machine.Reaches (parser.job limit text) (.start none 0) machine := by
  have looks : (Machine.start none 0).LooksTo (parser.job limit text) letter :=
    .of_idle rfl rfl rfl (lexes limit).1
  exact .step .refl (Machine.step_shift looks.lookahead rfl)

theorem looked (limit : Nat) :
    machine.lookahead (parser.job limit text) = .ok (.lexed stray, machine.decidesOn stray) := by
  have due : machine.dueMode (parser.job limit text).table = stray.lexMode := by
    change table.lexMode ⟨5⟩ = ⟨3⟩
    rfl
  exact (Machine.LooksTo.of_idle rfl rfl due (lexes limit).2.1).lookahead

/-- Skipping the stray letter alone begins a chain of reductions that has no end. -/
theorem chain_endless (limit : Nat) :
    Recovery.canContinueFrom table ⟨2⟩ limit [⟨4⟩, ⟨0⟩] = .error .outOfFuel := by
  induction limit with
  | zero => rfl
  | succ limit ih => exact (Recovery.canContinueFrom_of_reduces limit rfl rfl rfl rfl).trans ih

theorem simulation_endless (limit : Nat) :
    Recovery.canContinueFrom table ⟨2⟩ limit [⟨5⟩, ⟨0⟩] = .error .outOfFuel := by
  cases limit with
  | zero => rfl
  | succ limit => exact (Recovery.canContinueFrom_of_reduces limit rfl rfl rfl rfl).trans (chain_endless limit)

theorem attempt_endless (limit : Nat) :
    (Recovery.searchFor (parser.job limit text) (machine.decidesOn stray)).attempt (.start stray) 1 0 =
      .error .outOfFuel := by
  have states : ((Recovery.searchFor (parser.job limit text) (machine.decidesOn stray)).states[0]?).getD [.start] =
      [⟨5⟩, ⟨0⟩] := rfl
  have lexed : (parser.job limit text).lex 2 ⟨3⟩ = .ok (last ⟨3⟩) := (lexes limit).2.2.1
  have simulated : Recovery.canContinue (Recovery.searchFor (parser.job limit text) (machine.decidesOn stray)).job
      [⟨5⟩, ⟨0⟩] (last ⟨3⟩).kind = .error .outOfFuel := simulation_endless limit
  unfold Recovery.Search.attempt
  rw [states]
  change ((parser.job limit text).lex 2 ⟨3⟩ >>= fun resume => _) = _
  rw [lexed, ok_bind, simulated]
  rfl

theorem recover_endless (limit : Nat) :
    Recovery.recover (parser.job limit text) (machine.decidesOn stray) stray = .error .outOfFuel := by
  have searched : Recovery.cheapest? (parser.job limit text) (machine.decidesOn stray) stray = .error .outOfFuel := by
    change (Recovery.searchFor (parser.job limit text) (machine.decidesOn stray)).tryCosts (3 + 1) 1 (.start stray) = _
    rw [Recovery.Search.tryCosts_succ]
    change ((Recovery.searchFor (parser.job limit text) (machine.decidesOn stray)).tryPopping (.start stray) 1 2 0 >>=
      fun found => _) = _
    unfold Recovery.Search.tryPopping
    change ((Recovery.searchFor (parser.job limit text) (machine.decidesOn stray)).attempt (.start stray) 1 0 >>=
      fun found => _) >>= _ = _
    rw [attempt_endless]
    rfl
  unfold Recovery.recover
  rw [searched]
  rfl

/-- Taking the first letter off the stack as well leads on. -/
theorem feasible : Recovery.Repair.Feasible (parser.job 0 text) (machine.decidesOn stray) stray
    ⟨[stray], 1, last ⟨1⟩⟩ where
  skipped_le := by decide
  popped_le := by decide
  removes := by decide
  resumes := ⟨2, .lookahead (by decide), (lexes 0).2.2.2⟩
  continues := ⟨[], [⟨0⟩], .consumes trivial⟩

end Stall

/-- An accepted language and a text for which recovery does not return, however many steps it takes, although
there is a feasible repair. -/
theorem Parser.recovery_endless : ∃ declaration scanner parser, Scanner.ThroughCursor scanner ∧
    Scanner.Answers scanner ∧ Language.compile declaration scanner = .ok (Parser.language parser) ∧
    parser.language.table.Small ∧ ∃ text machine next token repair,
      (∀ limit, Machine.Reaches (parser.job limit text) (.start none 0) machine ∧
        machine.lookahead (parser.job limit text) = .ok (.lexed token, next) ∧
        parser.language.table.action next.stack.state token.kind = .error) ∧
      Recovery.Repair.Feasible (parser.job 0 text) next token repair ∧
      ∀ limit, Recovery.recover (parser.job limit text) next token = .error .outOfFuel := by
  refine ⟨Stall.declaration, Pairs.scanner, Stall.parser, ClassScanner.toScanner_throughCursor _,
    ClassScanner.toScanner_answers _, Stall.compile_eq, by unfold Table.Small; decide,
    Stall.text, Stall.machine, _, _, _, ?_,
    Stall.feasible, Stall.recover_endless⟩
  exact fun limit => ⟨Stall.reached limit, Stall.looked limit, rfl⟩

end IncrementalParsing
