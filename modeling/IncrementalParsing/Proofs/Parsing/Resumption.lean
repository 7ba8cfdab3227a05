import IncrementalParsing.Proofs.Parsing.Cheapest
import Mathlib.Data.Finset.Card

/-!
What follows a repair. Before it is carried out the automaton is simulated on the states that are left, up to
the point where it consumes the token to go on with. The error node on top of the stack is an extra, so the
machine then reduces what the simulation reduced and consumes the token. Hence a machine has consumed text
between two errors that it recovers from.
-/

namespace IncrementalParsing

open Green

/-! ### Reductions on a stack -/

namespace ParseStack

variable {table : Table}

theorem popEntries_of_states : ∀ {stack : ParseStack} (count : Nat) (taken : List StackEntry),
    count < (states stack).length → ∃ entries below, popEntries count taken stack = .ok (entries, below)
  | [], count, taken, short => by
      have none : count = 0 := Nat.lt_one_iff.mp short
      subst none
      exact ⟨taken, [], rfl⟩
  | entry :: rest, 0, taken, _ => ⟨taken, entry :: rest, rfl⟩
  | entry :: rest, missing + 1, taken, short => by
      unfold popEntries
      dsimp only
      cases extra : entry.extra with
      | true =>
          rw [states_extra extra] at short
          rw [if_pos rfl]
          exact popEntries_of_states (missing + 1) (entry :: taken) short
      | false =>
          rw [states_plain extra, List.length_cons] at short
          rw [if_neg Bool.false_ne_true]
          exact popEntries_of_states missing (entry :: taken) (Nat.lt_of_succ_lt_succ short)

theorem Follows.reduce_of_states {stack : ParseStack} (follows : Follows table stack) (sound : Sound table stack)
    {production : ProductionInfo} (known : table.HasKind production.lhs) {top next : StateId}
    {below : List StateId} (left : (states stack).drop production.length = top :: below)
    (goes : table.goto top production.lhs = some next) (serial examinedEnd : Nat) (mode : LexMode) :
    ∃ reduced, stack.reduce table serial production examinedEnd mode = .ok reduced ∧
      states reduced = next :: top :: below := by
  have short : production.length < (states (stack.dropWhile (·.extra))).length := by
    rw [states_dropWhile]
    by_contra beyond
    rw [List.drop_of_length_le (Nat.le_of_not_lt beyond)] at left
    cases left
  obtain ⟨entries, rest, popped⟩ := popEntries_of_states production.length [] short
  obtain ⟨restFollows, _, entriesSound, _⟩ := follows.core.1.popped sound.core popped
  have restStates := states_popEntries popped
  rw [states_dropWhile, left] at restStates
  have topState : state rest = top := by
    obtain ⟨others, shape⟩ := restFollows.states_head
    rw [shape] at restStates
    exact (List.cons.inj restStates).1
  obtain ⟨node, built, _⟩ := buildNode_builtFrom (reductionOrigin table stack rest examinedEnd mode) serial
    known rfl entriesSound
  have reduced := reduce_ok.mpr ⟨entries, rest, next, node, popped, by rw [topState]; exact goes, built, rfl⟩
  obtain ⟨otherTop, otherBelow, otherNext, otherLeft, otherGoes, after⟩ := states_reduce reduced follows
  cases left.symm.trans otherLeft
  cases goes.symm.trans otherGoes
  exact ⟨_, reduced, after⟩

end ParseStack

namespace Machine

variable {job : Job} {machine : Machine}

/-- A machine whose next step shifts or accepts the token that waits. -/
structure Takes (job : Job) (machine : Machine) (token : LexedToken) : Prop where
  waits : machine.pending = some (.lexed token)
  consumes :
    (∃ target, job.table.action machine.stack.state token.kind = .shift target ∧
      machine.step job = .ok (.inl (({ machine with pending := none } : Machine).shiftToken target token))) ∨
    (job.table.action machine.stack.state token.kind = .accept ∧ ∃ root, machine.step job = .ok (.inr root))

theorem Fits.state_eq (fits : machine.Fits job) {top : StateId} {below : List StateId}
    (shape : ParseStack.states machine.stack = top :: below) : machine.stack.state = top := by
  obtain ⟨others, same⟩ := fits.follows.states_head
  rw [same] at shape
  exact (List.cons.inj shape).1

theorem Fits.step_of_states (sound : job.Sound) (fits : machine.Fits job) {token : LexedToken}
    (waits : machine.pending = some (.lexed token)) {id : ProductionId} {production : ProductionInfo}
    (acts : job.table.action machine.stack.state token.kind = .reduce id)
    (found : job.table.production id = .ok production) {top next : StateId} {below : List StateId}
    (left : (ParseStack.states machine.stack).drop production.length = top :: below)
    (goes : job.table.goto top production.lhs = some next) :
    ∃ after, machine.step job = .ok (.inl after) ∧ after.Fits job ∧ after.pending = some (.lexed token) ∧
      after.position = machine.position ∧ ParseStack.states after.stack = next :: top :: below := by
  have known := sound.table.lhs production (Array.mem_of_getElem? (requireAt_ok.mp found))
  obtain ⟨reduced, pushed, states⟩ := fits.follows.reduce_of_states fits.sound known.2 left goes
    machine.nextSerial ((Lookahead.lexed token).examinedEnd machine.position) token.lexMode
  have stepped := step_of_reduce waits acts found pushed
  exact ⟨_, stepped, step_fits sound fits stepped, rfl, rfl, states⟩

end Machine

/-! ### Positions -/

section Positions

variable {job : Job} {machine next : Machine}

/-- A machine that has consumed text beyond a position, or is about to without recovering once more. -/
def Machine.Passes (job : Job) (machine : Machine) (position : Nat) : Prop :=
  position < machine.position ∨ position ≤ machine.position ∧
    ∃ token, machine.pending = some (.lexed token) ∧
      job.table.Continues token.kind (ParseStack.states machine.stack)

/-- A token that can be skipped or shifted ends behind the position at which it begins. -/
theorem LexedToken.Fits.lt_stop {table : Table} {text : Array UInt8} {position : Nat} {mode : LexMode}
    {token : LexedToken} (fits : token.Fits table text position mode) (proper : token.kind ≠ .endOfInput) :
    position < token.stop := by
  have advances := fits.advances proper
  have start := fits.start_eq
  unfold LexedToken.textStart at advances
  omega

theorem Recovery.recover_passes (sound : job.Sound) (fits : machine.Fits job) {lookahead : LexedToken}
    (here : lookahead.FitsAt job.table job.text machine.position)
    (done : Recovery.recover job machine lookahead = .ok (.inl next)) : next.Passes job machine.position := by
  cases Recovery.recover_answers done with
  | @resumes repair searched =>
      obtain ⟨stop, tile, _⟩ := (Recovery.cheapest?_fits sound fits.inside here searched).skipped
      obtain ⟨feasible, _, _⟩ := Recovery.cheapest?_finds sound fits.inside here searched
      refine Or.inr ⟨?_, repair.resume, rfl, ?_⟩
      · change machine.position ≤ (repair.skipped.getLast?.map (·.stop)).getD machine.position
        rw [← tile.stop_eq]
        exact tile.bounds.1
      · rw [Recovery.states_apply]
        exact feasible.continues
  | skips _ proper => exact Or.inl (here.lt_stop proper)

namespace Machine

theorem position_le_of_step (sound : job.Sound) (fits : machine.Fits job)
    (done : machine.step job = .ok (.inl next)) : machine.position ≤ next.position := by
  obtain ⟨lookahead, ahead, looked, responds⟩ := step_responds done
  have looks := lookahead_fits job sound fits looked
  have here := looks.lookahead
  rw [← looks.position_eq]
  cases responds with
  | reduce _ reduces =>
      obtain ⟨production, stack, _, _, rfl⟩ := reduce_ok.mp reduces
      exact Nat.le_refl _
  | @shift token target acts =>
      have stop := LexedToken.Fits.stop_eq here
      change ahead.position ≤ token.stop
      omega
  | shiftReused => exact Nat.le_add_right _ _
  | push => exact Nat.le_add_right _ _
  | enter => exact Nat.le_refl _
  | lex => exact Nat.le_refl _
  | recover _ done =>
      rcases Recovery.recover_passes sound looks.fits here done with beyond | ⟨reached, _⟩
      · exact Nat.le_of_lt beyond
      · exact reached

theorem Passes.step (sound : job.Sound) (fits : machine.Fits job) {position : Nat}
    (passes : machine.Passes job position) (done : machine.step job = .ok (.inl next)) :
    next.Passes job position := by
  rcases passes with beyond | ⟨reached, token, waits, reductions, last, simulates⟩
  · exact Or.inl (Nat.lt_of_lt_of_le beyond (position_le_of_step sound fits done))
  · cases simulates with
    | consumes consumed =>
        rw [fits.follows.actionOn_states] at consumed
        have here : token.FitsAt job.table job.text machine.position := fits.pending _ waits
        rw [step_of_looked (lookahead_of_pending waits)] at done
        dsimp only at done
        rcases consumed.shift_or_accept with ⟨target, acts⟩ | acts
        · rw [acts] at done
          cases done
          exact Or.inl (Nat.lt_of_le_of_lt reached (here.lt_stop (sound.ends.ne_endOfInput here.terminal acts)))
        · rw [acts] at done
          cases done
    | reduces acts found left goes further =>
        rw [fits.follows.actionOn_states] at acts
        obtain ⟨after, stepped, _, afterWaits, afterPosition, afterStates⟩ :=
          fits.step_of_states sound waits acts found left goes
        cases stepped.symm.trans done
        exact Or.inr ⟨afterPosition ▸ reached, token, afterWaits, _, _, afterStates ▸ further⟩

theorem Passes.lt_of_stuck (fits : machine.Fits job) {position : Nat} (passes : machine.Passes job position)
    {token : LexedToken} (stuck : machine.stuckOn? job = some (token, next)) : position < machine.position := by
  rcases passes with beyond | ⟨_, other, waits, reductions, last, simulates⟩
  · exact beyond
  · obtain ⟨looked, error⟩ := stuckOn?_eq_some.mp stuck
    cases (lookahead_of_pending waits).symm.trans looked
    change job.table.action machine.stack.state token.kind = .error at error
    rw [← fits.follows.actionOn_states] at error
    cases simulates with
    | consumes consumed =>
        rw [error] at consumed
        exact consumed.elim
    | reduces acts =>
        rw [error] at acts
        cases acts

structure Increase (job : Job) (machine : Machine) (positions : List Nat) : Prop where
  pairwise : positions.Pairwise (· < ·)
  inside : ∀ position, position ∈ positions → position ≤ job.text.size
  beyond : ∀ before, machine.Passes job before → ∀ position, position ∈ positions → before < position

theorem Increase.nil : Increase job machine [] where
  pairwise := .nil
  inside := fun _ none => absurd none List.not_mem_nil
  beyond := fun _ _ _ none => absurd none List.not_mem_nil

theorem Increase.cons (fits : machine.Fits job) {positions : List Nat} (later : Increase job machine positions)
    {token : LexedToken} {ahead : Machine} (stuck : machine.stuckOn? job = some (token, ahead))
    (after : ∀ position, position ∈ positions → machine.position < position) :
    Increase job machine (machine.position :: positions) where
  pairwise := List.pairwise_cons.mpr ⟨after, later.pairwise⟩
  inside := List.forall_mem_cons.mpr ⟨fits.inside, later.inside⟩
  beyond := fun before passes =>
    List.forall_mem_cons.mpr ⟨passes.lt_of_stuck fits stuck, later.beyond before passes⟩

theorem Increase.length_le {positions : List Nat} (increase : Increase job machine positions) :
    positions.length ≤ job.text.size + 1 := by
  have distinct : positions.Nodup := increase.pairwise.imp Nat.ne_of_lt
  have among : positions.toFinset ⊆ Finset.range (job.text.size + 1) := by
    intro position member
    exact Finset.mem_range.mpr (Nat.lt_succ_of_le (increase.inside position (List.mem_toFinset.mp member)))
  have counted := Finset.card_le_card among
  rw [List.toFinset_card_of_nodup distinct, Finset.card_range] at counted
  exact counted

end Machine

end Positions

namespace Pairs

theorem repairs : (((Machine.after (parser.job 100 longer) 5 (.start none 0)).bind
    (·.stuckOn? (parser.job 100 longer))).any fun stuck =>
      match Recovery.cheapest? (parser.job 100 longer) stuck.2 stuck.1 with
      | .ok (some _) => true
      | _ => false) = true := by
  rw [parser_eq]
  decide +kernel

end Pairs

end IncrementalParsing
