import IncrementalParsing.Proofs.Parsing.Places

/-!
Machines without an old tree. Their lookahead is what the lexer answers in the mode that is due, and goes on
being that while reductions wait for it. So a step of such a machine is a shift or a reduction on a token,
the acceptance of the text, or what recovery makes of an error.
-/

namespace IncrementalParsing

open Green

/-- A machine without an old tree, whose pending lookahead is the token at its position. -/
structure Machine.Unaided (job : Job) (machine : Machine) : Prop where
  reuse : machine.reuse = none
  pending : ∀ lookahead, machine.pending = some lookahead → ∃ token, lookahead = .lexed token ∧
    machine.mode = some token.lexMode ∧ job.lex machine.position token.lexMode = .ok token

namespace Machine

variable {job : Job} {machine : Machine}

theorem nextLookahead_of_none (none : machine.reuse = none) : machine.nextLookahead job = (do
    let token ← job.lex machine.position (machine.dueMode job.table)
    return (.lexed token, { machine with mode := some (machine.dueMode job.table) })) := by
  unfold nextLookahead offer
  dsimp only
  rw [none]

def decidesOn (machine : Machine) (token : LexedToken) : Machine :=
  { machine with mode := some token.lexMode, pending := none }

theorem Fits.decidesOn (fits : machine.Fits job) (token : LexedToken) : (machine.decidesOn token).Fits job :=
  ⟨fits.follows, fits.sound, fits.stop_eq, fits.inside, (fun _ none => by cases none), fits.reuse⟩

structure LooksTo (job : Job) (machine : Machine) (token : LexedToken) : Prop where
  lookahead : machine.lookahead job = .ok (.lexed token, machine.decidesOn token)
  due : machine.dueMode job.table = token.lexMode
  lexed : job.lex machine.position token.lexMode = .ok token

theorem LooksTo.unique {token other : LexedToken} (looks : machine.LooksTo job token)
    (looksToo : machine.LooksTo job other) : token = other := by
  cases looks.lookahead.symm.trans looksToo.lookahead
  rfl

theorem LooksTo.of_idle (none : machine.reuse = none) (idle : machine.pending = Option.none)
    {token : LexedToken} (due : machine.dueMode job.table = token.lexMode)
    (lexed : job.lex machine.position token.lexMode = .ok token) : machine.LooksTo job token := by
  refine ⟨?_, due, lexed⟩
  unfold Machine.lookahead
  rw [idle]
  change machine.nextLookahead job = _
  rw [nextLookahead_of_none none, due, lexed]
  unfold decidesOn
  rw [← idle]
  rfl

theorem LooksTo.of_pending {token : LexedToken} (waiting : machine.pending = some (.lexed token))
    (moded : machine.mode = some token.lexMode)
    (lexed : job.lex machine.position token.lexMode = .ok token) : machine.LooksTo job token := by
  refine ⟨?_, ?_, lexed⟩
  · unfold Machine.lookahead
    rw [waiting]
    unfold decidesOn
    rw [← moded]
  · unfold dueMode
    rw [moded]
    rfl

theorem Unaided.looks (sound : job.Sound) (fits : machine.Fits job) (unaided : machine.Unaided job)
    {lookahead : Lookahead} {next : Machine} (done : machine.lookahead job = .ok (lookahead, next)) :
    ∃ token, lookahead = .lexed token ∧ next = machine.decidesOn token ∧ machine.LooksTo job token := by
  cases waiting : machine.pending with
  | some found =>
      obtain ⟨token, rfl, moded, lexed⟩ := unaided.pending found waiting
      have looks := LooksTo.of_pending waiting moded lexed
      cases looks.lookahead.symm.trans done
      exact ⟨token, rfl, rfl, looks⟩
  | none =>
      have done' := done
      unfold Machine.lookahead at done'
      rw [waiting] at done'
      change machine.nextLookahead job = _ at done'
      rw [nextLookahead_of_none unaided.reuse] at done'
      obtain ⟨token, lexed, _⟩ := bind_ok.mp done'
      have mode := (Job.lex_fits sound fits.inside lexed).mode_eq
      have looks := LooksTo.of_idle unaided.reuse waiting mode.symm (by rw [mode]; exact lexed)
      cases looks.lookahead.symm.trans done
      exact ⟨token, rfl, rfl, looks⟩

/-! ### Steps -/

theorem step_of_looked {next : Machine} {token : LexedToken}
    (looked : machine.lookahead job = .ok (.lexed token, next)) :
    machine.step job =
      match job.table.action next.stack.state token.kind with
      | .reduce id => (do return .inl (← next.reduce job id (.lexed token)))
      | .shift target => .ok (.inl (next.shiftToken target token))
      | .accept => .ok (.inr (next.stack.toRoot job.table (next.nextSerial + 1)
          (endToken token next.nextSerial)))
      | .error => Recovery.recover job next token := by
  have kind : (Lookahead.lexed token).kind = token.kind := rfl
  unfold step
  rw [looked]
  dsimp only [bind, Except.bind]
  rw [kind]
  cases job.table.action next.stack.state token.kind with
  | reduce id => rfl
  | shift target => rfl
  | accept => rfl
  | error => rfl

theorem step_shift {ahead : Machine} {token : LexedToken} {target : StateId}
    (looks : machine.lookahead job = .ok (.lexed token, ahead))
    (acts : job.table.action ahead.stack.state token.kind = .shift target) :
    machine.step job = .ok (.inl (ahead.shiftToken target token)) := by
  rw [step_of_looked looks, acts]

theorem step_accept {ahead : Machine} {token : LexedToken}
    (looks : machine.lookahead job = .ok (.lexed token, ahead))
    (acts : job.table.action ahead.stack.state token.kind = .accept) :
    machine.step job = .ok (.inr (ahead.stack.toRoot job.table (ahead.nextSerial + 1)
      (endToken token ahead.nextSerial))) := by
  rw [step_of_looked looks, acts]

theorem step_error {ahead : Machine} {token : LexedToken}
    (looks : machine.lookahead job = .ok (.lexed token, ahead))
    (acts : job.table.action ahead.stack.state token.kind = .error) :
    machine.step job = Recovery.recover job ahead token := by
  rw [step_of_looked looks, acts]

theorem step_reduce {ahead next : Machine} {token : LexedToken} {id : ProductionId}
    (looks : machine.lookahead job = .ok (.lexed token, ahead))
    (acts : job.table.action ahead.stack.state token.kind = .reduce id)
    (reduced : ahead.reduce job id (.lexed token) = .ok next) :
    machine.step job = .ok (.inl next) := by
  rw [step_of_looked looks, acts]
  exact bind_ok.mpr ⟨next, reduced, rfl⟩

structure Advances (job : Job) (machine next : Machine) : Prop where
  step : machine.step job = .ok (.inl next)
  decides : ∃ token ahead, machine.lookahead job = .ok (.lexed token, ahead) ∧
    ((∃ target, job.table.action ahead.stack.state token.kind = .shift target) ∨
      ∃ id, job.table.action ahead.stack.state token.kind = .reduce id)

inductive Does (job : Job) (machine : Machine) (token : LexedToken) : Machine ⊕ Node → Prop
  | shift {target : StateId} : job.table.action machine.stack.state token.kind = .shift target →
      Does job machine token (.inl ((machine.decidesOn token).shiftToken target token))
  | reduce {id : ProductionId} {next : Machine} :
      job.table.action machine.stack.state token.kind = .reduce id →
      (machine.decidesOn token).reduce job id (.lexed token) = .ok next → Does job machine token (.inl next)
  | accept : job.table.action machine.stack.state token.kind = .accept →
      Does job machine token (.inr (machine.stack.toRoot job.table (machine.nextSerial + 1)
        (endToken token machine.nextSerial)))
  | repair {repair : Recovery.Repair} : repair.Fits job machine.position →
      Does job machine token (.inl (Recovery.apply job (machine.decidesOn token) repair))
  | giveUp : Does job machine token (Recovery.giveUp job (machine.decidesOn token) token)

theorem Unaided.does (sound : job.Sound) (fits : machine.Fits job) (unaided : machine.Unaided job)
    {answer : Machine ⊕ Node} (done : machine.step job = .ok answer) :
    ∃ token, machine.LooksTo job token ∧ machine.Does job token answer := by
  obtain ⟨lookahead, next, looked, responds⟩ := step_responds done
  obtain ⟨token, rfl, rfl, looks⟩ := unaided.looks sound fits looked
  refine ⟨token, looks, ?_⟩
  cases responds with
  | reduce acts reduces => exact .reduce acts reduces
  | shift acts => exact .shift acts
  | accept acts => exact .accept acts
  | recover _ done =>
      have here : token.FitsAt job.table job.text machine.position :=
        (Job.lex_fits sound fits.inside looks.lexed).at
      unfold Recovery.recover at done
      obtain ⟨found, searched, done⟩ := bind_ok.mp done
      cases found with
      | some repair =>
          cases pure_ok.mp done
          exact .repair (Recovery.cheapest?_fits sound fits.inside here searched)
      | none =>
          cases pure_ok.mp done
          exact .giveUp

/-- Whatever a machine without an old tree does, it stays one. -/
theorem Does.unaided (unaided : machine.Unaided job) {token : LexedToken}
    (looks : machine.LooksTo job token) {next : Machine} (does : machine.Does job token (.inl next)) :
    next.Unaided job := by
  generalize answerIs : Sum.inl next = answer at does
  cases does with
  | shift acts =>
      cases answerIs
      exact ⟨unaided.reuse, fun _ none => by cases none⟩
  | reduce acts reduced =>
      cases answerIs
      obtain ⟨production, stack, _, _, rfl⟩ := reduce_ok.mp reduced
      refine ⟨unaided.reuse, ?_⟩
      intro lookahead same
      cases same
      exact ⟨token, rfl, rfl, looks.lexed⟩
  | accept => cases answerIs
  | @repair repair fits =>
      cases answerIs
      obtain ⟨stop, tile, _, lexed⟩ := fits.skipped
      refine ⟨unaided.reuse, ?_⟩
      intro lookahead same
      cases same
      refine ⟨repair.resume, rfl, rfl, ?_⟩
      change job.lex ((repair.skipped.getLast?.map (·.stop)).getD machine.position) _ = _
      rw [← tile.stop_eq]
      exact lexed
  | giveUp =>
      unfold Recovery.giveUp at answerIs
      split at answerIs
      · cases answerIs
      · cases answerIs
        exact ⟨unaided.reuse, fun _ none => by cases none⟩

/-! ### Reductions -/

/-- What a machine without an old tree reduces: the entries on top of its stack below the extras, and the
node that takes their place. -/
structure Reduces (job : Job) (machine : Machine) (token : LexedToken) (production : ProductionInfo)
    (taken : List StackEntry) (below : ParseStack) (target : StateId) (node : Node) : Prop where
  acts : ∃ id, job.table.action machine.stack.state token.kind = .reduce id ∧
    job.table.production id = .ok production
  core : machine.stack.dropWhile (·.extra) = taken ++ below
  counted : (ParseStack.plain taken).length = production.length
  goes : job.table.goto below.state production.lhs = some target
  built : buildNode job.table machine.nextSerial production taken.reverse
    (ParseStack.reductionOrigin job.table machine.stack below token.examinedEnd token.lexMode) = .ok node
  assembled : Assembled production taken.reverse
    (ParseStack.reductionOrigin job.table machine.stack below token.examinedEnd token.lexMode) node
  sound : node.element.Sound job.table
  length_eq : node.textLength = totalLength taken

def reduced (machine : Machine) (token : LexedToken) (below : ParseStack) (target : StateId) (node : Node) :
    Machine :=
  { machine with
    stack := (machine.stack.takeWhile (·.extra)).map (fun entry => { entry with state := target }) ++
      below.push target node.element
    mode := some token.lexMode
    pending := some (.lexed token)
    nextSerial := machine.nextSerial + 1 }

theorem reduce_reduces (sound : job.Sound) (declared : job.table.Declared) (fits : machine.Fits job)
    {token : LexedToken} {id : ProductionId}
    (acts : job.table.action machine.stack.state token.kind = .reduce id) {next : Machine}
    (done : (machine.decidesOn token).reduce job id (.lexed token) = .ok next) :
    ∃ production taken below target node, machine.Reduces job token production taken below target node ∧
      next = machine.reduced token below target node := by
  obtain ⟨production, stack, found, reduced, rfl⟩ := reduce_ok.mp done
  have numbered : job.table.Numbered := sound.table
  have lhs := numbered.lhs production (Array.mem_of_getElem? (requireAt_ok.mp found))
  obtain ⟨entries, below, target, node, popped, goes, built, rfl⟩ := ParseStack.reduce_ok.mp reduced
  obtain ⟨taken, shape, order, counted⟩ := ParseStack.popEntries_ok popped
  rw [List.append_nil] at order
  subst order
  have entriesSound := (fits.follows.core.1.popped fits.sound.core popped).2.2.1
  obtain ⟨again, rebuilt, builtFrom⟩ := buildNode_builtFrom
    (ParseStack.reductionOrigin job.table machine.stack below token.examinedEnd token.lexMode)
    machine.nextSerial lhs.2 rfl entriesSound
  cases rebuilt.symm.trans built
  refine ⟨production, taken, below, target, node, ?_, rfl⟩
  exact {
    acts := ⟨id, acts, found⟩
    core := shape
    counted
    goes
    built
    assembled := buildNode_assembled declared.error_visible (numbered.ne_error lhs.1) lhs.2 entriesSound built
    sound := builtFrom.sound
    length_eq := builtFrom.length_eq.trans (totalLength_reverse taken) }

namespace Reduces

variable {token : LexedToken} {production : ProductionInfo} {taken : List StackEntry} {below : ParseStack}
  {target : StateId} {node : Node} (reduces : machine.Reduces job token production taken below target node)

include reduces

theorem among : (∀ entry, entry ∈ taken → entry ∈ machine.stack) ∧
    ∀ entry, entry ∈ below → entry ∈ machine.stack := by
  have core : ∀ entry, entry ∈ taken ++ below → entry ∈ machine.stack := by
    intro entry member
    rw [← reduces.core] at member
    exact (List.dropWhile_sublist _).subset member
  exact ⟨fun entry member => core entry (List.mem_append_left _ member),
    fun entry member => core entry (List.mem_append_right _ member)⟩

theorem hasError_eq (named : ∀ entry, entry ∈ machine.stack → entry.element.Everywhere Element.RopeNamed) :
    node.info.hasError = anyError (contents taken.reverse) :=
  reduces.assembled.hasError_eq
    (fun entry member => named entry (reduces.among.1 entry (List.mem_reverse.mp member)))

end Reduces

end Machine

end IncrementalParsing
