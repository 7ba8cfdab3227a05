import IncrementalParsing.Proofs.Lexing.Reports
import IncrementalParsing.Proofs.Lexing.Total
import IncrementalParsing.Proofs.Parsing.Limits
import IncrementalParsing.Proofs.Parsing.Reachable
import IncrementalParsing.Proofs.Parsing.States
import IncrementalParsing.Proofs.Parsing.Unaided

/-!
Parsing from the beginning comes to an end when chains of reductions do. Between two chains a machine
either consumes text or carries out a repair, and after a repair the next chain ends with text consumed
or with the root. Limits on the number of steps are arbitrary: what is shown holds for all limits from
some limit on.
-/

namespace IncrementalParsing

open Green

namespace Recovery

theorem states_pushError (job : Job) (machine : Machine) (elements : List Element) (examinedEnd : Nat) :
    ParseStack.states (pushError job machine elements examinedEnd).stack =
      ParseStack.states machine.stack := by
  unfold pushError
  cases machine.stack with
  | nil => exact ParseStack.states_extra rfl _
  | cons top below =>
      dsimp only
      split
      · rename_i extra
        rw [ParseStack.states_extra extra]
        exact ParseStack.states_extra rfl _
      · exact ParseStack.states_extra rfl _

theorem states_apply (job : Job) (machine : Machine) (repair : Repair) :
    ParseStack.states (apply job machine repair).stack =
      ParseStack.states (machine.stack.drop repair.popped) :=
  states_pushError job _ _ _

end Recovery

/-- What a computation with a limit answers for all limits from some limit on. -/
def Eventually {α : Type} (computation : Nat → Except Fault α) (answer : α) : Prop :=
  ∃ least, ∀ limit, least ≤ limit → computation limit = .ok answer

theorem Eventually.always {α : Type} {computation : Nat → Except Fault α} {answer : α}
    (always : ∀ limit, computation limit = .ok answer) : Eventually computation answer :=
  ⟨0, fun limit _ => always limit⟩

theorem Eventually.bind {α β : Type} {first : Nat → Except Fault α} {next : Nat → α → Except Fault β}
    {middle : α} {answer : β} (firstly : Eventually first middle)
    (then_ : Eventually (fun limit => next limit middle) answer) :
    Eventually (fun limit => first limit >>= next limit) answer := by
  obtain ⟨least, firstly⟩ := firstly
  obtain ⟨more, then_⟩ := then_
  refine ⟨max least more, fun limit enough => ?_⟩
  exact bind_ok.mpr ⟨middle, firstly limit (by omega), then_ limit (by omega)⟩

/-- A parser whose runs are looked at: its language is sound, its lexer always answers, and chains of
reductions end. -/
structure Parser.Ready (parser : Parser) (text : Array UInt8) : Prop where
  sound : parser.language.Sound
  complete : parser.language.lexer.Complete
  small : parser.language.table.Small
  settling : parser.language.table.Settling
  measures : parser.Measures text

theorem Machine.Reaches.within {job : Job} {limit : Nat} (le : job.stepLimit ≤ limit) {first last : Machine}
    (reached : Reaches job first last) : Reaches (job.within limit) first last := by
  induction reached with
  | refl => exact .refl
  | step _ stepped ih => exact .step ih (step_carries le _ _ stepped)

/-- Wherever the run of a machine comes to, the highest cost of a repair is a size. -/
def Machine.Roomy (parser : Parser) (text : Array UInt8) (machine : Machine) : Prop :=
  ∀ limit later, Machine.Reaches (parser.job limit text) machine later →
    parser.maxSkipped + later.stack.length < sizeLimit

theorem Machine.Roomy.step {parser : Parser} {text : Array UInt8} {machine next : Machine}
    (roomy : machine.Roomy parser text)
    (stepped : Eventually (fun limit => machine.step (parser.job limit text)) (.inl next)) :
    next.Roomy parser text := by
  obtain ⟨least, steps⟩ := stepped
  intro limit later reached
  have longer : Machine.Reaches (parser.job (max limit least) text) next later :=
    reached.within (Nat.le_max_left limit least)
  exact roomy _ later (longer.head (steps _ (Nat.le_max_right limit least)))

section Runs

variable {parser : Parser} {text : Array UInt8} (ready : parser.Ready text)

/-- A machine that comes to a root within some number of steps, and then within any larger one, if there is room. -/
def Machine.Returns (parser : Parser) (text : Array UInt8) (machine : Machine) : Prop :=
  machine.Roomy parser text → ∃ root least, ∀ limit fuel, least ≤ limit → least ≤ fuel →
    machine.run (parser.job limit text) fuel = .ok root

/-- A machine without an old tree, in a mode that the table knows. -/
structure Machine.Plain (parser : Parser) (text : Array UInt8) (machine : Machine) : Prop where
  fits : machine.Fits (parser.job 0 text)
  reuse : machine.reuse = none
  pending : ∀ lookahead, machine.pending = some lookahead → ∃ token, lookahead = .lexed token
  mode_lt : ∀ mode, machine.mode = some mode → mode.index < parser.language.table.lexModeCount

include ready

theorem settles_of_path {states : List StateId} {terminal : KindId}
    (path : parser.language.table.Path states)
    (isTerminal : parser.language.table.isTerminal terminal = true) :
    ∃ last, parser.language.table.Settles terminal states last := by
  obtain ⟨items, chart⟩ := ready.sound.chart ready.small
  exact ready.settling.settles ready.sound.table chart isTerminal _ states (Nat.le_refl _) path

theorem lex_total (limit : Nat) {position : Nat} (inside : position ≤ text.size) {mode : LexMode}
    (known : mode.index < parser.language.table.lexModeCount) :
    ∃ token, (parser.job limit text).lex position mode = .ok token := by
  obtain ⟨token, found⟩ := Lexer.read_total ready.complete text position known
  have reports : (parser.job limit text).language.lexer.Reports (parser.job limit text).text position mode :=
    ready.measures.reports position mode inside
  exact ⟨token, reports.lex_eq.trans found⟩

/-! ### Searching for a repair -/

/-- A repair after which the next chain of reductions ends with its token consumed. -/
structure Resumes (parser : Parser) (text : Array UInt8) (machine : Machine)
    (repair : Recovery.Repair) : Prop where
  fits : repair.Fits (parser.job 0 text) machine.position
  mode_lt : repair.resume.lexMode.index < parser.language.table.lexModeCount
  consumed : ∃ last, parser.language.table.Settles repair.resume.kind
    (ParseStack.states (machine.stack.drop repair.popped)) last ∧ Recovery.Consumes last

section Searches

variable (machine : Machine) (plain : machine.Plain parser text)

include plain

theorem attempt_eventually {skips : Recovery.Skips} (fit : skips.Fit (parser.job 0 text) machine.position)
    {skipped : Nat} (within : skipped ≤ skips.tokens.size) (popped : Nat) :
    ∃ answer, Eventually (fun limit =>
      (Recovery.searchFor (parser.job limit text) machine).attempt skips skipped popped)
      answer ∧ ∀ repair, answer = some repair → Resumes parser text machine repair := by
  obtain ⟨items, chart⟩ := ready.sound.chart ready.small
  have tile := Recovery.Skips.take_fit fit within
  have inside := tile.bounds.2 plain.fits.inside
  have states : ((Recovery.statesBelow machine.stack).toArray[popped]?).getD [.start] =
      ParseStack.states (machine.stack.drop popped) := by
    rw [List.getElem?_toArray]
    exact Recovery.statesBelow_getElem? machine.stack popped
  have path := (plain.fits.follows.drop popped).path ready.sound.table (plain.fits.sound.drop popped)
  have known := ready.sound.framed.lexMode_lt
    ((ParseStack.states (machine.stack.drop popped)).head?.getD .start)
  obtain ⟨resume, lexed⟩ := lex_total ready 0 inside known
  have fits := Job.lex_fits (show (parser.job 0 text).Sound from ready.sound) inside lexed
  obtain ⟨last, settles⟩ := settles_of_path ready path fits.terminal
  obtain ⟨answer, least, answers, meaning⟩ :=
    Recovery.canContinueFrom_settles ready.sound.table chart fits.terminal path settles
  refine ⟨if answer = true then some ⟨skips.tokens.toList.take skipped, popped, resume⟩ else none,
    ⟨least, fun limit enough => ?_⟩, ?_⟩
  · unfold Recovery.Search.attempt
    dsimp only
    change (do
      let resume ← (parser.job limit text).lex (skips.stopAfter machine.position skipped)
        (parser.language.table.lexMode ((((Recovery.statesBelow machine.stack).toArray[popped]?).getD
          [.start]).head?.getD .start))
      let possible ← Recovery.canContinueFrom parser.language.table resume.kind limit
        (((Recovery.statesBelow machine.stack).toArray[popped]?).getD [.start])
      pure (if possible = true then
        some (⟨skips.tokens.toList.take skipped, popped, resume⟩ : Recovery.Repair) else none)) = _
    rw [states]
    refine bind_ok.mpr ⟨resume, lexed, bind_ok.mpr ⟨answer, answers limit enough, rfl⟩⟩
  · intro repair found
    split at found
    · rename_i continues
      cases found
      refine ⟨⟨_, tile, fits.at, by rw [fits.mode_eq]; exact lexed⟩, ?_, last, settles, meaning.mp continues⟩
      rw [fits.mode_eq]
      exact known
    · cases found

theorem tryPopping_eventually {skips : Recovery.Skips}
    (fit : skips.Fit (parser.job 0 text) machine.position) (cost : Nat) : ∀ count popped : Nat,
    ∃ answer, Eventually
      (fun limit => (Recovery.searchFor (parser.job limit text) machine).tryPopping skips cost count popped) answer ∧
      ∀ repair, answer = some repair → Resumes parser text machine repair
  | 0, popped => ⟨none, .always (fun _ => rfl), fun _ impossible => (nomatch impossible)⟩
  | count + 1, popped => by
      obtain ⟨later, eventually, repairs⟩ := tryPopping_eventually fit cost count (popped + 1)
      rcases Decidable.em (cost - popped > min parser.maxSkipped text.size ∨
          cost - popped > skips.tokens.size) with beyond | allowed
      · refine ⟨later, ?_, repairs⟩
        obtain ⟨least, answers⟩ := eventually
        refine ⟨least, fun limit enough => ?_⟩
        unfold Recovery.Search.tryPopping
        exact (if_pos beyond).trans (answers limit enough)
      · obtain ⟨here, tried, found⟩ := attempt_eventually ready machine plain fit
          (show cost - popped ≤ skips.tokens.size by omega) popped
        obtain ⟨first, tries⟩ := tried
        obtain ⟨second, answers⟩ := eventually
        cases here with
        | some repair =>
            refine ⟨some repair, ⟨first, fun limit enough => ?_⟩, fun _ same => found _ same⟩
            unfold Recovery.Search.tryPopping
            exact (if_neg allowed).trans (bind_ok.mpr ⟨_, tries limit enough, rfl⟩)
        | none =>
            refine ⟨later, ⟨max first second, fun limit enough => ?_⟩, repairs⟩
            unfold Recovery.Search.tryPopping
            exact (if_neg allowed).trans
              (bind_ok.mpr ⟨_, tries limit (by omega), answers limit (by omega)⟩)

theorem known_eventually {skips : Recovery.Skips}
    (fit : skips.Fit (parser.job 0 text) machine.position) (cost : Nat) :
    ∃ more, Eventually (fun limit => (Recovery.searchFor (parser.job limit text) machine).known cost skips) more ∧
      more.Fit (parser.job 0 text) machine.position := by
  have known : LexMode.error.index < parser.language.table.lexModeCount := ready.sound.framed.modes_pos
  have inside := (Recovery.Skips.take_fit fit (Nat.le_refl _)).bounds.2 plain.fits.inside
  obtain ⟨token, lexed⟩ := lex_total ready 0 inside known
  have grown : ∃ more, ∀ limit, (Recovery.searchFor (parser.job limit text) machine).known cost skips = .ok more := by
    unfold Recovery.Search.known
    rcases Decidable.em ((!skips.ended && decide (skips.tokens.size < min cost
        (min parser.maxSkipped text.size))) = true) with wanted | enough
    · refine ⟨if token.kind = .endOfInput then { skips with ended := true }
        else { skips with tokens := skips.tokens.push token }, fun limit => ?_⟩
      refine (if_pos wanted).trans ?_
      exact bind_ok.mpr ⟨token, lexed, by split <;> rfl⟩
    · exact ⟨skips, fun limit => if_neg enough⟩
  obtain ⟨more, same⟩ := grown
  exact ⟨more, .always same, @Recovery.Search.known_fit (Recovery.searchFor (parser.job 0 text) machine) ready.sound
    plain.fits.inside _ _ _ fit (same 0)⟩

theorem tryCosts_eventually : ∀ (count cost : Nat) (skips : Recovery.Skips),
    skips.Fit (parser.job 0 text) machine.position →
    ∃ answer, Eventually (fun limit => (Recovery.searchFor (parser.job limit text) machine).tryCosts count cost skips)
      answer ∧ ∀ repair, answer = some repair → Resumes parser text machine repair
  | 0, cost, skips, _ => ⟨none, .always (fun _ => rfl), fun _ impossible => (nomatch impossible)⟩
  | count + 1, cost, skips, fit => by
      obtain ⟨more, known, moreFit⟩ := known_eventually ready machine plain fit cost
      obtain ⟨here, tried, found⟩ := tryPopping_eventually ready machine plain moreFit cost
        (min cost (Recovery.searchFor (parser.job 0 text) machine).depth + 1) 0
      obtain ⟨later, eventually, repairs⟩ := tryCosts_eventually count (cost + 1) more moreFit
      simp only [Recovery.Search.tryCosts_succ]
      cases here with
      | some repair => exact ⟨some repair, .bind known (.bind tried (.always (fun _ => rfl))), found⟩
      | none => exact ⟨later, .bind known (.bind tried eventually), repairs⟩

theorem cheapest?_eventually (room : parser.maxSkipped + machine.stack.length < sizeLimit) {token : LexedToken}
    (fits : token.FitsAt parser.language.table text machine.position) :
    ∃ answer, Eventually (fun limit => Recovery.cheapest? (parser.job limit text) machine token) answer ∧
      ∀ repair, answer = some repair → Resumes parser text machine repair := by
  obtain ⟨answer, ⟨least, searches⟩, resumes⟩ := tryCosts_eventually ready machine plain
    ((Recovery.searchFor (parser.job 0 text) machine).maxSkipped +
      (Recovery.searchFor (parser.job 0 text) machine).depth) 1 _ (Recovery.Skips.start_fit fits)
  exact ⟨answer, ⟨least, fun limit enough => Recovery.cheapest?_ok.mpr ⟨room, searches limit enough⟩⟩, resumes⟩

end Searches

/-! ### Running to the end -/

omit ready in
theorem Machine.Returns.of_step {text : Array UInt8} {machine : Machine} (answer : Machine ⊕ Node)
    (stepped : Eventually (fun limit => machine.step (parser.job limit text)) answer)
    (goes : ∀ next, answer = .inl next → next.Returns parser text) : machine.Returns parser text := by
  intro roomy
  have begun := stepped
  obtain ⟨least, steps⟩ := stepped
  cases answer with
  | inr root =>
      refine ⟨root, least + 1, fun limit fuel enough more => ?_⟩
      obtain ⟨fuel, rfl⟩ := Nat.exists_eq_add_of_le' (Nat.le_trans (Nat.le_add_left 1 least) more)
      exact bind_ok.mpr ⟨.inr root, steps limit (by omega), rfl⟩
  | inl next =>
      obtain ⟨root, later, runs⟩ := goes next rfl (roomy.step begun)
      refine ⟨root, max least later + 1, fun limit fuel enough more => ?_⟩
      obtain ⟨fuel, rfl⟩ := Nat.exists_eq_add_of_le' (Nat.le_trans (Nat.le_add_left 1 _) more)
      exact bind_ok.mpr ⟨.inl next, steps limit (by omega), runs limit fuel (by omega) (by omega)⟩

omit ready in
theorem Machine.lookahead_of_pending {job : Job} {machine : Machine} {lookahead : Lookahead}
    (waiting : machine.pending = some lookahead) :
    machine.lookahead job = .ok (lookahead, { machine with pending := none }) := by
  unfold Machine.lookahead
  rw [waiting]

omit ready in
theorem Machine.step_of_reduce {job : Job} {machine : Machine} {token : LexedToken} {id : ProductionId}
    {production : ProductionInfo} {stack : ParseStack}
    (waiting : machine.pending = some (.lexed token))
    (acts : job.table.action machine.stack.state token.kind = .reduce id)
    (found : job.table.production id = .ok production)
    (reduced : machine.stack.reduce job.table machine.nextSerial production
      ((Lookahead.lexed token).examinedEnd machine.position) token.lexMode = .ok stack) :
    machine.step job = .ok (.inl { machine with
      stack
      pending := some (.lexed token)
      nextSerial := machine.nextSerial + 1 }) := by
  refine (step_of_looked (lookahead_of_pending waiting)).trans ?_
  rw [show job.table.action ({ machine with pending := none } : Machine).stack.state token.kind =
    .reduce id from acts]
  exact bind_ok.mpr ⟨_, bind_ok.mpr ⟨production, found, bind_ok.mpr ⟨stack, reduced, rfl⟩⟩, rfl⟩

theorem Machine.Returns.of_settles {states : List StateId} {last : Action} {token : LexedToken}
    (settles : parser.language.table.Settles token.kind states last) :
    ∀ machine : Machine, machine.Plain parser text → machine.pending = some (.lexed token) →
      ParseStack.states machine.stack = states →
      (∀ final : Machine, final.Plain parser text → final.pending = some (.lexed token) →
        final.position = machine.position →
        parser.language.table.action final.stack.state token.kind = last → final.Returns parser text) →
      machine.Returns parser text := by
  induction settles with
  | stop ended =>
      intro machine plain waiting same goes
      refine goes machine plain waiting rfl ?_
      rw [← same]
      exact (plain.fits.follows.actionOn_states token.kind).symm
  | @step states next last reduced _ ih =>
      intro machine plain waiting same goes
      obtain ⟨items, chart⟩ := ready.sound.chart ready.small
      have fits := plain.fits
      have here : token.FitsAt parser.language.table text machine.position := fits.pending _ waiting
      obtain ⟨id, production, top, below, target, acts, found, left, goes_, shape⟩ :=
        Table.reduced?_eq_some reduced
      have action : parser.language.table.action machine.stack.state token.kind = .reduce id := by
        refine (fits.follows.actionOn_states token.kind).symm.trans ?_
        rw [same]
        exact acts
      obtain ⟨other, otherFound, reducible⟩ := fits.follows.reducible ready.sound.table chart fits.sound
        here.terminal action
      have sameProduction := (requireAt_ok.mp otherFound).symm.trans found
      cases sameProduction
      have known := ready.sound.table.lhs production (Array.mem_of_getElem? found)
      obtain ⟨stack, pushed⟩ := reducible.reduces known.2 fits.follows fits.sound machine.nextSerial
        ((Lookahead.lexed token).examinedEnd machine.position) token.lexMode
      obtain ⟨newTop, newBelow, newNext, newLeft, newGoes, newStates⟩ :=
        ParseStack.states_reduce pushed fits.follows
      rw [same, left] at newLeft
      cases newLeft
      cases goes_.symm.trans newGoes
      have idle : Machine.Fits (parser.job 0 text) { machine with pending := none } :=
        ⟨fits.follows, fits.sound, fits.stop_eq, fits.inside, (fun _ none => by cases none), fits.reuse⟩
      have done : ({ machine with pending := none } : Machine).reduce (parser.job 0 text) id
          (.lexed token) = .ok { machine with
            stack
            pending := some (.lexed token)
            nextSerial := machine.nextSerial + 1 } :=
        bind_ok.mpr ⟨production, otherFound, bind_ok.mpr ⟨stack, pushed, rfl⟩⟩
      have after := Machine.reduce_fits (show (parser.job 0 text).Sound from ready.sound) idle
        (show (Lookahead.lexed token).Fits (parser.job 0 text) machine.position from here) done
      refine .of_step (.inl { machine with
            stack
            pending := some (.lexed token)
            nextSerial := machine.nextSerial + 1 })
        (.always fun limit => Machine.step_of_reduce waiting action otherFound pushed) ?_
      intro next isNext
      cases isNext
      exact ih _ ⟨after, plain.reuse, fun _ waits => ⟨token, (Option.some.inj waits).symm⟩,
        plain.mode_lt⟩ rfl (newStates.trans shape.symm) goes

section Progress

variable {machine : Machine} (plain : machine.Plain parser text)
  (onward : ∀ next : Machine, next.Plain parser text → machine.position < next.position →
    next.Returns parser text)

include plain onward

/-- A machine whose next chain of reductions ends with its token consumed. -/
theorem Machine.Returns.of_consumes {token : LexedToken} {last : Action}
    (waiting : machine.pending = some (.lexed token))
    (settles : parser.language.table.Settles token.kind (ParseStack.states machine.stack) last)
    (consumes : Recovery.Consumes last) : machine.Returns parser text := by
  refine .of_settles ready settles machine plain waiting rfl ?_
  intro final finalPlain finalWaits position ends
  have fits := finalPlain.fits
  have here : token.FitsAt parser.language.table text final.position := fits.pending _ finalWaits
  have idle : Machine.Fits (parser.job 0 text) { final with pending := none } :=
    ⟨fits.follows, fits.sound, fits.stop_eq, fits.inside, (fun _ none => by cases none), fits.reuse⟩
  have stepped : ∀ limit, final.step (parser.job limit text) = _ :=
    fun limit => Machine.step_of_looked (Machine.lookahead_of_pending finalWaits)
  cases last with
  | shift target =>
      have shifted := Machine.shiftToken_fits (show (parser.job 0 text).Sound from ready.sound) idle rfl here ends
      refine .of_step (.inl (({ final with pending := none } : Machine).shiftToken target token))
        (.always fun limit => ?_) ?_
      · rw [stepped]
        rw [show (parser.job limit text).table.action ({ final with pending := none } : Machine).stack.state
          token.kind = .shift target from ends]
      · intro next isNext
        cases isNext
        refine onward _ ⟨shifted, finalPlain.reuse, (fun _ none => by cases none),
          (fun _ none => by cases none)⟩ ?_
        change machine.position < token.stop
        have advances := here.advances (ready.sound.ends.ne_endOfInput here.terminal ends)
        have start := here.start_eq
        unfold LexedToken.textStart at advances
        omega
  | accept =>
      refine .of_step (.inr (final.stack.toRoot parser.language.table (final.nextSerial + 1)
        (Machine.endToken token final.nextSerial))) (.always fun limit => ?_) (fun _ impossible => nomatch impossible)
      rw [stepped]
      rw [show (parser.job limit text).table.action ({ final with pending := none } : Machine).stack.state
        token.kind = .accept from ends]
      rfl
  | error => exact consumes.elim
  | reduce id => exact consumes.elim

theorem Machine.Returns.of_error {token : LexedToken} (idle : machine.pending = none)
    (room : parser.maxSkipped + machine.stack.length < sizeLimit)
    (here : token.FitsAt parser.language.table text machine.position) :
    ∃ answer, Eventually (fun limit => Recovery.recover (parser.job limit text) machine token) answer ∧
      ∀ next, answer = .inl next → next.Returns parser text := by
  obtain ⟨found, searched, repairs⟩ := cheapest?_eventually ready machine plain room here
  have sound : (parser.job 0 text).Sound := ready.sound
  cases found with
  | some repair =>
      have resumes := repairs repair rfl
      have fits := Machine.apply_fits sound plain.fits resumes.fits
      refine ⟨.inl (Recovery.apply (parser.job 0 text) machine repair),
        .bind searched (.always fun _ => rfl), ?_⟩
      intro next same
      cases same
      have isPlain : (Recovery.apply (parser.job 0 text) machine repair).Plain parser text := by
        refine ⟨fits, plain.reuse, ?_, ?_⟩
        · intro lookahead waits
          exact ⟨repair.resume, (Option.some.inj waits).symm⟩
        · intro mode known
          cases known
          exact resumes.mode_lt
      obtain ⟨stop, tile, _⟩ := resumes.fits.skipped
      have later : machine.position ≤ (Recovery.apply (parser.job 0 text) machine repair).position := by
        change _ ≤ (repair.skipped.getLast?.map (·.stop)).getD machine.position
        rw [← tile.stop_eq]
        exact tile.bounds.1
      obtain ⟨last, settles, consumes⟩ := resumes.consumed
      rw [← Recovery.states_apply (parser.job 0 text) machine repair] at settles
      exact .of_consumes ready isPlain
        (fun next nextPlain after => onward next nextPlain (Nat.lt_of_le_of_lt later after)) rfl settles consumes
  | none =>
      refine ⟨Recovery.giveUp (parser.job 0 text) machine token, .bind searched (.always fun _ => rfl), ?_⟩
      intro next gaveUp
      rcases Decidable.em (token.kind = .endOfInput) with ended | proper
      · unfold Recovery.giveUp at gaveUp
        rw [if_pos ended] at gaveUp
        cases gaveUp
      · have fits := Machine.wrap_fits sound plain.fits idle here proper gaveUp
        unfold Recovery.giveUp at gaveUp
        rw [if_neg proper] at gaveUp
        cases gaveUp
        refine onward _ ⟨fits, plain.reuse, plain.pending, fun _ none => by cases none⟩ ?_
        change machine.position < token.stop
        have advances := here.advances proper
        have start := here.start_eq
        unfold LexedToken.textStart at advances
        omega

theorem Machine.Returns.of_waiting {token : LexedToken}
    (waiting : machine.pending = some (.lexed token)) : machine.Returns parser text := by
  have fits := plain.fits
  have here : token.FitsAt parser.language.table text machine.position := fits.pending _ waiting
  have path := fits.follows.path ready.sound.table fits.sound
  obtain ⟨items, chart⟩ := ready.sound.chart ready.small
  obtain ⟨last, settles⟩ := settles_of_path ready path here.terminal
  cases last with
  | shift target => exact .of_consumes ready plain onward waiting settles trivial
  | accept => exact .of_consumes ready plain onward waiting settles trivial
  | reduce id => exact absurd rfl (settles.last_ne ready.sound.table chart path here.terminal id)
  | error =>
      refine .of_settles ready settles machine plain waiting rfl ?_
      intro final finalPlain finalWaits position ends
      have fits := finalPlain.fits
      have idlePlain : ({ final with pending := none } : Machine).Plain parser text :=
        ⟨⟨fits.follows, fits.sound, fits.stop_eq, fits.inside, (fun _ none => by cases none), fits.reuse⟩,
          finalPlain.reuse, (fun _ none => by cases none), finalPlain.mode_lt⟩
      intro roomy
      obtain ⟨answer, recovers, goes⟩ := Machine.Returns.of_error ready idlePlain
        (fun next nextPlain after => onward next nextPlain (position ▸ after)) rfl (roomy 0 final .refl)
        (show token.FitsAt parser.language.table text final.position from fits.pending _ finalWaits)
      refine Machine.Returns.of_step answer ?_ goes roomy
      obtain ⟨least, recovers⟩ := recovers
      refine ⟨least, fun limit enough => ?_⟩
      refine (Machine.step_of_looked (Machine.lookahead_of_pending finalWaits)).trans ?_
      rw [show (parser.job limit text).table.action ({ final with pending := none } : Machine).stack.state
        token.kind = .error from ends]
      exact recovers limit enough

end Progress

omit ready in
theorem Machine.Returns.of_alike {text : Array UInt8} {machine other : Machine}
    (alike : ∀ limit, machine.step (parser.job limit text) = other.step (parser.job limit text))
    (returns : other.Returns parser text) (same : other.stack = machine.stack) : machine.Returns parser text := by
  intro roomy
  have otherRoomy : other.Roomy parser text := by
    intro limit later reached
    rcases reached.cases_head with rfl | ⟨second, stepped, further⟩
    · exact same ▸ roomy limit machine .refl
    · exact roomy limit later (further.head ((alike limit).trans stepped))
  obtain ⟨root, least, runs⟩ := returns otherRoomy
  refine ⟨root, least, fun limit fuel enough more => ?_⟩
  have ran := runs limit fuel enough more
  cases fuel with
  | zero => cases ran
  | succ fuel =>
      unfold Machine.run at ran ⊢
      rw [alike]
      exact ran

theorem dueMode_lt {machine : Machine} (plain : machine.Plain parser text) :
    (machine.dueMode parser.language.table).index < parser.language.table.lexModeCount := by
  unfold Machine.dueMode
  cases moded : machine.mode with
  | none => exact ready.sound.framed.lexMode_lt _
  | some mode => exact plain.mode_lt mode moded

theorem Machine.Returns.of_onward (machine : Machine) (plain : machine.Plain parser text)
    (onward : ∀ next : Machine, next.Plain parser text → machine.position < next.position →
      next.Returns parser text) : machine.Returns parser text := by
  cases waiting : machine.pending with
  | some lookahead =>
      obtain ⟨token, same⟩ := plain.pending lookahead waiting
      subst same
      exact .of_waiting ready plain onward waiting
  | none =>
      have known := dueMode_lt ready plain
      obtain ⟨token, lexed⟩ := lex_total ready 0 plain.fits.inside known
      have here : token.FitsAt parser.language.table text machine.position :=
        (Job.lex_fits (show (parser.job 0 text).Sound from ready.sound) plain.fits.inside lexed).at
      have fits := plain.fits
      have nextPlain : Machine.Plain parser text { machine with
          mode := some (machine.dueMode parser.language.table)
          pending := some (.lexed token) } := by
        refine ⟨⟨fits.follows, fits.sound, fits.stop_eq, fits.inside, ?_, fits.reuse⟩, plain.reuse, ?_, ?_⟩
        · intro lookahead same
          cases same
          exact here
        · intro lookahead same
          exact ⟨token, (Option.some.inj same).symm⟩
        · intro mode same
          cases same
          exact known
      refine .of_alike (fun limit => ?_) (Machine.Returns.of_waiting ready nextPlain onward rfl) rfl
      have looked : machine.lookahead (parser.job limit text) = .ok (.lexed token, { machine with
          mode := some (machine.dueMode parser.language.table)
          pending := none }) := by
        unfold Machine.lookahead Machine.nextLookahead Machine.offer
        rw [waiting]
        dsimp only
        rw [plain.reuse]
        exact bind_ok.mpr ⟨token, lexed, rfl⟩
      have again : ({ machine with
          mode := some (machine.dueMode parser.language.table)
          pending := some (.lexed token) } : Machine).lookahead (parser.job limit text) = .ok (.lexed token,
            { machine with
              mode := some (machine.dueMode parser.language.table)
              pending := none }) := Machine.lookahead_of_pending rfl
      rw [Machine.step_of_looked looked, Machine.step_of_looked again]

/-- Every machine without an old tree comes to a root. The induction is on the text that is left. -/
theorem Machine.Plain.returns : ∀ (left : Nat) (machine : Machine), machine.Plain parser text →
    text.size - machine.position ≤ left → machine.Returns parser text := by
  intro left
  induction left with
  | zero =>
      intro machine plain bound
      have onward : ∀ next : Machine, next.Plain parser text → machine.position < next.position →
          next.Returns parser text := by
        intro next nextPlain after
        have inside : next.position ≤ text.size := nextPlain.fits.inside
        omega
      exact .of_onward ready machine plain onward
  | succ left ih =>
      intro machine plain bound
      refine .of_onward ready machine plain ?_
      intro next nextPlain after
      exact ih next nextPlain (by omega)

end Runs

end IncrementalParsing
