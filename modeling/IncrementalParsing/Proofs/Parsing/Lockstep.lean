import IncrementalParsing.Proofs.Parsing.Alike

/-!
Two machines on one text, one with an old tree and one without. They keep in step as long as their stacks look the
same and they have tokens ahead that look the same: both reduce, shift, recover or end. Steps in which the machine
with the old tree only looks closer at what is on offer make its tree smaller.
-/

namespace IncrementalParsing

open Green

/-! ### What is left of the old tree -/

theorem ReuseCursor.size_seek_le (change : Change) (target : Nat) (pending : List OldElement) :
    size (seek change target pending).2 ≤ size pending := by
  have one : ∀ (old : OldElement) (rest : List OldElement), size (old :: rest) = old.element.weight + size rest := by
    intro old rest
    simp [size]
  fun_induction seek change target pending with
  | case1 => exact Nat.le_refl _
  | case2 old rest behind ih =>
      rw [one]
      omega
  | case3 old rest reached beyond => exact Nat.le_refl _
  | case4 old rest reached within found => exact Nat.le_refl _
  | case5 old rest reached within missed leaf shape => exact Nat.le_refl _
  | case6 old rest reached within missed head children shape ih =>
      rw [size_append, size_ofChildren] at ih
      rw [one, shape, Element.weight]
      omega

namespace Machine

/-- The number of nodes and tokens of the old tree that are still to come. -/
def oldSize (machine : Machine) : Nat :=
  (machine.reuse.map (fun cursor => ReuseCursor.size cursor.pending)).getD 0

/-- What is left of the old tree to look closer at. A token of it may also be read again. -/
def rank (machine : Machine) : Nat :=
  2 * machine.oldSize + match machine.pending with
    | some (.lexed _) => 0
    | _ => 1

variable {job : Job} {machine : Machine}

theorem oldSize_offer_le : machine.offer.2.oldSize ≤ machine.oldSize := by
  unfold offer oldSize
  split
  · exact Nat.le_refl _
  · rename_i cursor here
    rw [here]
    dsimp only [Option.map, Option.getD]
    unfold ReuseCursor.candidate
    split
    · exact Nat.le_refl _
    · exact ReuseCursor.size_seek_le _ _ _

theorem oldSize_lookahead_le {lookahead : Lookahead} {next : Machine}
    (done : machine.lookahead job = .ok (lookahead, next)) : next.oldSize ≤ machine.oldSize := by
  let asking : Machine := { machine with mode := some (machine.dueMode job.table) }
  have offered : asking.offer.2.oldSize ≤ machine.oldSize := oldSize_offer_le
  cases lookahead_sees done with
  | waiting => exact Nat.le_refl _
  | offered => exact offered
  | lexed => exact offered

theorem oldSize_descend_lt {change : Change} {node : Node} (presents : machine.Presents change node.element)
    (some_ : node.children ≠ []) : machine.descend.oldSize < machine.oldSize := by
  obtain ⟨cursor, target, reuse, _, head, _⟩ := presents
  obtain ⟨rest, pending⟩ := List.head?_eq_some_iff.mp head
  obtain ⟨nodeHead, children⟩ := node
  obtain ⟨first, others, rfl⟩ := List.exists_cons_of_ne_nil some_
  unfold oldSize descend
  rw [reuse]
  dsimp only [Option.map, Option.getD]
  unfold ReuseCursor.descend
  rw [pending]
  dsimp only [Node.element]
  rw [ReuseCursor.size_append, ReuseCursor.size_ofChildren]
  simp only [ReuseCursor.size, List.map_cons, sumOf_cons, Element.weight]
  omega

/-! ### Steps of a machine with an old tree -/

theorem lookahead_ok {fresh : LexedToken} (lexed : job.lex machine.position (machine.dueMode job.table) = .ok fresh) :
    ∃ lookahead next, machine.lookahead job = .ok (lookahead, next) := by
  unfold Machine.lookahead
  cases machine.pending with
  | some waiting => exact ⟨waiting, _, rfl⟩
  | none =>
      dsimp only
      unfold nextLookahead
      dsimp only
      rw [lexed]
      split
      · split
        · exact ⟨_, _, rfl⟩
        · dsimp only [bind, Except.bind]
          split
          · exact ⟨_, _, rfl⟩
          · exact ⟨_, _, rfl⟩
      · exact ⟨_, _, rfl⟩

theorem step_reduces {lookahead : Lookahead} {next after : Machine} {id : ProductionId}
    (looked : machine.lookahead job = .ok (lookahead, next))
    (acts : job.table.action next.stack.state lookahead.kind = .reduce id)
    (reduced : next.reduce job id lookahead = .ok after) : machine.step job = .ok (.inl after) := by
  unfold step
  rw [looked]
  dsimp only [bind, Except.bind]
  rw [acts]
  dsimp only
  rw [reduced]
  rfl

theorem step_of_node {next : Machine} {node : Node} {mode : LexMode}
    (looked : machine.lookahead job = .ok (.reused node.element mode, next)) :
    machine.step job =
      match job.table.action next.stack.state (Lookahead.reused node.element mode).kind with
      | .reduce id => (do return .inl (← next.reduce job id (.reused node.element mode)))
      | .shift _ => .ok (.inl (next.pushReused job node.head node.children))
      | _ => .ok (.inl next.descend) := by
  unfold step
  rw [looked]
  dsimp only [bind, Except.bind]
  unfold Node.element
  cases job.table.action next.stack.state (Lookahead.reused (.node node.head node.children) mode).kind with
  | reduce id => rfl
  | shift target => rfl
  | accept => rfl
  | error => rfl

theorem step_of_leaf {next : Machine} {leaf : Green.Token} {mode : LexMode}
    (looked : machine.lookahead job = .ok (.reused (.token leaf) mode, next)) :
    machine.step job =
      match job.table.action next.stack.state leaf.kind with
      | .reduce id => (do return .inl (← next.reduce job id (.reused (.token leaf) mode)))
      | .shift target => .ok (.inl (next.shiftReused target leaf))
      | _ => (do return .inl { next with pending := some (.lexed (← job.lex next.position mode)) }) := by
  have kind : (Lookahead.reused (.token leaf) mode).kind = leaf.kind := rfl
  unfold step
  rw [looked]
  dsimp only [bind, Except.bind]
  rw [kind]
  cases job.table.action next.stack.state leaf.kind with
  | reduce id => rfl
  | shift target => rfl
  | accept => rfl
  | error => rfl


/-! ### Two machines -/

/-- A text is parsed again with an old tree, in whose language no repetition is left unjoined where it lies on
another one. -/
structure Revises (prior job : Job) (root : Node) (change : Change) : Prop where
  accepted : job.language.Accepted
  small : job.table.Small
  first : job.table.JoinsFirst
  language : job.language = prior.language
  priorReports : prior.Reports
  reports : job.Reports
  whole : root.element.Everywhere Element.Spans
  between : change.Between prior.text.size job.text.size

structure Assisted (prior job : Job) (root : Node) (change : Change) (machine : Machine) : Prop where
  fits : machine.Fits job
  foresees : machine.Foresees prior job
  heeds : ∃ entered, machine.Heeds root change entered

structure Alone (job : Job) (machine : Machine) : Prop where
  fits : machine.Fits job
  foresees : machine.Foresees job job
  unaided : machine.Unaided job

/-- Machines on one text that look the same and have tokens ahead that look the same. They ask for them in the same
mode, unless some repetition is derived from nothing. -/
structure InStep (prior job : Job) (root : Node) (change : Change) (aided plain : Machine) : Prop where
  assisted : aided.Assisted prior job root change
  alone : plain.Alone job
  looks : plain.stack.bare = aided.stack.bare
  sees : ∀ token, plain.LooksTo job token → ∃ fresh,
    job.lex aided.position (aided.dueMode job.table) = .ok fresh ∧ fresh.bare = token.bare
  due : job.table.Firm → aided.dueMode job.table = plain.dueMode job.table

structure Pushes (job : Job) (root : Node) (change : Change) (machine pushed : Machine) (node : Node) : Prop where
  step : machine.step job = .ok (.inl pushed)
  stack : ∃ base target, pushed.stack = ParseStack.push base target node.element
  position : pushed.position = machine.position + node.textLength
  idle : pushed.pending = none
  place : ∃ start, change.toOld machine.position = some start ∧
    OldElement.Below ⟨0, root.element⟩ ⟨start, node.element⟩ ∧ OldElement.Reusable change ⟨start, node.element⟩

/-- What a machine comes to that has pushed something: it has pushed repetitions that are joined to those below them,
or there is nothing to join. -/
inductive Settles (job : Job) (pushed : Machine) : Machine → Prop
  | stays : Settles job pushed pushed
  | joins {next : Machine} {fresh : LexedToken} {id : ProductionId} :
      job.lex pushed.position (pushed.dueMode job.table) = .ok fresh →
      job.table.action pushed.stack.state fresh.kind = .reduce id → pushed.step job = .ok (.inl next) →
      next.position = pushed.position → next.dueMode job.table = pushed.dueMode job.table → Settles job pushed next

/-- How a machine with an old tree goes on when one that it matches makes a step: it comes to the end with that
machine, or makes the same step, or pushes a node that the other one builds, or it looks closer at its tree first. -/
inductive KeepsStep (prior job : Job) (root : Node) (change : Change) (aided plain : Machine) :
    Machine ⊕ Node → Prop
  | ends {final other : Node} : aided.step job = .ok (.inr other) → final.LooksLike other →
      KeepsStep prior job root change aided plain (.inr final)
  | moves {first next : Machine} : aided.step job = .ok (.inl next) → InStep prior job root change next first →
      (first.pending = none → next.pending = none) → KeepsStep prior job root change aided plain (.inl first)
  | pushes {first after pushed next : Machine} {node : Node} : Pushes job root change aided pushed node →
      Settles job pushed next → Reaches job first after → InStep prior job root change next after →
      KeepsStep prior job root change aided plain (.inl first)
  | closer {answer : Machine ⊕ Node} {next : Machine} : aided.step job = .ok (.inl next) →
      InStep prior job root change next plain → next.rank < aided.rank →
      KeepsStep prior job root change aided plain answer

theorem Settles.position_eq {pushed next : Machine} (settles : Settles job pushed next) :
    next.position = pushed.position := by
  cases settles with
  | stays => rfl
  | joins _ _ _ position _ => exact position

theorem Settles.due_eq {pushed next : Machine} (settles : Settles job pushed next) :
    next.dueMode job.table = pushed.dueMode job.table := by
  cases settles with
  | stays => rfl
  | joins _ _ _ _ due => exact due

theorem Settles.reaches {pushed next : Machine} (settles : Settles job pushed next) : Reaches job pushed next := by
  cases settles with
  | stays => exact .refl
  | joins _ _ stepped _ _ => exact .step .refl stepped

section Steps

variable {prior : Job} {root : Node} {change : Change} (revises : Revises prior job root change)

include revises

theorem Assisted.step (assisted : machine.Assisted prior job root change) {next : Machine}
    (done : machine.step job = .ok (.inl next)) : next.Assisted prior job root change := by
  have sound := revises.accepted.sound
  obtain ⟨items, chart⟩ := sound.chart revises.small
  obtain ⟨entered, heeds⟩ := assisted.heeds
  obtain ⟨_, _, heedsNext⟩ := heeds.step revises.whole revises.between sound assisted.fits done
  exact ⟨step_fits sound assisted.fits done, assisted.foresees.step chart revises.accepted revises.first
    revises.reports revises.priorReports revises.language assisted.fits done, _, heedsNext⟩

theorem Alone.step (alone : machine.Alone job) {next : Machine} (done : machine.step job = .ok (.inl next)) :
    next.Alone job := by
  have sound := revises.accepted.sound
  obtain ⟨items, chart⟩ := sound.chart revises.small
  obtain ⟨token, looks, does⟩ := alone.unaided.does sound alone.fits done
  exact ⟨step_fits sound alone.fits done, alone.foresees.step chart revises.accepted revises.first
    revises.reports revises.reports rfl alone.fits done, does.unaided alone.unaided looks⟩

end Steps

/-! ### Looking ahead -/

theorem LooksTo.kept {token other : LexedToken} (looks : machine.LooksTo job token)
    (pending : machine.pending = some (.lexed other)) : token = other := by
  have looked := looks.lookahead
  unfold Machine.lookahead at looked
  rw [pending] at looked
  exact (Lookahead.lexed.inj (Prod.mk.inj (Except.ok.inj looked)).1).symm

structure Beholds (prior job : Job) (aided plain ahead : Machine) (lookahead : Lookahead) (token fresh : LexedToken) :
    Prop where
  looks : plain.LooksTo job token
  looked : aided.lookahead job = .ok (lookahead, ahead)
  considers : ahead.Considers prior job lookahead
  stack : ahead.stack = aided.stack
  position : ahead.position = aided.position
  lexed : job.lex ahead.position lookahead.lexMode = .ok fresh
  due : aided.dueMode job.table = lookahead.lexMode
  same : fresh.bare = token.bare
  kind : lookahead.kind = token.kind

namespace InStep

variable {prior : Job} {root : Node} {change : Change} {aided plain : Machine}
  (inStep : InStep prior job root change aided plain)

include inStep

theorem position_eq : aided.position = plain.position := by
  rw [← stop_whole inStep.assisted.fits, ← stop_whole inStep.alone.fits, ← ParseStack.totalLength_bare,
    ← ParseStack.totalLength_bare plain.stack, inStep.looks]

theorem state_eq : aided.stack.state = plain.stack.state := by
  rw [← ParseStack.state_bare, ← ParseStack.state_bare plain.stack, inStep.looks]

theorem beholds (revises : Revises prior job root change) {answer : Machine ⊕ Node}
    (done : plain.step job = .ok answer) :
    ∃ ahead lookahead token fresh, Beholds prior job aided plain ahead lookahead token fresh := by
  have sound := revises.accepted.sound
  obtain ⟨token, looks, _⟩ := inStep.alone.unaided.does sound inStep.alone.fits done
  obtain ⟨fresh, lexed, same⟩ := inStep.sees token looks
  obtain ⟨lookahead, ahead, looked⟩ := lookahead_ok lexed
  have assisted := inStep.assisted
  have looking := lookahead_fits job sound assisted.fits looked
  obtain ⟨_, _, due, foreseen⟩ := assisted.foresees.lookahead revises.accepted revises.reports revises.priorReports
    revises.language assisted.fits looked
  obtain ⟨again, lexedToo, kind, _⟩ := foreseen.stands
  rw [due] at lexed
  cases lexed.symm.trans lexedToo
  refine ⟨ahead, lookahead, token, fresh, looks, looked, ?_, looking.stack_eq, looking.position_eq, ?_, due, same, ?_⟩
  · exact assisted.foresees.considers revises.accepted revises.reports revises.priorReports revises.language
      assisted.fits looked
  · rw [looking.position_eq]
    exact lexed
  · rw [← kind]
    exact congrArg Green.Token.kind same

end InStep

theorem InStep.of_mode {prior : Job} {root : Node} {change : Change} {aided plain : Machine}
    (assisted : aided.Assisted prior job root change) (alone : plain.Alone job)
    (looks : plain.stack.bare = aided.stack.bare) (mode : aided.mode = plain.mode) :
    InStep prior job root change aided plain := by
  have due : aided.dueMode job.table = plain.dueMode job.table := by
    unfold dueMode
    rw [mode, ← ParseStack.state_bare, ← looks, ParseStack.state_bare]
  refine ⟨assisted, alone, looks, fun token looking => ⟨token, ?_, rfl⟩, fun _ => due⟩
  have position : aided.position = plain.position := by
    rw [← stop_whole assisted.fits, ← stop_whole alone.fits, ← ParseStack.totalLength_bare,
      ← ParseStack.totalLength_bare plain.stack, looks]
  rw [position, due, looking.due]
  exact looking.lexed

namespace Beholds

variable {prior : Job} {root : Node} {change : Change} {aided plain ahead : Machine} {lookahead : Lookahead}
  {token fresh : LexedToken} (beholds : Beholds prior job aided plain ahead lookahead token fresh)
  (inStep : InStep prior job root change aided plain)

include beholds inStep

theorem looks_same : plain.stack.bare = ahead.stack.bare := by
  rw [beholds.stack]
  exact inStep.looks

theorem state : ahead.stack.state = plain.stack.state := by
  rw [beholds.stack]
  exact inStep.state_eq

theorem lexed_same (sound : job.Sound) {other : LexedToken} (read : lookahead = .lexed other) :
    token.shown = other.shown := by
  subst read
  have here : job.lex ahead.position other.lexMode = .ok other := beholds.considers.foreseen
  obtain rfl := Except.ok.inj (here.symm.trans beholds.lexed)
  have length : other.length = token.length := congrArg Green.Token.textLength beholds.same
  have stop := (Job.lex_fits sound beholds.considers.fits.inside here).stop_eq
  have stopToo := (Job.lex_fits sound inStep.alone.fits.inside beholds.looks.lexed).stop_eq
  refine Prod.ext beholds.same.symm ?_
  change token.stop = other.stop
  rw [stop, stopToo, beholds.position, inStep.position_eq, length]

section Acts

variable (revises : Revises prior job root change)

include revises

theorem closer {answer : Machine ⊕ Node} {next : Machine} (done : aided.step job = .ok (.inl next))
    (stack : next.stack = ahead.stack) (position : next.position = ahead.position) (mode : next.mode = ahead.mode)
    (smaller : next.rank < aided.rank) : KeepsStep prior job root change aided plain answer := by
  have due : next.dueMode job.table = aided.dueMode job.table := by
    rw [beholds.due]
    unfold dueMode
    rw [mode, beholds.considers.mode]
    rfl
  refine .closer done ⟨inStep.assisted.step revises done, inStep.alone, ?_, fun other looks => ?_,
    fun firm => due.trans (inStep.due firm)⟩ smaller
  · rw [stack]
    exact beholds.looks_same inStep
  · obtain rfl := beholds.looks.unique looks
    refine ⟨fresh, ?_, beholds.same⟩
    rw [due, beholds.due, position]
    exact beholds.lexed

theorem reduce {id : ProductionId} {first : Machine}
    (acts : job.table.action plain.stack.state token.kind = .reduce id)
    (reduced : (plain.decidesOn token).reduce job id (.lexed token) = .ok first)
    (done : plain.step job = .ok (.inl first)) : first.pending = some (.lexed token) ∧
      ∃ next, aided.step job = .ok (.inl next) ∧ InStep prior job root change next first := by
  have numbered : job.table.Numbered := revises.accepted.sound.table
  obtain ⟨production, stack, found, stackIs, rfl⟩ := reduce_ok.mp reduced
  have fits := inStep.alone.fits
  have fitsToo := beholds.considers.fits
  obtain ⟨other, otherIs, same⟩ := ParseStack.reduce_alike numbered (beholds.looks_same inStep) fits.follows
    fitsToo.follows fits.sound fitsToo.sound (Array.mem_of_getElem? (requireAt_ok.mp found)) stackIs ahead.nextSerial
    (lookahead.examinedEnd ahead.position) lookahead.lexMode
  have reducedToo : ahead.reduce job id lookahead = .ok { ahead with
      stack := other
      pending := some lookahead
      nextSerial := ahead.nextSerial + 1 } :=
    reduce_ok.mpr ⟨production, other, found, otherIs, rfl⟩
  have doneToo := step_reduces beholds.looked (by rw [beholds.state inStep, beholds.kind]; exact acts) reducedToo
  have due : (ahead.mode.getD (job.table.lexMode other.state)) = lookahead.lexMode := by
    rw [beholds.considers.mode]
    rfl
  refine ⟨rfl, _, doneToo, inStep.assisted.step revises doneToo, inStep.alone.step revises done, same.symm,
    fun next looks => ?_, fun firm => ?_⟩
  · obtain rfl := looks.kept rfl
    refine ⟨fresh, ?_, beholds.same⟩
    change job.lex ahead.position (ahead.mode.getD _) = _
    rw [due]
    exact beholds.lexed
  · change ahead.mode.getD _ = token.lexMode
    rw [due, ← beholds.due, inStep.due firm, beholds.looks.due]

theorem shift {target : StateId} {leaf : Green.Token} {next : Machine}
    (acts : job.table.action plain.stack.state token.kind = .shift target)
    (doneToo : aided.step job = .ok (.inl next)) (stack : next.stack = ahead.stack.push target (.token leaf))
    (mode : next.mode = none) (idle : next.pending = none) (same : leaf.bare = token.bare) :
    KeepsStep prior job root change aided plain (.inl ((plain.decidesOn token).shiftToken target token)) := by
  have done := step_shift beholds.looks.lookahead acts
  refine .moves doneToo (.of_mode (inStep.assisted.step revises doneToo) (inStep.alone.step revises done) ?_ mode)
    fun _ => idle
  have bare : (Element.token leaf).bare = (Element.token (token.toGreen plain.nextSerial)).bare :=
    congrArg Element.token same
  rw [stack]
  change ParseStack.bare (plain.stack.push target (.token (token.toGreen plain.nextSerial))) = _
  rw [ParseStack.bare_push, ParseStack.bare_push, beholds.looks_same inStep, bare]

theorem recover {other : LexedToken} (read : lookahead = .lexed other)
    (acts : job.table.action plain.stack.state token.kind = .error) {answer : Machine ⊕ Node}
    (done : plain.step job = .ok answer) : KeepsStep prior job root change aided plain answer := by
  have sound := revises.accepted.sound
  have same := beholds.lexed_same inStep sound read
  subst read
  have fits := inStep.alone.fits.decidesOn token
  have recovered := done
  rw [step_error beholds.looks.lookahead acts] at recovered
  obtain ⟨last, recoveredToo, alike⟩ := recover_alike sound fits beholds.considers.fits inStep.alone.foresees.known
    beholds.considers.foresees.known (beholds.looks_same inStep)
    (inStep.position_eq.symm.trans beholds.position.symm) beholds.considers.idle same recovered
  have actsToo : job.table.action ahead.stack.state other.kind = .error := by
    rw [beholds.state inStep, ← acts]
    exact congrArg _ beholds.kind
  have doneToo : aided.step job = .ok last := (step_error beholds.looked actsToo).trans recoveredToo
  cases alike with
  | next lookAlike mode pending =>
      exact .moves doneToo (.of_mode (inStep.assisted.step revises doneToo) (inStep.alone.step revises done) lookAlike
        mode.symm) pending
  | root looks => exact .ends doneToo looks

theorem accept {other : LexedToken} (read : lookahead = .lexed other)
    (acts : job.table.action plain.stack.state token.kind = .accept) {answer : Machine ⊕ Node}
    (done : plain.step job = .ok answer) : KeepsStep prior job root change aided plain answer := by
  have same := beholds.lexed_same inStep revises.accepted.sound read
  subst read
  have actsToo : job.table.action ahead.stack.state other.kind = .accept := by
    rw [beholds.state inStep, ← acts]
    exact congrArg _ beholds.kind
  have accepted := done
  rw [step_accept beholds.looks.lookahead acts] at accepted
  cases accepted
  exact .ends (step_accept beholds.looked actsToo) (toRoot_alike (beholds.looks_same inStep)
    (congrArg (·.1) same) inStep.alone.fits.sound
    beholds.considers.fits.sound _ _ _ _)

theorem enter {node : Node} {mode : LexMode} (read : lookahead = .reused node.element mode)
    (doneToo : aided.step job = .ok (.inl ahead.descend)) {answer : Machine ⊕ Node} :
    KeepsStep prior job root change aided plain answer := by
  subst read
  obtain ⟨entered, heeds⟩ := inStep.assisted.heeds
  have presents := (heeds.lookahead revises.whole revises.between beholds.looked).2 node.element mode rfl
  have some_ : node.children ≠ [] := by
    obtain ⟨_, _, _, first, rest, tokens, _⟩ := beholds.considers.foreseen
    intro none
    change tokensOf node.children = _ at tokens
    rw [none] at tokens
    cases tokens
  have smaller := oldSize_descend_lt presents some_
  have fewer := oldSize_lookahead_le beholds.looked
  have pending : ahead.descend.pending = none := beholds.considers.idle
  refine beholds.closer inStep revises doneToo rfl rfl rfl ?_
  unfold rank
  rw [pending]
  dsimp only
  omega

/-- The machine with the old tree reads a token of it again. -/
theorem relex {leaf : Green.Token} {mode : LexMode} (read : lookahead = .reused (.token leaf) mode)
    {other : LexedToken}
    (doneToo : aided.step job = .ok (.inl { ahead with pending := some (.lexed other) }))
    {answer : Machine ⊕ Node} : KeepsStep prior job root change aided plain answer := by
  subst read
  have fewer := oldSize_lookahead_le beholds.looked
  refine beholds.closer inStep revises doneToo rfl rfl rfl ?_
  have looked := beholds.looked
  unfold Machine.lookahead at looked
  unfold rank
  dsimp only
  split
  · rename_i waiting here
    rw [here] at looked
    cases (Prod.mk.inj (Except.ok.inj looked)).1
  · change 2 * ahead.oldSize + 0 < _
    omega

end Acts

end Beholds

end Machine

end IncrementalParsing
