import IncrementalParsing.Proofs.Parsing.Equivalence
import IncrementalParsing.Proofs.Parsing.Sharing

/-!
Nodes that a parse from the beginning meets. A machine with an old tree keeps in step with one without. Where the one
without comes to the place of an old node, the other one comes there as well, in the same mode and with the same
reductions ahead of it, or it has taken over something larger in which the node lies. Either way the node is kept.
-/

namespace IncrementalParsing

open Green

namespace Machine

/-! ### Reductions before a token -/

section Reductions

variable {job : Job} {terminal : KindId}

theorem ReducesTo.trans {first second third : Machine} (before : ReducesTo job terminal first second)
    (after : ReducesTo job terminal second third) : ReducesTo job terminal first third := by
  induction after with
  | refl => exact before
  | step _ acts stepped ih => exact .step ih acts stepped

theorem ReducesTo.among {first last other : Machine} (reduces : ReducesTo job terminal first last)
    (reached : Reaches job first other) : ReducesTo job terminal first other ∧ ReducesTo job terminal other last ∨
      ∃ next, last.step job = .ok (.inl next) ∧ Reaches job next other := by
  induction reduces with
  | refl =>
      rcases reached.cases_head with rfl | further
      · exact Or.inl ⟨.refl, .refl⟩
      · exact Or.inr further
  | step reduces acts stepped ih =>
      rcases ih with ⟨before, after⟩ | ⟨next, steppedToo, further⟩
      · exact Or.inl ⟨before, .step after acts stepped⟩
      · cases stepped.symm.trans steppedToo
        rcases further.cases_head with rfl | beyond
        · exact Or.inl ⟨.step reduces acts stepped, .refl⟩
        · exact Or.inr beyond

theorem LooksTo.reduce {machine next : Machine} {token : LexedToken} (looks : machine.LooksTo job token)
    {id : ProductionId} (acts : job.table.action machine.stack.state token.kind = .reduce id)
    (done : machine.step job = .ok (.inl next)) :
    (machine.decidesOn token).reduce job id (.lexed token) = .ok next ∧ next.position = machine.position ∧
      next.dueMode job.table = machine.dueMode job.table := by
  have acting := done
  rw [step_of_looked looks.lookahead, show job.table.action (machine.decidesOn token).stack.state token.kind =
    .reduce id from acts] at acting
  obtain ⟨reduced, reduces, same⟩ := bind_ok.mp acting
  cases pure_ok.mp same
  refine ⟨reduces, ?_⟩
  obtain ⟨production, stack, _, _, rfl⟩ := reduce_ok.mp reduces
  exact ⟨rfl, looks.due.symm⟩

end Reductions

section Steps

variable {prior job : Job} {root : Node} {change : Change} (revises : Revises prior job root change)

include revises

theorem Alone.looks {machine : Machine} (alone : machine.Alone job) {fresh : LexedToken}
    (lexed : job.lex machine.position (machine.dueMode job.table) = .ok fresh) {answer : Machine ⊕ Node}
    (done : machine.step job = .ok answer) : machine.LooksTo job fresh := by
  obtain ⟨token, looks, _⟩ := alone.unaided.does revises.accepted.sound alone.fits done
  rw [looks.due] at lexed
  cases looks.lexed.symm.trans lexed
  exact looks

theorem Alone.reducesTo {machine last : Machine} (alone : machine.Alone job) {fresh : LexedToken}
    (lexed : job.lex machine.position (machine.dueMode job.table) = .ok fresh)
    (reduces : ReducesTo job fresh.kind machine last) : last.Alone job ∧ last.position = machine.position ∧
      last.dueMode job.table = machine.dueMode job.table := by
  induction reduces with
  | refl => exact ⟨alone, rfl, rfl⟩
  | step _ acts stepped ih =>
      obtain ⟨before, position, due⟩ := ih
      have looks := before.looks revises (by rw [position, due]; exact lexed) stepped
      obtain ⟨_, positionToo, dueToo⟩ := looks.reduce acts stepped
      exact ⟨before.step revises stepped, positionToo.trans position, dueToo.trans due⟩

theorem InStep.reducesTo {aided plain last : Machine} (inStep : InStep prior job root change aided plain)
    {fresh : LexedToken} (lexed : job.lex plain.position (plain.dueMode job.table) = .ok fresh)
    (reduces : ReducesTo job fresh.kind plain last) :
    ∃ final, ReducesTo job fresh.kind aided final ∧ InStep prior job root change final last := by
  induction reduces with
  | refl => exact ⟨aided, .refl, inStep⟩
  | @step machine next id reduced acts stepped ih =>
      obtain ⟨final, reducedToo, matching⟩ := ih
      obtain ⟨alone, position, due⟩ := inStep.alone.reducesTo revises lexed reduced
      have looks := alone.looks revises (by rw [position, due]; exact lexed) stepped
      obtain ⟨ahead, lookahead, token, other, beholds⟩ := matching.beholds revises stepped
      obtain rfl := beholds.looks.unique looks
      obtain ⟨_, after, steppedToo, matchingToo⟩ :=
        beholds.reduce matching revises acts (looks.reduce acts stepped).1 stepped
      exact ⟨after, .step reducedToo (matching.state_eq ▸ acts) steppedToo, matchingToo⟩

theorem Alone.reaches {first last : Machine} (alone : first.Alone job) (reached : Reaches job first last) :
    last.Alone job := by
  induction reached with
  | refl => exact alone
  | step _ stepped ih => exact ih.step revises stepped

/-! ### Coming to a place -/

omit revises in
/-- What happens to a machine with an old tree where one without comes to a new place. It comes there as well and, when
it has settled, matches a machine that the other one comes to; or it pushes a node that goes on beyond the place. -/
inductive Accompanies (prior job : Job) (root : Node) (change : Change) (origin arrival : Machine) : Prop
  | arrives {arrived next after : Machine} : Arrives job origin arrived → arrived.pending = none →
      arrived.position = arrival.position → Settles job arrived next → Reaches job arrival after →
      InStep prior job root change next after → Accompanies prior job root change origin arrival
  | covers {machine pushed : Machine} {node : Node} : Reaches job origin machine →
      Pushes job root change machine pushed node → machine.position < arrival.position →
      arrival.position < pushed.position → Accompanies prior job root change origin arrival

theorem Reaches.position_le {first last : Machine} (reached : Reaches job first last) (fits : first.Fits job) :
    first.position ≤ last.position := by
  induction reached with
  | refl => exact Nat.le_refl _
  | step before stepped ih =>
      have sound := revises.accepted.sound
      exact Nat.le_trans ih (position_le_of_step sound (before.fits sound fits) stepped)

/-- On its way to a new place a machine is accompanied by one with an old tree. -/
theorem InStep.accompanies {origin before arrival : Machine} (arrived : before.step job = .ok (.inl arrival))
    (further : before.position < arrival.position) (idle : arrival.pending = none) (steps : Nat) :
    ∀ {aided plain : Machine}, InStep prior job root change aided plain → Reaches job origin aided →
      after job steps plain = some before → Accompanies prior job root change origin arrival := by
  induction steps using Nat.strong_induction_on with
  | _ steps fewer =>
      intro aided
      -- The machine with the old tree can look closer at it only so often before the other one has to step.
      induction rankIs : aided.rank using Nat.strong_induction_on generalizing aided with
      | _ rank lower =>
          intro plain inStep reached path
          have early := (Reaches.refl.after steps path).position_le revises inStep.alone.fits
          rw [← inStep.position_eq] at early
          obtain ⟨first, stepped, onward⟩ : ∃ first, plain.step job = .ok (.inl first) ∧ (first = arrival ∨
              ∃ count, count < steps ∧ after job count first = some before) := by
            cases steps with
            | zero =>
                cases path
                exact ⟨arrival, arrived, Or.inl rfl⟩
            | succ count =>
                unfold Machine.after at path
                split at path
                · rename_i first stepped
                  exact ⟨first, stepped, Or.inr ⟨count, Nat.lt_succ_self count, path⟩⟩
                · cases path
          cases inStep.step revises stepped with
          | moves steppedToo matching waits =>
              rcases onward with rfl | ⟨count, less, path⟩
              · refine .arrives (.step reached steppedToo ?_) (waits idle) matching.position_eq .stays .refl matching
                rw [matching.position_eq]
                exact Nat.lt_of_le_of_lt early further
              · exact fewer count less matching (.step reached steppedToo) path
          | @pushes _ last pushed next node pushes settles beyond matching =>
              have reachedNext := (reached.step pushes.step).trans settles.reaches
              have behind : Reaches job arrival last ∨ ∃ count, count < steps ∧ after job count last = some before := by
                rcases onward with rfl | ⟨count, less, path⟩
                · exact Or.inl beyond
                · rcases Reaches.ahead_or_behind path beyond with ahead | ⟨least, le, found⟩
                  · rcases ahead.cases_head with rfl | ⟨second, steppedBefore, rest⟩
                    · exact Or.inr ⟨0, Nat.lt_of_le_of_lt (Nat.zero_le _) less, rfl⟩
                    · cases arrived.symm.trans steppedBefore
                      exact Or.inl rest
                  · exact Or.inr ⟨least, Nat.lt_of_le_of_lt le less, found⟩
              rcases behind with passed | ⟨count, less, path⟩
              · have ending : pushed.position = last.position := settles.position_eq.symm.trans matching.position_eq
                have fits :=
                  ((Reaches.refl.after steps path).step arrived).fits revises.accepted.sound inStep.alone.fits
                have order := passed.position_le revises fits
                rcases Nat.lt_or_eq_of_le order with inside | same
                · exact .covers reached pushes (Nat.lt_of_le_of_lt early further) (ending ▸ inside)
                · refine .arrives (.step reached pushes.step ?_) pushes.idle (ending.trans same.symm) settles passed
                    matching
                  rw [ending, ← same]
                  exact Nat.lt_of_le_of_lt early further
              · exact fewer count less matching reachedNext path
          | closer steppedToo matching smaller =>
              exact lower _ (rankIs ▸ smaller) rfl matching (.step reached steppedToo) path

theorem InStep.accompanied {origin plain : Machine} (inStep : InStep prior job root change origin plain)
    (idle : plain.pending = none → origin.pending = none) {old : OldElement} {head : Head} {first : Token}
    {arrival shifting : Machine} (meets : Meets job change plain old head first arrival shifting) :
    Accompanies prior job root change origin arrival := by
  have waits := meets.idle
  cases meets.arrives with
  | start => exact .arrives .start (idle waits) inStep.position_eq .stays .refl inStep
  | step reached stepped further =>
      obtain ⟨steps, path⟩ := reached.exists_after
      exact inStep.accompanies revises stepped further waits steps .refl path

/-- A run that meets a node before which the machines match is one over the old tree that meets it as well. -/
theorem Meets.transfer (firm : job.table.Firm) {origin plain : Machine} {old : OldElement} {head : Head}
    {first : Token} {arrival shifting : Machine} (alone : plain.Alone job)
    (meets : Meets job change plain old head first arrival shifting)
    (reads : job.Lexes arrival.position first.lexMode first) {arrived next after : Machine}
    (arrives : Arrives job origin arrived) (idle : arrived.pending = none)
    (position : arrived.position = arrival.position) (settles : Settles job arrived next)
    (reached : Reaches job arrival after) (inStep : InStep prior job root change next after) :
    ∃ shifted, Meets job change origin old head first arrived shifted := by
  have sound := revises.accepted.sound
  obtain ⟨fresh, lexed, seen, _⟩ := reads
  have kind : fresh.kind = first.kind := (LexedToken.bare_eq_iff.mp seen).1
  have arrivalAlone := alone.reaches revises meets.arrives.reaches
  obtain ⟨target, acts⟩ := meets.shifts
  have due := meets.due
  have reduces := meets.reduces
  rw [← kind] at reduces acts
  rw [← due] at lexed
  obtain ⟨before, onward⟩ : ReducesTo job fresh.kind arrival after ∧ ReducesTo job fresh.kind after shifting := by
    rcases reduces.among reached with among | ⟨shifted, stepped, beyond⟩
    · exact among
    · obtain ⟨shiftingAlone, place, dueToo⟩ := arrivalAlone.reducesTo revises lexed reduces
      have looks := shiftingAlone.looks revises (by rw [place, dueToo]; exact lexed) stepped
      have shifts := step_shift looks.lookahead
        (show job.table.action (shifting.decidesOn fresh).stack.state fresh.kind =
        .shift target by rw [← acts, ← meets.state]; rfl)
      cases stepped.symm.trans shifts
      have here := Job.lex_fits sound shiftingAlone.fits.inside looks.lexed
      have advances := here.lt_stop (sound.ends.ne_endOfInput here.terminal acts)
      have order := beyond.position_le revises (step_fits sound shiftingAlone.fits stepped)
      have same := settles.position_eq.symm.trans inStep.position_eq
      change fresh.stop ≤ after.position at order
      omega
  obtain ⟨_, afterPosition, afterDue⟩ := arrivalAlone.reducesTo revises lexed before
  obtain ⟨shifted, reducesToo, matching⟩ :=
    inStep.reducesTo revises (by rw [afterPosition, afterDue]; exact lexed) onward
  have arrivedDue : arrived.dueMode job.table = first.lexMode := by
    rw [← settles.due_eq, inStep.due firm, afterDue, due]
  refine ⟨shifted, arrives, idle, by rw [position]; exact meets.place, arrivedDue, ?_,
    matching.state_eq.trans meets.state, meets.shifts⟩
  rw [← kind]
  cases settles with
  | stays => exact reducesToo
  | joins lexedToo joins stepped _ _ =>
      rw [position, arrivedDue, ← due] at lexedToo
      cases lexed.symm.trans lexedToo
      exact (ReducesTo.step .refl joins stepped).trans reducesToo

end Steps

theorem Pushes.keeps {job : Job} {root : Node} {change : Change} (whole : root.element.Everywhere Element.Spans)
    {oldSize newSize : Nat} (between : change.Between oldSize newSize) {machine pushed : Machine} {node : Node}
    (pushes : Pushes job root change machine pushed node) {old : OldElement} {head : Head} {children : List Child}
    {first : Token} (spared : old.Spared root change head children first) {position : Nat}
    (place : change.toOld position = some old.start) (after : machine.position < position)
    (before : position < pushed.position) : pushed.stack.Keeps old.element := by
  obtain ⟨start, origin, above, reusable⟩ := pushes.place
  obtain ⟨child, member, inside⟩ := spared.inside
  obtain ⟨base, target, stack⟩ := pushes.stack
  have ending := pushes.position
  obtain ⟨distance, rfl⟩ := Nat.exists_eq_add_of_lt after
  have further := reusable.toOld_add between origin (show distance + 1 < node.element.textLength by
    change _ < node.textLength
    omega)
  rw [← Nat.add_assoc, place] at further
  have starts : old.start = start + (distance + 1) := Option.some.inj further
  have below : OldElement.Below ⟨start, node.element⟩ old := by
    refine OldElement.Below.of_within whole above ((OldElement.Below.child (.refl _) member).trans inside) ?_ ?_
    · dsimp only
      omega
    · change old.start < start + node.textLength
      omega
  rw [stack]
  exact ⟨_, List.mem_cons_self, below.contains⟩

end Machine

/-! ### Nodes that are kept -/

section Sessions

variable {parser : Parser} (accepted : parser.language.Accepted) {old : ParsedTree} (yields : parser.Yields old)
  {edit : InputEdit} {text : Array UInt8} (measures : parser.Measures text) (leads : edit.Leads old.text text)
  {place : OldElement} {head : Head} {children : List Child} {first : Token}
  (spared : place.Spared old.root (Change.narrow edit old.text text) head children first)

include accepted yields measures leads spared

theorem OldElement.Spared.reads {prior : Nat} (recalls : (parser.job prior old.text).RecallsAll 0 old.root.children)
    (limit : Nat) {position : Nat} (inside : position ≤ text.size)
    (origin : (Change.narrow edit old.text text).toOld position = some place.start) :
    (parser.job limit text).Lexes position first.lexMode first := by
  obtain ⟨valid, describes⟩ := leads.valid measures.small
  have isRoot := (yields.produced accepted).isRoot accepted.sound yields.language_eq.1
  obtain ⟨child, member, below⟩ := spared.inside
  have before : (parser.job prior old.text).Recalls place :=
    fun inner deeper => recalls child member inner (below.trans deeper)
  have entire : place.element.Sound (parser.job prior old.text).table := spared.sound isRoot
  have ends : place.stop ≤ 0 + old.root.textLength :=
    (((OldElement.Below.child (.refl _) member).trans below).within isRoot.spans).2.2
  rw [Nat.zero_add, isRoot.length_eq] at ends
  have there : (parser.job limit text).Recalls ⟨position, place.element⟩ := by
    refine @Job.Recalls.elsewhere (parser.job prior old.text) (parser.job limit text) accepted.sound
      yields.measures.reports rfl measures.reports place.element _ _ before entire ends inside
      fun distance within => ?_
    have same := spared.reusable.agree (Change.narrow_between valid) (Change.narrow_describes valid describes) origin
      distance (by
        have bound : place.start + distance < place.start + place.element.textLength + place.element.lookahead := within
        omega)
    exact same.symm
  obtain ⟨others, tokens⟩ := List.head?_eq_some_iff.mp (place.element.firstToken?_eq ▸ spared.begins)
  exact there.lexes_first place.element entire tokens

end Sessions

/-- Nodes that an edit leaves alone are kept. A parser's language is one in which repetitions are joined before
anything else is done with them, and no repetition is derived from nothing; its tree comes from a text by parsing and
by any number of edits, and an edit leads from there to a text that can be parsed from its beginning. Where that parse
comes to the place of a node of the old tree that the change has not affected, asks for a token there in the mode of
the node's first token and shifts it in the state in which the node was begun, the node is in the tree that parsing
again returns, on its own or in something larger that is kept. -/
theorem Parser.reparse_shares {parser : Parser} (accepted : parser.language.Accepted)
    (small : parser.language.table.Small) (joins : parser.language.table.JoinsFirst)
    (firm : parser.language.table.Firm) {old : ParsedTree} (yields : parser.Yields old) {edit : InputEdit}
    {text : Array UInt8} (measures : parser.Measures text) (leads : edit.Leads old.text text) {limit : Nat}
    {plain : ParsedTree} (parses : parser.parseWithin limit text = .ok plain) {place : OldElement} {head : Head}
    {children : List Child} {first : Token}
    (spared : place.Spared old.root (Change.narrow edit old.text text) head children first)
    {arrival shifting : Machine}
    (meets : Machine.Meets (parser.job limit text) (Change.narrow edit old.text text) (.start none 0) place head first
      arrival shifting) :
    ∃ tree, (∃ least, ∀ more, least ≤ more → parser.reparseWithin more old edit text = .ok tree) ∧
      tree.root.Shares place.element := by
  have again := yields.reparseWithin_eq accepted measures leads
  obtain ⟨valid, _⟩ := leads.valid measures.small
  cases changed : (Change.narrow edit old.text text).isEmpty with
  | true =>
      obtain ⟨child, member, below⟩ := spared.inside
      exact ⟨old, ⟨0, fun more _ => (again more).1 changed⟩,
        Or.inl ((OldElement.Below.child (.refl _) member).trans below).contains⟩
  | false =>
      obtain ⟨least, root, _, ⟨steps, done⟩, runs⟩ := yields.run_revised accepted small joins measures leads parses
      refine ⟨_, ⟨least, fun more enough => (again more).2 changed root (runs more enough)⟩, ?_⟩
      obtain ⟨prior, recalls⟩ := yields.recalls accepted small joins
      have revises := Machine.revises accepted small joins yields measures leads prior limit
      have alone := Machine.start_alone accepted text limit
      have inStep := Machine.InStep.of_mode (Machine.start_assisted accepted yields measures leads recalls limit) alone
        rfl rfl
      have produced := yields.produced accepted
      have compatible := yields.language_eq.1
      have arrivalFits := meets.arrives.reaches.fits accepted.sound alone.fits
      have reads := spared.reads accepted yields measures leads recalls limit arrivalFits.inside meets.place
      rcases inStep.accompanied revises (fun _ => rfl) meets with
        ⟨arrives, idle, position, settles, reached, matching⟩ | ⟨reached, pushes, after, before⟩
      · obtain ⟨shifted, meetsToo⟩ := meets.transfer revises firm alone reads arrives idle position settles reached
          matching
        exact meetsToo.shares accepted small produced compatible valid spared done
      · exact spared.kept accepted small produced compatible valid done (reached.step pushes.step)
          (pushes.keeps revises.whole revises.between spared meets.place after before)

/-- The element to which a path of places among children leads. -/
def OldElement.follow : List Nat → OldElement → Option OldElement
  | [], old => some old
  | place :: path, old => old.children[place]?.bind (follow path)

theorem OldElement.follow_below : ∀ (path : List Nat) {outer inner : OldElement},
    follow path outer = some inner → Below outer inner
  | [], outer, _, found => by
      cases found
      exact .refl outer
  | _ :: path, outer, _, found => by
      obtain ⟨child, here, further⟩ := Option.bind_eq_some_iff.mp found
      exact (Below.child (.refl outer) (List.mem_of_getElem? here)).trans (follow_below path further)

def Machine.reductions (job : Job) (terminal : KindId) : Nat → Machine → Option Machine
  | 0, machine => some machine
  | count + 1, machine =>
      match job.table.action machine.stack.state terminal, machine.step job with
      | .reduce _, .ok (.inl next) => reductions job terminal count next
      | _, _ => none

theorem Machine.ReducesTo.of_reductions {job : Job} {terminal : KindId} {first : Machine} :
    ∀ (count : Nat) {machine last : Machine}, ReducesTo job terminal first machine →
      reductions job terminal count machine = some last → ReducesTo job terminal first last
  | 0, _, _, reduced, found => by
      cases found
      exact reduced
  | count + 1, _, _, reduced, found => by
      unfold reductions at found
      split at found
      · rename_i id next acts stepped
        exact (reduced.step acts stepped).of_reductions count found
      · cases found

/-! ### Nodes that are found by computation -/

/-- Where and how a node was begun: the place, the kind, the state, and the terminal and the mode of the first token. -/
structure Beginning where
  start : Nat
  kind : KindId
  state : StateId
  terminal : KindId
  mode : LexMode

/-- An old node that is spared and was begun in some way. -/
structure OldElement.BegunAs (root : Node) (change : Change) (beginning : Beginning) (head : Head)
    (children : List Child) (first : Token) : Prop where
  spared : OldElement.Spared root change ⟨beginning.start, .node head children⟩ head children first
  kind : head.kind = beginning.kind
  preState : head.info.preState = beginning.state
  terminal : first.kind = beginning.terminal
  mode : first.lexMode = beginning.mode

/-- Whether a path leads to such a node. -/
def OldElement.leadsTo (root : Node) (change : Change) (place : Nat) (path : List Nat) (beginning : Beginning) :
    Bool :=
  ((OldElement.children ⟨0, root.element⟩)[place]?.bind (OldElement.follow path)).any fun old =>
    old.start == beginning.start && ReuseCursor.isReusable change old &&
      old.element.firstToken?.any
        (fun first => first.kind == beginning.terminal && first.lexMode == beginning.mode) &&
      match old.element with
      | .node head _ =>
          head.kind == beginning.kind && head.info.ropeHeight == 0 && head.info.preState == beginning.state
      | .token _ => false

theorem OldElement.exists_begunAs {root : Node} {change : Change} {place : Nat} {path : List Nat}
    {beginning : Beginning} (leads : leadsTo root change place path beginning = true) :
    ∃ head children first, BegunAs root change beginning head children first := by
  obtain ⟨⟨start, element⟩, found, stands⟩ := (Option.any_eq_true _ _).mp leads
  obtain ⟨child, here, further⟩ := Option.bind_eq_some_iff.mp found
  cases element with
  | token leaf =>
      rw [Bool.and_eq_true] at stands
      cases stands.2
  | node head children =>
      simp only [Bool.and_eq_true, beq_iff_eq] at stands
      obtain ⟨⟨⟨rfl, reusable⟩, begins⟩, ⟨kind, plain⟩, preState⟩ := stands
      obtain ⟨first, isFirst, begins⟩ := (Option.any_eq_true _ _).mp begins
      rw [Bool.and_eq_true, beq_iff_eq, beq_iff_eq] at begins
      have inside : ∃ child, child ∈ OldElement.children ⟨0, root.element⟩ ∧
          child.Below ⟨beginning.start, .node head children⟩ :=
        ⟨child, List.mem_of_getElem? here, follow_below _ further⟩
      exact ⟨head, children, first, ⟨rfl, inside, plain, isReusable_iff.mp reusable, isFirst⟩, kind, preState,
        begins.1, begins.2⟩

/-- Whether a run comes in some steps to where a node was begun, and in some reductions more to the state. -/
def Machine.comesTo (job : Job) (change : Change) (begins : Machine) (steps count : Nat) (beginning : Beginning) :
    Bool :=
  ((after job steps begins).bind fun before => (after job 1 before).bind fun arrival =>
    (reductions job beginning.terminal count arrival).map fun shifting =>
      decide (before.position < arrival.position) && arrival.pending.isNone &&
        change.toOld arrival.position == some beginning.start && arrival.dueMode job.table == beginning.mode &&
        shifting.stack.state == beginning.state) == some true

theorem Machine.exists_meets {job : Job} {change : Change} {begins : Machine} {steps count : Nat}
    {beginning : Beginning} (comes : comesTo job change begins steps count beginning = true)
    {root : Node} {head : Head} {children : List Child} {first : Token}
    (begun : OldElement.BegunAs root change beginning head children first) {target : StateId}
    (acts : job.table.action beginning.state beginning.terminal = .shift target) :
    ∃ arrival shifting,
      Meets job change begins ⟨beginning.start, .node head children⟩ head first arrival shifting := by
  obtain ⟨before, started, further⟩ := Option.bind_eq_some_iff.mp (beq_iff_eq.mp comes)
  obtain ⟨arrival, arrived, further⟩ := Option.bind_eq_some_iff.mp further
  obtain ⟨shifting, reduced, meets⟩ := Option.map_eq_some_iff.mp further
  simp only [Bool.and_eq_true, decide_eq_true_eq, Option.isNone_iff_eq_none, beq_iff_eq] at meets
  obtain ⟨⟨⟨⟨later, idle⟩, origin⟩, due⟩, state⟩ := meets
  refine ⟨arrival, shifting, ?_, idle, origin, due.trans begun.mode.symm, ?_, state.trans begun.preState.symm,
    target, ?_⟩
  · unfold Machine.after at arrived
    split at arrived
    · rename_i next stepped
      cases arrived
      exact .step (Machine.Reaches.refl.after steps started) stepped later
    · cases arrived
  · rw [begun.terminal]
    exact Machine.ReducesTo.refl.of_reductions count reduced
  · rw [begun.preState, begun.terminal]
    exact acts

namespace Table

theorem firm_of_filled {table : Table} (filled : table.productions.all (!·.symbols.isEmpty) = true) : table.Firm := by
  intro kind repeats blank
  clear repeats
  induction blank with
  | @production production known _ ih =>
      have some_ := Array.all_eq_true_iff_forall_mem.mp filled production known
      cases symbols : production.symbols with
      | nil =>
          rw [symbols] at some_
          cases some_
      | cons symbol rest => exact ih symbol (by rw [symbols]; exact List.mem_cons_self)

end Table

namespace Pairs

theorem firm : parser.language.table.Firm := by
  rw [parser_eq]
  exact Table.firm_of_filled (by decide +kernel)

theorem prefixing_leads : prefixing.Leads tree.text prefixed := .described prefixing_valid prefixing_describes

theorem parses_prefixed : (parser.parseWithin 100 prefixed).toOption.isSome = true := by
  rw [parser_eq]
  decide +kernel

def secondPair : Beginning := ⟨2, ⟨5⟩, ⟨2⟩, ⟨2⟩, ⟨3⟩⟩

theorem comes_to_second :
    OldElement.leadsTo tree.root (Change.narrow prefixing tree.text prefixed) 0 [1, 0] secondPair = true ∧
    Machine.comesTo (parser.job 100 prefixed) (Change.narrow prefixing tree.text prefixed) (.start none 0) 5 3
      secondPair = true := by
  simp only [tree_eq, parser_eq]
  decide +kernel

theorem shifts : (parser.job 100 prefixed).table.action secondPair.state secondPair.terminal = .shift ⟨4⟩ := by
  change parser.language.table.action _ _ = _
  rw [parser_eq]
  decide

end Pairs

theorem Parser.reparse_shares_pairs :
    ∃ tree head children first, (∃ least, ∀ more, least ≤ more →
        Pairs.parser.reparseWithin more Pairs.tree Pairs.prefixing Pairs.prefixed = .ok tree) ∧
      OldElement.BegunAs Pairs.tree.root (Change.narrow Pairs.prefixing Pairs.tree.text Pairs.prefixed) Pairs.secondPair
        head children first ∧ tree.root.Shares (.node head children) := by
  obtain ⟨leads, comes⟩ := Pairs.comes_to_second
  obtain ⟨head, children, first, begun⟩ := OldElement.exists_begunAs leads
  obtain ⟨arrival, shifting, meets⟩ := Machine.exists_meets comes begun Pairs.shifts
  obtain ⟨tree, again, shares⟩ := Parser.reparse_shares Pairs.accepted Pairs.small Pairs.joinsFirst Pairs.firm
    Pairs.yields (Pairs.measures (by decide)) Pairs.prefixing_leads (eq_ok_get Pairs.parses_prefixed) begun.spared meets
  exact ⟨tree, head, children, first, again, begun, shares⟩

/-! ### A node that is lost -/

namespace Green

mutual

def Element.kinds : Element → List KindId
  | .token leaf => [leaf.kind]
  | .node head children => head.kind :: kindsOf children

def kindsOf : List Child → List KindId
  | [] => []
  | ⟨_, element⟩ :: rest => element.kinds ++ kindsOf rest

end

theorem kinds_subset_of_mem : ∀ {children : List Child} {child : Child}, child ∈ children →
    ∀ kind, kind ∈ child.element.kinds → kind ∈ kindsOf children
  | ⟨_, element⟩ :: rest, child, member, kind, among => by
      unfold kindsOf
      rcases List.mem_cons.mp member with rfl | later
      · exact List.mem_append_left _ among
      · exact List.mem_append_right _ (kinds_subset_of_mem later kind among)

theorem Element.Contains.kind_mem {outer inner : Element} (contains : outer.Contains inner) :
    inner.kind ∈ outer.kinds := by
  induction contains with
  | refl element => cases element <;> exact List.mem_cons_self
  | @child outer _ child member _ ih =>
      cases outer with
      | token leaf => exact absurd member List.not_mem_nil
      | node head children =>
          unfold Element.kinds
          exact List.mem_cons_of_mem _ (kinds_subset_of_mem member _ ih)

end Green

/-! One or more repetitions of `b`, or of `a` behind an empty node, and then `y`, or `a` behind another empty node.
An `a` behind a single repetition is taken for the last letter, and behind several on the stack for one more. -/

namespace Ropes

def declaration : Declaration :=
  { Declaration.empty "ropes" with
    rules := #[("s", .symbol "u"), ("f", .blank), ("e", .blank), ("d", .literal "a"),
      ("u", .sequence [.repeated (.choice [.literal "b", .sequence [.symbol "e", .symbol "d"]]),
        .choice [.literal "y", .sequence [.symbol "f", .literal "a"]]])] }

def table : Table where
  name := "ropes"
  version := 1
  kinds :=
    ⟨#[⟨"end", true, true, true⟩, ⟨"ERROR", true, true, true⟩, ⟨"a", false, true, true⟩,
      ⟨"b", false, true, true⟩, ⟨"y", false, true, true⟩, ⟨"s", true, true, false⟩, ⟨"f", true, true, false⟩,
      ⟨"e", true, true, false⟩, ⟨"d", true, true, false⟩, ⟨"u", true, true, false⟩,
      ⟨"u_repeat1", true, false, false⟩], #[]⟩
  terminalCount := 5
  ruleCount := 5
  productions :=
    #[⟨⟨5⟩, [.nonterminal ⟨4⟩], [none], .plain⟩,
      ⟨⟨6⟩, [], [], .plain⟩,
      ⟨⟨7⟩, [], [], .plain⟩,
      ⟨⟨8⟩, [.terminal ⟨2⟩], [none], .plain⟩,
      ⟨⟨10⟩, [.terminal ⟨3⟩], [none], .repeatBase⟩,
      ⟨⟨10⟩, [.nonterminal ⟨2⟩, .nonterminal ⟨3⟩], [none, none], .repeatBase⟩,
      ⟨⟨10⟩, [.nonterminal ⟨5⟩, .nonterminal ⟨5⟩], [none, none], .repeatJoin⟩,
      ⟨⟨9⟩, [.nonterminal ⟨5⟩, .terminal ⟨4⟩], [none, none], .plain⟩,
      ⟨⟨9⟩, [.nonterminal ⟨5⟩, .nonterminal ⟨1⟩, .terminal ⟨2⟩], [none, none, none], .plain⟩]
  actions :=
    #[.error, .error, .reduce ⟨2⟩, .shift ⟨4⟩, .error,
      .accept, .error, .error, .error, .error,
      .reduce ⟨0⟩, .error, .error, .error, .error,
      .error, .error, .reduce ⟨1⟩, .shift ⟨4⟩, .shift ⟨7⟩,
      .error, .error, .reduce ⟨4⟩, .reduce ⟨4⟩, .reduce ⟨4⟩,
      .error, .error, .shift ⟨10⟩, .error, .error,
      .error, .error, .reduce ⟨2⟩, .reduce ⟨6⟩, .reduce ⟨6⟩,
      .reduce ⟨7⟩, .error, .error, .error, .error,
      .error, .error, .shift ⟨11⟩, .error, .error,
      .error, .error, .reduce ⟨5⟩, .reduce ⟨5⟩, .reduce ⟨5⟩,
      .error, .error, .reduce ⟨3⟩, .reduce ⟨3⟩, .reduce ⟨3⟩,
      .reduce ⟨8⟩, .error, .error, .error, .error]
  gotos :=
    #[some ⟨1⟩, none, some ⟨5⟩, none, some ⟨2⟩, some ⟨3⟩,
      none, none, none, none, none, none,
      none, none, none, none, none, none,
      none, some ⟨8⟩, some ⟨5⟩, none, none, some ⟨6⟩,
      none, none, none, none, none, none,
      none, none, none, some ⟨9⟩, none, none,
      none, none, some ⟨5⟩, none, none, some ⟨6⟩,
      none, none, none, none, none, none,
      none, none, none, none, none, none,
      none, none, none, none, none, none,
      none, none, none, none, none, none,
      none, none, none, none, none, none]
  stateModes := #[⟨1⟩, ⟨2⟩, ⟨2⟩, ⟨3⟩, ⟨3⟩, ⟨4⟩, ⟨3⟩, ⟨2⟩, ⟨4⟩, ⟨3⟩, ⟨3⟩, ⟨2⟩]
  lexModes :=
    #[.ofList [⟨0⟩, ⟨2⟩, ⟨3⟩, ⟨4⟩], .ofList [⟨2⟩, ⟨3⟩], .ofList [⟨0⟩], .ofList [⟨2⟩, ⟨3⟩, ⟨4⟩], .ofList [⟨2⟩]]
  lexical := ⟨#[("a", ⟨2⟩), ("b", ⟨3⟩), ("y", ⟨4⟩)], #[], #[], none⟩
  conflicts := 0

theorem compile_table : declaration.compile = .ok table := eq_ok_of_toOption (by decide +kernel)

def lexer : Lexer := .ofLiterals table Pairs.scanner [([97], ⟨2⟩), ([98], ⟨3⟩), ([121], ⟨4⟩)]

theorem make_eq : Lexer.make table Pairs.scanner = .ok lexer :=
  Lexer.make_ofLiterals rfl rfl rfl rfl (eq_ok_of_toOption (by decide +kernel))

def parser : Parser := .ofLanguage ⟨lexer⟩

theorem accepted : parser.language.Accepted :=
  ⟨declaration, Pairs.scanner, ClassScanner.toScanner_throughCursor _,
    bind_ok.mpr ⟨table, compile_table, bind_ok.mpr ⟨lexer, make_eq, rfl⟩⟩⟩

def text : Array UInt8 := #[98, 98, 97, 97, 121]

def longer : Array UInt8 := #[98, 98, 97, 97, 97, 121]

def insertion : InputEdit := .ofOffsets 4 4 5

theorem parses : (parser.parseWithin 100 text).toOption.isSome = true := by decide +kernel

def tree : ParsedTree := (parser.parseWithin 100 text).toOption.get parses

theorem tree_text : tree.text = text := by
  obtain ⟨_, _, _, same, _, _⟩ := Parser.runFrom_ok (eq_ok_get parses)
  exact same

theorem reparses : (parser.reparseWithin 100 tree insertion longer).toOption.isSome = true := by decide +kernel

theorem describes : insertion.Describes tree.text longer where
  before := by
    intro index inside
    rw [tree_text, show text = #[98, 98, 97, 97] ++ #[121] from rfl,
      show longer = #[98, 98, 97, 97] ++ #[97, 121] from rfl, Array.getElem?_append_left inside,
      Array.getElem?_append_left inside]
  after := by
    intro index
    change (tree.text[4 + index]? : Option UInt8) = longer[5 + index]?
    rw [tree_text, show text = #[98, 98, 97, 97] ++ #[121] from rfl,
      show longer = #[98, 98, 97, 97, 97] ++ #[121] from rfl, Array.getElem?_append_right (Nat.le_add_right 4 index),
      Array.getElem?_append_right (Nat.le_add_right 5 index)]
    exact congrArg (fun place => (#[121][place]? : Option UInt8))
      ((Nat.add_sub_cancel_left 4 index).trans (Nat.add_sub_cancel_left 5 index).symm)

def first : Beginning := ⟨2, ⟨8⟩, ⟨5⟩, ⟨2⟩, ⟨3⟩⟩

theorem comes_to_first :
    OldElement.leadsTo tree.root (Change.narrow insertion tree.text longer) 0 [0, 1, 0, 1] first = true ∧
    Machine.comesTo (parser.job 100 longer) (Change.narrow insertion tree.text longer) (.start none 0) 2 2 first =
      true ∧
    (parser.parseWithin 100 longer).toOption.any (fun tree => !tree.root.element.hasError) = true := by
  decide +kernel

theorem no_first :
    first.kind ∉ ((parser.reparseWithin 100 tree insertion longer).toOption.get reparses).root.element.kinds := by
  decide +kernel

end Ropes

/-- A node that is not shared. Nothing is wrong with the two texts, the edit describes them and has not affected the
node, and the parse from scratch of the new text shifts the first token of the node in the mode and the state that the
node remembers. The run over the old tree comes there in another state: it has taken over the two repetitions before
as one. -/
theorem Parser.reparse_loses :
    let change := Change.narrow Ropes.insertion Ropes.tree.text Ropes.longer
    Ropes.parser.language.Accepted ∧ Ropes.parser.parseWithin 100 Ropes.text = .ok Ropes.tree ∧
    Ropes.insertion.validate Ropes.tree.text.size Ropes.longer.size = .ok () ∧
    Ropes.insertion.Describes Ropes.tree.text Ropes.longer ∧ Ropes.tree.root.element.hasError = false ∧
    (∃ scratch, Ropes.parser.parseWithin 100 Ropes.longer = .ok scratch ∧ scratch.root.element.hasError = false) ∧
    ∃ tree old head children first arrival shifting,
      Ropes.parser.reparseWithin 100 Ropes.tree Ropes.insertion Ropes.longer = .ok tree ∧
      OldElement.Spared Ropes.tree.root change old head children first ∧
      Machine.Meets (Ropes.parser.job 100 Ropes.longer) change (.start none 0) old head first arrival shifting ∧
      ¬ tree.root.element.Contains old.element := by
  obtain ⟨leads, comes, unaided⟩ := Ropes.comes_to_first
  obtain ⟨head, children, first, begun⟩ := OldElement.exists_begunAs leads
  obtain ⟨arrival, shifting, meets⟩ := Machine.exists_meets comes begun (show _ = Action.shift ⟨10⟩ by decide)
  obtain ⟨scratch, done, clean⟩ := (Option.any_eq_true _ _).mp unaided
  refine ⟨Ropes.accepted, eq_ok_get Ropes.parses, ?_, Ropes.describes, by decide +kernel,
    ⟨scratch, eq_ok_of_toOption done, Bool.not_eq_true' _ ▸ clean⟩, _, _, head, children, first, arrival, shifting,
    eq_ok_get Ropes.reparses, begun.spared, meets, ?_⟩
  · rw [Ropes.tree_text]
    exact eq_ok_of_toOption (by decide +kernel)
  · intro contains
    refine Ropes.no_first ?_
    rw [← begun.kind]
    exact contains.kind_mem

end IncrementalParsing
