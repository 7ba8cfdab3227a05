import IncrementalParsing.Proofs.Parsing.Lockstep

/-!
Pushing a node of the old tree. The machine without an old tree builds what the other one pushes. Where repetitions
are pushed on top of others, the one has joined them with those already, and the other one joins them at its next
step: nothing else can be done in a state to which two repetitions lead.
-/

namespace IncrementalParsing

open Green

/-! ### Popping -/

namespace ParseStack

theorem popEntries_onto : ∀ (stack : ParseStack) (count : Nat) (taken : List StackEntry),
    popEntries count taken stack = (popEntries count [] stack).map (fun popped => (popped.1 ++ taken, popped.2))
  | [], count, taken => by
      unfold popEntries
      split <;> rfl
  | entry :: below, 0, taken => rfl
  | entry :: below, missing + 1, taken => by
      rw [popEntries, popEntries, popEntries_onto below _ (entry :: taken), popEntries_onto below _ [entry]]
      cases popEntries (if entry.extra then missing + 1 else missing) [] below with
      | error fault => rfl
      | ok popped => simp [Except.map]

theorem popEntries_one {table : Table} : ∀ {stack below : ParseStack} {entries : List StackEntry},
    Follows table stack → popEntries 1 [] stack = .ok (entries, below) →
    ∃ entry, entry ∈ entries ∧ entry.extra = false ∧ entry.state = stack.state ∧ entry.RestsOn table below ∧
      plain entries = [entry]
  | [], _, _, _, popped => by
      unfold popEntries at popped
      cases popped
  | first :: rest, below, entries, follows, popped => by
      rw [popEntries, popEntries_onto] at popped
      obtain ⟨⟨inner, left⟩, found, same⟩ : ∃ inner, popEntries (if first.extra then 1 else 0) [] rest = .ok inner ∧
          (inner.1 ++ [first], inner.2) = (entries, below) := by
        cases found : popEntries (if first.extra then 1 else 0) [] rest with
        | error fault =>
            rw [found] at popped
            cases popped
        | ok inner =>
            rw [found] at popped
            exact ⟨inner, rfl, Except.ok.inj popped⟩
      cases same
      cases extra : first.extra with
      | true =>
          rw [extra, if_pos rfl] at found
          obtain ⟨entry, among, plainHere, state, rests, alone⟩ := popEntries_one follows.tail found
          refine ⟨entry, List.mem_append_left _ among, plainHere, ?_, rests, ?_⟩
          · exact state.trans (follows.rests.repeats extra).symm
          · rw [plain_append, alone, plain, List.filter_cons_of_neg (by simp [extra]), List.filter_nil, List.append_nil]
      | false =>
          rw [extra, if_neg Bool.false_ne_true] at found
          have none : inner = [] ∧ left = rest := by
            cases rest with
            | nil =>
                cases found
                exact ⟨rfl, rfl⟩
            | cons second others =>
                cases found
                exact ⟨rfl, rfl⟩
          obtain ⟨rfl, rfl⟩ := none
          refine ⟨first, List.mem_singleton_self first, extra, rfl, follows.rests, ?_⟩
          rw [List.nil_append, plain, List.filter_cons_of_pos (by simp [extra]), List.filter_nil]

theorem popEntries_alike {left right below : ParseStack} {entries : List StackEntry} {count : Nat}
    (same : bare left = bare right) (popped : popEntries count [] left = .ok (entries, below)) :
    ∃ others base, popEntries count [] right = .ok (others, base) ∧
      entries.map StackEntry.bare = others.map StackEntry.bare ∧ bare below = bare base := by
  have both := popEntries_bare left count []
  have others := popEntries_bare right count []
  rw [popped, same, others] at both
  obtain ⟨⟨inner, base⟩, found, pair⟩ := map_ok.mp both
  obtain ⟨entriesSame, belowSame⟩ := Prod.mk.inj pair
  exact ⟨inner, base, found, entriesSame.symm, belowSame.symm⟩

end ParseStack


theorem Job.Strings.last_joins {job : Job} {kind : KindId} {state target : StateId} {stop offset : Nat}
    {bases : List Node} {ahead last : Green.Token} (strings : job.Strings kind state stop offset bases ahead last)
    (some_ : bases ≠ []) (goes : job.table.goto state kind = some target) : job.table.JoinsOn target last.kind := by
  induction strings with
  | nil => exact absurd rfl some_
  | @cons offset base more joint next after last foretells isKind positive begun joins within nextIs strings ih =>
      cases more with
      | nil =>
          cases strings
          have reached := foretells.goes
          rw [begun, isKind] at reached
          cases goes.symm.trans reached
          have sameKind : next.kind = after.kind := congrArg Green.Token.kind nextIs
          exact sameKind ▸ joins
      | cons second others => exact ih (List.cons_ne_nil _ _)

/-- Repetitions that are still to be joined are told one by one, up to the token after the rope. -/
theorem StackEntry.Loose.strings {job : Job} {target : StateId} {offset : Nat} {rope : Node} {below : ParseStack}
    (loose : StackEntry.Loose job ⟨target, rope.element, false, offset⟩ below (ropeBases rope.element))
    (isRope : rope.IsRope job.table) (tells : Rope.TellsOf (ropeBases rope.element) rope) (intact : rope.Intact) :
    ∃ ahead last final, job.Strings rope.kind below.state (offset + rope.textLength + rope.info.lookahead) offset
        (ropeBases rope.element) ahead last ∧
      job.lex (offset + rope.textLength) rope.info.nextLexMode = .ok final ∧ last.bare = final.bare := by
  have intactBases := tells.intact intact
  have strung := loose.strung
  have joins := loose.joins
  have within := fun place => @Rope.TellsOf.within _ rope tells offset place
  have length := isRope.textLength_eq
  have modes := tells.nextLexMode
  obtain ⟨first, rest, bases⟩ := List.exists_cons_of_ne_nil tells.ne_nil
  rw [bases] at intactBases strung joins within length modes ⊢
  have joinsAll : ∀ place, place ∈ placed offset (first :: rest) → job.Joins below.state place := by
    intro place member
    rcases List.mem_cons.mp member with rfl | later
    · exact joins first rfl
    · exact strung.joins place later
  obtain ⟨_, _, after, last, final, _, _, strings, lexed, same, _⟩ := strung.strings fun place member =>
    ⟨joinsAll place member, intactBases _ (exists_mem_placed member), within place member⟩
  refine ⟨_, last, final, strings, ?_, same⟩
  rw [List.getLast?_eq_some_getLast (List.cons_ne_nil _ _)] at modes
  rw [length, ← Option.some.inj modes]
  exact lexed

/-! ### Steps that tell a node -/

namespace Machine

variable {prior job : Job} {root : Node} {change : Change}

theorem reaches_of_advances {first last : Machine} (advances : Relation.ReflTransGen (Advances job) first last) :
    Reaches job first last := by
  induction advances with
  | refl => exact .refl
  | tail _ next ih => exact .step ih next.step

theorem Alone.advances (revises : Revises prior job root change) {first last : Machine} (alone : first.Alone job)
    (advances : Relation.ReflTransGen (Advances job) first last) : last.Alone job := by
  induction advances with
  | refl => exact alone
  | tail _ next ih => exact ih.step revises next.step

/-- A machine that has pushed a node of the old tree, after which the next token is due in the mode in which it was
lexed before. -/
def pushNode (machine : Machine) (target : StateId) (node : Node) : Machine :=
  { machine with
    stack := machine.stack.push target node.element
    position := machine.position + node.textLength
    mode := some node.info.nextLexMode }

/-- A machine pushes a node, and one without an old tree comes to a machine that matches. -/
theorem KeepsStep.of_advances {aided plain pushed next last : Machine} {node : Node} {answer : Machine ⊕ Node}
    (place : plain.position = aided.position) (done : plain.step job = .ok answer)
    (advances : Relation.ReflTransGen (Advances job) plain last) (pushes : Pushes job root change aided pushed node)
    (settles : Settles job pushed next) (inStep : InStep prior job root change next last) :
    KeepsStep prior job root change aided plain answer := by
  rcases advances.cases_head with rfl | ⟨first, begins, others⟩
  · obtain ⟨_, _, _, reusable⟩ := pushes.place
    have positive : 0 < node.textLength := reusable.positive
    have ending := inStep.position_eq
    rw [settles.position_eq, pushes.position] at ending
    omega
  · cases done.symm.trans begins.step
    exact .pushes pushes settles (reaches_of_advances others) inStep

namespace Beholds

variable {aided plain ahead : Machine} {lookahead : Lookahead} {token fresh : LexedToken}
  (beholds : Beholds prior job aided plain ahead lookahead token fresh)
  (inStep : InStep prior job root change aided plain) (revises : Revises prior job root change)
  {node : Node} {mode : LexMode} (read : lookahead = .reused node.element mode) {state target : StateId}
  (acts : job.table.action plain.stack.state token.kind = .shift state)

include beholds inStep read

include revises in
theorem pushes (doneToo : aided.step job = .ok (.inl (ahead.pushNode target node))) :
    Pushes job root change aided (ahead.pushNode target node) node := by
  subst read
  have position := beholds.position
  obtain ⟨entered, heeds⟩ := inStep.assisted.heeds
  obtain ⟨kept, presents⟩ := heeds.lookahead revises.whole revises.between beholds.looked
  refine ⟨doneToo, ⟨_, _, rfl⟩, congrArg (· + node.textLength) position, beholds.considers.idle, ?_⟩
  rw [← position]
  exact kept.place revises.whole revises.between (presents _ _ rfl)

/-- What the machine without an old tree has ahead is the first token of the node. -/
theorem faces : ∃ first rest, node.element.tokens = first :: rest ∧ plain.Faces job first ∧
    first.kind = token.kind := by
  subst read
  obtain ⟨_, _, _, first, rest, tokens, other, lexed, seen, _⟩ := beholds.considers.foreseen
  obtain rfl := Except.ok.inj (lexed.symm.trans beholds.lexed)
  refine ⟨first, rest, tokens, ⟨inStep.alone.fits, inStep.alone.unaided, token, beholds.looks,
    beholds.same.symm.trans seen⟩, ?_⟩
  rw [← beholds.kind, Lookahead.kind_of_tokens tokens]

include revises acts

/-- The machine without an old tree builds a node of which it is foretold how. -/
theorem tells {after : LexedToken} (begun : node.info.preState = ahead.stack.state)
    (foretells : job.Foretells ahead.position node target after) : ∃ final copy,
      Relation.ReflTransGen (Advances job) plain final ∧ final.stack = copy ++ plain.stack ∧
      ParseStack.bare copy = ParseStack.bare [⟨target, node.element, false, 0⟩] ∧
      final.Faces job (after.toGreen 0) ∧
      (job.table.Firm → final.dueMode job.table = node.info.nextLexMode) := by
  obtain ⟨first, rest, tokens, faces, kind⟩ := beholds.faces inStep read
  have elementSound : node.element.Sound job.table := by
    subst read
    exact beholds.considers.proper.1
  have shown : before (after.toGreen 0) (ParseStack.tokens [⟨target, node.element, false, 0⟩]) = first := by
    rw [ParseStack.tokens_cons, ParseStack.tokens_nil, List.nil_append, tokens, before_cons]
  have place : ahead.position = plain.position := beholds.position.trans inStep.position_eq
  have some_ : node.element.tokens ≠ [] := by
    rw [tokens]
    exact List.cons_ne_nil _ _
  obtain ⟨final, copy, advances, stack, alike, facing, due⟩ := foretells.retells _
    (within_spliced elementSound none (Nat.le_refl _)) foretells.within job plain rfl revises.reports
    (by rw [begun, beholds.state inStep]) (shown ▸ faces) (Or.inr ⟨state, by rw [shown, kind]; exact acts⟩)
    (by rw [place]; exact fun _ _ => rfl)
  exact ⟨final, copy, advances, stack, alike, facing,
    fun firm => (due firm).trans (ParseStack.dueAfter_of_ne_nil some_)⟩

theorem push_foretold {after : LexedToken} (begun : node.info.preState = ahead.stack.state)
    (foretells : job.Foretells ahead.position node target after)
    (doneToo : aided.step job = .ok (.inl (ahead.pushNode target node))) {answer : Machine ⊕ Node}
    (done : plain.step job = .ok answer) : KeepsStep prior job root change aided plain answer := by
  obtain ⟨final, copy, advances, finalStack, alike, faces, due⟩ :=
    beholds.tells inStep revises read acts begun foretells
  refine .of_advances inStep.position_eq.symm done advances (beholds.pushes inStep revises read doneToo) .stays
    ⟨inStep.assisted.step revises doneToo, inStep.alone.advances revises advances, ?_, fun other looks => ?_,
      fun firm => (due firm).symm⟩
  · rw [finalStack, pushNode, ParseStack.bare_append, alike, beholds.looks_same inStep, ParseStack.bare_push]
    rfl
  · obtain ⟨seen, looksToo, same⟩ := faces.looks
    obtain rfl := looks.unique looksToo
    exact ⟨after, foretells.lexed, same.symm⟩

end Beholds

/-! ### Repetitions on top of others -/

/-- With a repetition on top that is to be joined, a step joins it to the one below it, with what lies between
them. -/
theorem step_joins {job : Job} {items : StateId → Lalr.Item → Prop} (chart : job.table.Chart items)
    (sound : job.Sound) {machine ahead : Machine} (fits : machine.Fits job) {lookahead : Lookahead}
    (looked : machine.lookahead job = .ok (lookahead, ahead)) {entry : StackEntry} {base : ParseStack}
    (stack : machine.stack = entry :: base) (plain : entry.extra = false)
    (joins : job.table.JoinsOn entry.state lookahead.kind) :
    ∃ (inner : List StackEntry) (below : ParseStack) (rope : Node) (last : Machine),
      ParseStack.popEntries 1 [] base = .ok (inner, below) ∧
      job.table.goto below.state entry.element.kind = some base.state ∧
      machine.step job = .ok (.inl last) ∧ last.stack = below.push base.state rope.element ∧
      rope.element.bare = .node (.bare entry.element.kind (totalLength inner + entry.element.textLength) 1)
        (seen job.table (inner.map StackEntry.bare) ++ seen job.table [entry.bare]) ∧
      last.mode = ahead.mode ∧ last.position = machine.position := by
  have numbered : job.table.Numbered := sound.table
  have looks := lookahead_fits job sound fits looked
  have follows := looks.fits.follows
  have stackSound := looks.fits.sound
  have shape : ahead.stack = entry :: base := looks.stack_eq.trans stack
  obtain ⟨id, production, acts, found, kind⟩ := joins
  have known := Array.mem_of_getElem? (requireAt_ok.mp found)
  obtain ⟨repeats, _, symbols⟩ := numbered.join production known kind
  have two : production.length = 2 := by
    have lengths := congrArg List.length symbols
    rw [List.length_map] at lengths
    exact lengths
  have acts : job.table.action ahead.stack.state lookahead.kind = .reduce id := by
    rw [shape]
    exact acts
  obtain ⟨again, foundAgain, reducible⟩ :=
    follows.reducible numbered chart stackSound (looks.lookahead.terminal sound) acts
  cases found.symm.trans foundAgain
  obtain ⟨all, below, popped, kinds, target, goes⟩ := reducible.topmost
  have clear : ahead.stack.Clear := by
    rw [shape]
    exact ParseStack.clear_cons plain base
  have one := popped
  rw [clear.dropWhile, two, shape, ParseStack.popEntries, plain, if_neg Bool.false_ne_true,
    ParseStack.popEntries_onto] at one
  obtain ⟨⟨inner, left⟩, innerIs, same⟩ := map_ok.mp one
  obtain ⟨rfl, rfl⟩ := Prod.mk.inj same
  have baseFollows : base.Follows job.table := (shape ▸ follows).tail
  obtain ⟨lower, _, plainLower, lowerState, rests, alone⟩ := ParseStack.popEntries_one baseFollows innerIs
  rw [symbols, ParseStack.plain_append, alone] at kinds
  obtain ⟨lowerKind, upperKind⟩ : lower.element.kind = production.lhs ∧ entry.element.kind = production.lhs := by
    simpa [ParseStack.plain, plain] using kinds
  have under : job.table.goto left.state production.lhs = some base.state := by
    refine Table.goto_of_successor (Table.Numbered.not_isTerminal_of_repeat repeats) ?_
    rw [← lowerKind, ← lowerState]
    exact rests.pushed plainLower
  have entriesSound := (follows.core.1.popped stackSound.core popped).2.2.1
  obtain ⟨rope, built, _⟩ := buildNode_builtFrom
    (ParseStack.reductionOrigin job.table ahead.stack left (lookahead.examinedEnd ahead.position) lookahead.lexMode)
    ahead.nextSerial (numbered.lhs production known).2 rfl entriesSound
  have reducedStack : ahead.stack.reduce job.table ahead.nextSerial production
      (lookahead.examinedEnd ahead.position) lookahead.lexMode = .ok (left.push base.state rope.element) := by
    refine ParseStack.reduce_ok.mpr ⟨_, left, base.state, rope, popped, under, built, ?_⟩
    rw [clear.takeWhile]
    rfl
  have reduced : ahead.reduce job id lookahead = .ok { ahead with
      stack := left.push base.state rope.element
      pending := some lookahead
      nextSerial := ahead.nextSerial + 1 } :=
    reduce_ok.mpr ⟨production, _, found, reducedStack, rfl⟩
  refine ⟨inner, left, rope, _, innerIs, upperKind ▸ under, step_reduces looked acts reduced, rfl, ?_, rfl,
    looks.position_eq⟩
  rw [buildNode_bare numbered known rfl entriesSound built, ProductionInfo.shows_join numbered known kind entriesSound,
    List.map_append, seen_append, ← upperKind, totalLength_append, totalLength_cons, totalLength_nil]
  rfl

section Loose

variable {prior job : Job} {root : Node} {change : Change} {aided plain ahead : Machine} {lookahead : Lookahead}
  {token fresh : LexedToken} (beholds : Beholds prior job aided plain ahead lookahead token fresh)
  (inStep : InStep prior job root change aided plain) (revises : Revises prior job root change)
  {node : Node} {mode : LexMode} (read : lookahead = .reused node.element mode) {state target : StateId}
  (acts : job.table.action plain.stack.state token.kind = .shift state)

include beholds inStep revises read acts

/-- Repetitions that are pushed on top of others are built one by one, and at the next step they are joined to those
below them. -/
theorem Beholds.push_loose (goes : job.table.goto ahead.stack.state node.kind = some target) (high : 0 < node.height)
    (loose : StackEntry.Loose job ⟨target, node.element, false, ahead.position⟩ ahead.stack (ropeBases node.element))
    (doneToo : aided.step job = .ok (.inl (ahead.pushNode target node)))
    {answer : Machine ⊕ Node} (done : plain.step job = .ok answer) :
    KeepsStep prior job root change aided plain answer := by
  have sound := revises.accepted.sound
  have numbered : job.table.Numbered := sound.table
  obtain ⟨items, chart⟩ := sound.chart revises.small
  have pushes := beholds.pushes inStep revises read doneToo
  obtain ⟨leaf, leaves, tokens, faces, leafKind⟩ := beholds.faces inStep read
  have foreseen := beholds.considers.foreseen
  have proper := beholds.considers.proper
  rw [read] at foreseen proper
  obtain ⟨recalls, clean, solid, _⟩ := foreseen
  have intact : node.Intact := ⟨clean, solid⟩
  have isRope : node.IsRope job.table := ⟨proper.1, high⟩
  obtain ⟨accounts, _⟩ := Job.recalls_node.mp recalls
  have repeats := accounts.repeats.mpr high
  have tells := (accounts.paired high).tells (numbered.ne_error_of_repeat repeats)
  obtain ⟨first, last, final, strings, lexed, lastIs⟩ := loose.strings isRope tells intact
  -- The machine with the old tree joins what it has pushed.
  have assistedNext := inStep.assisted.step revises doneToo
  have reading : job.lex (ahead.pushNode target node).position ((ahead.pushNode target node).dueMode job.table) =
      .ok final := lexed
  obtain ⟨following, looking, looked⟩ := lookahead_ok reading
  obtain ⟨_, mode, dueIs, foresees⟩ := assistedNext.foresees.lookahead revises.accepted revises.reports
    revises.priorReports revises.language assistedNext.fits looked
  obtain ⟨again, lexedAgain, kind, _⟩ := foresees.stands
  rw [← dueIs] at lexedAgain
  obtain rfl := Except.ok.inj (reading.symm.trans lexedAgain)
  have lastKind : last.kind = following.kind := (congrArg Green.Token.kind lastIs : _ = final.kind).trans kind
  have joins := strings.last_joins tells.ne_nil goes
  rw [lastKind] at joins
  obtain ⟨inner, below, rope, joined, popped, under, stepped, joinedStack, ropeBare, joinedMode, joinedPosition⟩ :=
    step_joins chart sound assistedNext.fits looked rfl rfl joins
  -- The machine without an old tree joins each of them as soon as it is complete.
  obtain ⟨innerToo, belowToo, poppedToo, innerSame, belowSame⟩ :=
    ParseStack.popEntries_alike (beholds.looks_same inStep).symm popped
  have stands := beholds.state inStep
  have underToo : job.table.goto belowToo.state node.kind = some ahead.stack.state := by
    rw [← ParseStack.state_bare, ← belowSame, ParseStack.state_bare]
    exact under
  have firstIs : first.bare = leaf.bare := by
    rw [strings.ahead_eq, ← isRope.tokens_eq, tokens]
    rfl
  have firstKind : first.kind = token.kind := (congrArg Green.Token.kind firstIs : first.bare.kind = _).trans leafKind
  have place : ahead.position = plain.position := beholds.position.trans inStep.position_eq
  obtain ⟨built, whole, advances, builtStack, wholeBare, builtFaces, due⟩ := strings.builds chart sound repeats
    tells.ne_nil rfl revises.reports stands.symm
    (fun taken => by rw [ParseStack.popEntries_onto, poppedToo]; rfl) underToo (faces.alike firstIs.symm)
    (Or.inr ⟨state, by rw [firstKind]; exact acts⟩) (by rw [place]; exact fun _ _ => rfl)
  have strand : seen job.table [(⟨target, node.element, false, ahead.stack.stop⟩ : StackEntry).bare] =
      strands (ropeBases node.element) := seen_rope job.table isRope.bare_eq
  have same : rope.element.bare = whole.element.bare := by
    rw [ropeBare, wholeBare, strand, innerSame]
    have lengths : totalLength inner = totalLength innerToo := by
      rw [← ParseStack.totalLength_bare, ParseStack.bare, innerSame]
      exact ParseStack.totalLength_bare innerToo
    rw [lengths, ← isRope.textLength_eq]
    rfl
  have joinedDue : joined.dueMode job.table = (ahead.pushNode target node).dueMode job.table := by
    rw [dueIs, dueMode, joinedMode, mode]
    rfl
  obtain ⟨id, _, actsOn, _⟩ := joins
  refine .of_advances inStep.position_eq.symm done advances pushes
    (.joins reading (kind ▸ actsOn) stepped joinedPosition joinedDue)
    ⟨assistedNext.step revises stepped, inStep.alone.advances revises advances, ?_, fun other looks => ?_,
      fun firm => ?_⟩
  · rw [builtStack, joinedStack, ParseStack.bare_push, ParseStack.bare_push, same, belowSame]
  · obtain ⟨found, looksToo, foundIs⟩ := builtFaces.looks
    obtain rfl := looks.unique looksToo
    refine ⟨final, ?_, (foundIs.trans lastIs).symm⟩
    rw [joinedPosition, joinedDue]
    exact reading
  · obtain ⟨base, isLast⟩ := Option.ne_none_iff_exists'.mp (mt List.getLast?_eq_none_iff.mp tells.ne_nil)
    have modes := tells.nextLexMode
    rw [isLast] at modes
    rw [joinedDue, due firm base isLast]
    exact (Option.some.inj modes).symm

/-- Whatever is pushed is built by the machine without an old tree. -/
theorem Beholds.push (begun : node.info.preState = ahead.stack.state)
    (goes : job.table.goto ahead.stack.state node.kind = some target)
    (doneToo : aided.step job = .ok (.inl (ahead.pushNode target node)))
    {answer : Machine ⊕ Node} (done : plain.step job = .ok answer) :
    KeepsStep prior job root change aided plain answer := by
  have sound := revises.accepted.sound
  have numbered : job.table.Numbered := sound.table
  obtain ⟨items, chart⟩ := sound.chart revises.small
  have foreseen := beholds.considers.foreseen
  have proper := beholds.considers.proper
  rw [read] at foreseen proper
  obtain ⟨recalls, clean, solid, _⟩ := foreseen
  have intact : node.Intact := ⟨clean, solid⟩
  obtain ⟨accounts, _⟩ := Job.recalls_node.mp recalls
  rcases Nat.eq_zero_or_pos node.height with ordinary | high
  · obtain ⟨reached, after, foretells⟩ := accounts.holds ordinary intact
    have reaches := foretells.goes
    rw [begun] at reaches
    cases goes.symm.trans reaches
    exact beholds.push_foretold inStep revises read acts begun foretells doneToo done
  · have repeats := accounts.repeats.mpr high
    have tells := (accounts.paired high).tells (numbered.ne_error_of_repeat repeats)
    rcases recalls.lined sound intact begun goes high with strung | loose
    · obtain ⟨after, foretells⟩ := strung.foretells chart sound repeats ⟨proper.1, high⟩ tells rfl
        (by rw [begun]; exact goes) intact
      exact beholds.push_foretold inStep revises read acts begun foretells doneToo done
    · exact beholds.push_loose inStep revises read acts goes high loose doneToo done

end Loose

section Elements

variable {prior job : Job} {root : Node} {change : Change} {aided plain ahead : Machine} {token fresh : LexedToken}
  {element : Element} {mode : LexMode}
  (beholds : Beholds prior job aided plain ahead (.reused element mode) token fresh)
  (inStep : InStep prior job root change aided plain) (revises : Revises prior job root change)

include beholds inStep revises

/-- An element of the old tree of which the first token is shifted is pushed, or entered. -/
theorem Beholds.shiftElement {state : StateId} (acts : job.table.action plain.stack.state token.kind = .shift state)
    (done : plain.step job = .ok (.inl ((plain.decidesOn token).shiftToken state token))) :
    KeepsStep prior job root change aided plain (.inl ((plain.decidesOn token).shiftToken state token)) := by
  have actsToo : job.table.action ahead.stack.state (Lookahead.reused element mode).kind = .shift state := by
    rw [beholds.state inStep, beholds.kind]
    exact acts
  cases element with
  | token leaf =>
      obtain ⟨_, _, _, first, rest, tokens, other, lexed, seen, _⟩ := beholds.considers.foreseen
      obtain rfl := Except.ok.inj (lexed.symm.trans beholds.lexed)
      cases tokens
      have doneToo := step_of_leaf beholds.looked
      rw [show job.table.action ahead.stack.state leaf.kind = .shift state from actsToo] at doneToo
      exact beholds.shift inStep revises acts doneToo rfl rfl beholds.considers.idle (seen.symm.trans beholds.same)
  | node head children =>
      have isNode : Lookahead.reused (.node head children) mode = .reused (Node.mk head children).element mode := rfl
      have doneToo := @step_of_node job aided ahead ⟨head, children⟩ mode beholds.looked
      rw [show job.table.action ahead.stack.state (Lookahead.reused (Node.mk head children).element mode).kind =
        .shift state from actsToo] at doneToo
      dsimp only at doneToo
      unfold pushReused at doneToo
      dsimp only at doneToo
      split at doneToo
      · rename_i begun
        split at doneToo
        · rename_i target goes
          exact beholds.push inStep revises isNode acts begun goes doneToo done
        · exact beholds.enter inStep revises isNode doneToo
      · exact beholds.enter inStep revises isNode doneToo

/-- An element of the old tree is looked closer at where its first token is neither shifted nor asks for a reduction. -/
theorem Beholds.leave (stays : ∀ id, job.table.action plain.stack.state token.kind ≠ .reduce id)
    (refuses : ∀ target, job.table.action plain.stack.state token.kind ≠ .shift target)
    {answer : Machine ⊕ Node} : KeepsStep prior job root change aided plain answer := by
  rw [← beholds.kind, ← beholds.state inStep] at stays refuses
  cases element with
  | token leaf =>
      have doneToo := step_of_leaf beholds.looked
      change ∀ id, job.table.action ahead.stack.state leaf.kind ≠ .reduce id at stays
      change ∀ id, job.table.action ahead.stack.state leaf.kind ≠ .shift id at refuses
      have lexed : job.lex ahead.position mode = .ok fresh := beholds.lexed
      split at doneToo
      · rename_i id acts
        exact absurd acts (stays id)
      · rename_i target acts
        exact absurd acts (refuses target)
      · rw [lexed] at doneToo
        exact beholds.relex inStep revises rfl doneToo
  | node head children =>
      have isNode : Lookahead.reused (.node head children) mode = .reused (Node.mk head children).element mode := rfl
      have doneToo := @step_of_node job aided ahead ⟨head, children⟩ mode beholds.looked
      split at doneToo
      · rename_i id acts
        exact absurd acts (stays id)
      · rename_i target acts
        exact absurd acts (refuses target)
      · exact beholds.enter inStep revises isNode doneToo

end Elements

theorem InStep.step {prior job : Job} {root : Node} {change : Change} {aided plain : Machine}
    (inStep : InStep prior job root change aided plain) (revises : Revises prior job root change)
    {answer : Machine ⊕ Node} (done : plain.step job = .ok answer) :
    KeepsStep prior job root change aided plain answer := by
  obtain ⟨ahead, lookahead, token, fresh, beholds⟩ := inStep.beholds revises done
  have sound := revises.accepted.sound
  have acting := done
  rw [step_of_looked beholds.looks.lookahead] at acting
  cases acts : job.table.action (plain.decidesOn token).stack.state token.kind with
  | reduce id =>
      rw [acts] at acting
      obtain ⟨first, reduced, same⟩ := bind_ok.mp acting
      cases pure_ok.mp same
      obtain ⟨waits, next, doneToo, matching⟩ := beholds.reduce inStep revises acts reduced done
      exact .moves doneToo matching fun idle => by cases waits.symm.trans idle
  | shift state =>
      rw [acts] at acting
      cases acting
      cases lookahead with
      | lexed other =>
          have same : other.bare = token.bare := (congrArg (·.1) (beholds.lexed_same inStep sound rfl)).symm
          have actsToo : job.table.action ahead.stack.state other.kind = .shift state := by
            rw [beholds.state inStep, ← acts]
            exact congrArg _ beholds.kind
          exact beholds.shift inStep revises acts (step_shift beholds.looked actsToo) rfl rfl
            beholds.considers.idle same
      | reused element mode => exact beholds.shiftElement inStep revises acts done
  | accept =>
      cases lookahead with
      | lexed other => exact beholds.accept inStep revises rfl acts done
      | reused element mode =>
          exact beholds.leave inStep revises (fun _ other => by cases acts.symm.trans other)
            (fun _ other => by cases acts.symm.trans other)
  | error =>
      cases lookahead with
      | lexed other => exact beholds.recover inStep revises rfl acts done
      | reused element mode =>
          exact beholds.leave inStep revises (fun _ other => by cases acts.symm.trans other)
            (fun _ other => by cases acts.symm.trans other)

end Machine

end IncrementalParsing
