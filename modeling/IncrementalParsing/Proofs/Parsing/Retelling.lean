import IncrementalParsing.Proofs.Green.Bare
import IncrementalParsing.Proofs.Parsing.Replay

/-!
Telling a stretch of text again. A machine without an old tree that stands in the right state, with the
right token ahead, builds elements that look like given ones by shifts and reductions alone. Here nothing is
asked of how the token ahead was lexed but what can be seen of it, so that stretches of different origin can
be told one after the other.
-/

namespace IncrementalParsing

open Green

/-! ### What is ahead -/

def LexedToken.bare (token : LexedToken) : Green.Token := (token.toGreen 0).bare

theorem LexedToken.bare_eq_iff {token : LexedToken} {leaf : Green.Token} : token.bare = leaf.bare ↔
    token.kind = leaf.kind ∧ token.leading = leaf.leading ∧ token.length = leaf.textLength := by
  simp [bare, Green.Token.bare, toGreen]

theorem LexedToken.bare_toGreen (token : LexedToken) (serial : Nat) : (token.toGreen serial).bare = token.bare := rfl

theorem LexedToken.bare_movedTo {token : LexedToken} (position : Nat) (ordered : token.start ≤ token.stop) :
    (token.movedTo position).bare = token.bare := by
  unfold bare Green.Token.bare toGreen
  have length : (token.movedTo position).length = token.length := by
    unfold length movedTo
    dsimp only
    omega
  rw [length]
  rfl

def before (next : Green.Token) (tokens : List Green.Token) : Green.Token := tokens.head?.getD next

@[simp] theorem before_nil (next : Green.Token) : before next [] = next := rfl

@[simp] theorem before_cons (next first : Green.Token) (rest : List Green.Token) :
    before next (first :: rest) = first := rfl

theorem before_append (next : Green.Token) (left right : List Green.Token) :
    before next (left ++ right) = before (before next right) left := by
  cases left <;> rfl

theorem before_alike {next other : Green.Token} {tokens others : List Green.Token} (after : next.bare = other.bare)
    (same : tokens.map Green.Token.bare = others.map Green.Token.bare) :
    (before next tokens).bare = (before other others).bare := by
  cases tokens with
  | nil =>
      cases others with
      | nil => exact after
      | cons first rest => cases same
  | cons token rest =>
      cases others with
      | nil => cases same
      | cons first others => exact (List.cons.inj same).1

def StackEntry.modeAfter (table : Table) (entry : StackEntry) : LexMode :=
  match entry.element with
  | .token _ => table.lexMode entry.state
  | .node head _ => head.info.nextLexMode

/-- The mode in which the token after some entries is due, where one was due in a mode before them. What holds no
token leaves it as it is. -/
def ParseStack.dueAfter (table : Table) (mode : LexMode) : List StackEntry → LexMode
  | [] => mode
  | entry :: below => if entry.element.tokens.isEmpty then dueAfter table mode below else entry.modeAfter table

namespace ParseStack

variable {table : Table} {mode : LexMode} {entry : StackEntry}

theorem dueAfter_of_empty {below : List StackEntry} (empty : entry.element.tokens = []) :
    dueAfter table mode (entry :: below) = dueAfter table mode below :=
  if_pos (by rw [empty]; rfl)

theorem dueAfter_of_ne_nil {below : List StackEntry} (some_ : entry.element.tokens ≠ []) :
    dueAfter table mode (entry :: below) = entry.modeAfter table :=
  if_neg (by simpa using some_)

theorem dueAfter_append (lower : List StackEntry) : ∀ upper : List StackEntry,
    dueAfter table mode (upper ++ lower) = dueAfter table (dueAfter table mode lower) upper
  | [] => rfl
  | entry :: rest => by
      rw [List.cons_append, dueAfter, dueAfter, dueAfter_append lower rest]

theorem dueAfter_eq_of_tokens : ∀ entries : List StackEntry, tokens entries = [] →
    dueAfter table mode entries = mode
  | [], _ => rfl
  | entry :: rest, empty => by
      rw [tokens_cons] at empty
      obtain ⟨below, here⟩ := List.append_eq_nil_iff.mp empty
      rw [dueAfter_of_empty here]
      exact dueAfter_eq_of_tokens rest below

end ParseStack

inductive Table.Blank (table : Table) : KindId → Prop
  | production {production : ProductionInfo} : production ∈ table.productions →
      (∀ symbol, symbol ∈ production.symbols → Blank table (table.symbolKind symbol)) → Blank table production.lhs

/-- No repetition is derived from nothing. -/
def Table.Firm (table : Table) : Prop := ∀ kind, table.isRepeat kind = true → ¬ table.Blank kind

/-- In a mode the lexer reads at a place what can be seen of a leaf, and looks no further than the leaf says. -/
def Job.Lexes (job : Job) (position : Nat) (mode : LexMode) (leaf : Green.Token) : Prop :=
  ∃ token, job.lex position mode = .ok token ∧ token.bare = leaf.bare ∧
    token.examinedEnd ≤ position + leaf.textLength + leaf.lookahead

/-- A machine without an old tree that looks ahead to a token of which a leaf is seen. -/
structure Machine.Faces (job : Job) (machine : Machine) (ahead : Green.Token) : Prop where
  fits : machine.Fits job
  unaided : machine.Unaided job
  looks : ∃ token, machine.LooksTo job token ∧ token.bare = ahead.bare

theorem Machine.Faces.alike {job : Job} {machine : Machine} {ahead other : Green.Token}
    (faces : machine.Faces job ahead) (same : ahead.bare = other.bare) : machine.Faces job other := by
  obtain ⟨token, looks, seen⟩ := faces.looks
  exact ⟨faces.fits, faces.unaided, token, looks, seen.trans same⟩

namespace ParseStack

def stateOver (state : StateId) : List StackEntry → StateId
  | [] => state
  | entry :: _ => entry.state

theorem state_append (top : List StackEntry) (below : ParseStack) :
    state (top ++ below) = stateOver below.state top := by
  cases top <;> rfl

theorem stateOver_bare (state : StateId) : ∀ entries : List StackEntry,
    stateOver state (bare entries) = stateOver state entries
  | [] => rfl
  | _ :: _ => rfl

theorem totalLength_bare (entries : List StackEntry) : totalLength (bare entries) = totalLength entries := by
  simp [totalLength, bare, StackEntry.bare, Function.comp_def]

theorem tokens_bare : ∀ entries : List StackEntry,
    tokens (bare entries) = (tokens entries).map Green.Token.bare
  | [] => by simp
  | entry :: rest => by
      rw [bare_cons, tokens_cons, tokens_cons, tokens_bare rest, List.map_append, ← Element.tokens_bare]
      rfl

theorem tokens_alike {entries others : List StackEntry} (same : bare entries = bare others) :
    (tokens entries).map Green.Token.bare = (tokens others).map Green.Token.bare := by
  rw [← tokens_bare, same, tokens_bare]

theorem plain_of_bare {entries others : List StackEntry} (same : bare entries = bare others)
    (plain : ∀ entry, entry ∈ others → entry.extra = false) : ∀ entry, entry ∈ entries → entry.extra = false := by
  intro entry member
  have seen : entry.bare ∈ bare others := by
    rw [← same]
    exact List.mem_map.mpr ⟨entry, member, rfl⟩
  obtain ⟨other, among, alike⟩ := List.mem_map.mp seen
  have extra : other.bare.extra = entry.bare.extra := by rw [alike]
  exact extra.symm.trans (plain other among)

theorem clear_append {top : List StackEntry} {base : ParseStack} (plain : ∀ entry, entry ∈ top → entry.extra = false)
    (open_ : top = [] → base.Clear) : Clear (top ++ base) := by
  cases top with
  | nil => exact open_ rfl
  | cons first rest =>
      intro entry head
      cases head
      exact plain first List.mem_cons_self

end ParseStack

/-! ### Single steps -/

namespace Machine

variable {job : Job} {machine : Machine} {ahead : Green.Token} (sound : job.Sound)
  (faces : machine.Faces job ahead)

include sound faces

theorem Faces.shift {target : StateId} (acts : job.table.action machine.stack.state ahead.kind = .shift target)
    {token : LexedToken}
    (lexed : job.lex (machine.position + ahead.textLength) (job.table.lexMode target) = .ok token) :
    ∃ next leaf, machine.Advances job next ∧ next.stack = machine.stack.push target (.token leaf) ∧
      leaf.bare = ahead.bare ∧ next.Faces job (token.toGreen 0) ∧
      next.dueMode job.table = job.table.lexMode target := by
  obtain ⟨found, looks, seen⟩ := faces.looks
  obtain ⟨kind, _, length⟩ := LexedToken.bare_eq_iff.mp seen
  have here := Job.lex_fits sound faces.fits.inside looks.lexed
  have acts : job.table.action machine.stack.state found.kind = .shift target := kind ▸ acts
  have stop : found.stop = machine.position + ahead.textLength := by
    rw [here.stop_eq, length]
  have stepped := step_shift looks.lookahead acts
  have advances : machine.Advances job ((machine.decidesOn found).shiftToken target found) :=
    ⟨stepped, found, _, looks.lookahead, Or.inl ⟨target, acts⟩⟩
  have unaided := (Does.shift acts).unaided faces.unaided looks
  refine ⟨_, found.toGreen machine.nextSerial, advances, rfl, seen, ⟨step_fits sound faces.fits stepped,
    unaided, token, ?_, rfl⟩, rfl⟩
  rw [← stop] at lexed
  have inside : found.stop ≤ job.text.size := here.stop_le
  have mode := (Job.lex_fits sound inside lexed).mode_eq
  exact .of_idle unaided.reuse rfl mode.symm (mode ▸ lexed)

/-- A reduction that the automaton asks for is carried out where no extra lies on top. -/
theorem Faces.reduce {id : ProductionId} {production : ProductionInfo}
    (acts : job.table.action machine.stack.state ahead.kind = .reduce id)
    (found : job.table.production id = .ok production) (clear : machine.stack.Clear) {entries : List StackEntry}
    {below : ParseStack} (popped : ParseStack.popEntries production.length [] machine.stack = .ok (entries, below))
    {target : StateId} (goes : job.table.goto below.state production.lhs = some target) :
    ∃ (next : Machine) (node : Green.Node), machine.Advances job next ∧
      next.stack = below.push target node.element ∧
      node.element.bare = production.shows job.table (entries.map StackEntry.bare) ∧ next.Faces job ahead ∧
      next.dueMode job.table = machine.dueMode job.table := by
  obtain ⟨token, looks, seen⟩ := faces.looks
  have acts : job.table.action machine.stack.state token.kind = .reduce id :=
    (LexedToken.bare_eq_iff.mp seen).1 ▸ acts
  have numbered : job.table.Numbered := sound.table
  have known := Array.mem_of_getElem? (requireAt_ok.mp found)
  have entriesSound := (faces.fits.follows.popped faces.fits.sound popped).2.2.1
  obtain ⟨node, built, _⟩ := buildNode_builtFrom
    (ParseStack.reductionOrigin job.table machine.stack below token.examinedEnd token.lexMode) machine.nextSerial
    (numbered.lhs production known).2 rfl entriesSound
  have reducedStack : machine.stack.reduce job.table machine.nextSerial production token.examinedEnd token.lexMode =
      .ok (below.push target node.element) := by
    refine ParseStack.reduce_ok.mpr ⟨entries, below, target, node, ?_, goes, built, ?_⟩
    · rw [clear.dropWhile]
      exact popped
    · rw [clear.takeWhile]
      rfl
  have reduced : (machine.decidesOn token).reduce job id (.lexed token) = .ok { machine with
      stack := below.push target node.element
      mode := some token.lexMode
      pending := some (.lexed token)
      nextSerial := machine.nextSerial + 1 } :=
    reduce_ok.mpr ⟨production, _, found, reducedStack, rfl⟩
  have stepped := step_reduce looks.lookahead acts reduced
  exact ⟨_, node, ⟨stepped, token, _, looks.lookahead, Or.inr ⟨id, acts⟩⟩, rfl,
    buildNode_bare numbered known rfl entriesSound built, ⟨step_fits sound faces.fits stepped,
    (Does.reduce acts reduced).unaided faces.unaided looks, token, .of_pending rfl rfl looks.lexed, seen⟩,
    looks.due.symm⟩

end Machine

/-! ### Telling again -/

/-- Entries are told again, with a token after them, on every stack in a state and on every text that has the
bytes of this one from `offset` up to `stop`: a machine with their first token ahead makes entries that look
alike by shifts and reductions alone, and has the token after them ahead. It is due in the mode that they leave
behind, unless some repetition is derived from nothing. -/
def Job.Retells (job : Job) (next : Green.Token) (top : List StackEntry) (state : StateId) (offset stop : Nat) :
    Prop :=
  ∀ (other : Job) (machine : Machine), other.language = job.language → other.Reports →
    machine.stack.state = state → machine.Faces other (before next (ParseStack.tokens top)) →
    machine.stack.Opens other.table (before next (ParseStack.tokens top)).kind →
    Cursor.Agree job.text other.text offset machine.position stop →
    ∃ final copy, Relation.ReflTransGen (Machine.Advances other) machine final ∧
      final.stack = copy ++ machine.stack ∧ ParseStack.bare copy = ParseStack.bare top ∧ final.Faces other next ∧
      (other.table.Firm →
        final.dueMode other.table = ParseStack.dueAfter other.table (machine.dueMode other.table) top)

namespace Job.Retells

variable {job : Job} {next : Green.Token} {top : List StackEntry} {state : StateId} {offset stop : Nat}

theorem nil (next : Green.Token) (state : StateId) (offset stop : Nat) : job.Retells next [] state offset stop := by
  intro other machine _ _ _ faces _ _
  rw [ParseStack.tokens_nil] at faces
  exact ⟨machine, [], .refl, rfl, rfl, faces, fun _ => rfl⟩

theorem mono (retells : job.Retells next top state offset stop) {further : Nat} (le : stop ≤ further) :
    job.Retells next top state offset further :=
  fun other machine same reports stands faces opens agree =>
    retells other machine same reports stands faces opens (agree.shorten le)

/-- Only what can be seen of the token after the entries matters, and of an entry not where it lies. -/
theorem alike {after : Green.Token} {element : Element} {target : StateId} {extra : Bool} {place other : Nat}
    (retells : job.Retells next [⟨target, element, extra, place⟩] state offset stop) (seen : after.bare = next.bare) :
    job.Retells after [⟨target, element, extra, other⟩] state offset stop := by
  have same : ParseStack.bare [⟨target, element, extra, other⟩] =
      ParseStack.bare [⟨target, element, extra, place⟩] := rfl
  have ahead := before_alike seen (ParseStack.tokens_alike same)
  intro another machine language reports stands faces opens agree
  have kind : (before after (ParseStack.tokens [⟨target, element, extra, other⟩])).kind =
      (before next (ParseStack.tokens [⟨target, element, extra, place⟩])).kind :=
    (congrArg Green.Token.kind ahead : (before after (ParseStack.tokens _)).bare.kind = _)
  obtain ⟨final, copy, steps, stack, alike, last, due⟩ := retells another machine language reports stands
    (faces.alike ahead) (kind ▸ opens) agree
  exact ⟨final, copy, steps, stack, alike.trans same.symm, last.alike seen.symm, due⟩

theorem elsewhere (retells : job.Retells next top state offset stop) {other : Job}
    (language : other.language = job.language) {base last : Nat}
    (agree : Cursor.Agree job.text other.text offset base stop) (reaches : base + stop ≤ last + offset) :
    other.Retells next top state base last := by
  intro third machine same reports stands faces opens agreeToo
  refine retells third machine (same.trans language) reports stands faces opens ?_
  intro distance inside
  exact (agree distance inside).trans (agreeToo distance (by omega))

theorem append {lower upper : List StackEntry}
    (first : job.Retells (before next (ParseStack.tokens upper)) lower state offset stop)
    (second : job.Retells next upper (ParseStack.stateOver state lower) (offset + totalLength lower) stop)
    (plain : ∀ entry, entry ∈ lower → entry.extra = false) : job.Retells next (upper ++ lower) state offset stop := by
  intro other machine language reports stands faces opens agree
  rw [ParseStack.tokens_append, before_append] at faces opens
  obtain ⟨middle, copy, steps, stack, alike, facing, due⟩ :=
    first other machine language reports stands faces opens agree
  have lengths : totalLength copy = totalLength lower := by
    rw [← ParseStack.totalLength_bare, alike, ParseStack.totalLength_bare]
  have position : middle.position = machine.position + totalLength lower := by
    have follows := facing.fits.follows
    have ending := facing.fits.stop_eq
    rw [stack] at follows ending
    rw [← ending, follows.stop_append copy machine.stack, faces.fits.stop_eq, lengths]
  have opensNext : middle.stack.Opens other.table (before next (ParseStack.tokens upper)).kind := by
    rw [stack]
    cases copy with
    | nil =>
        have none : lower = [] := by simpa [ParseStack.bare] using alike.symm
        rw [none, ParseStack.tokens_nil, before_nil] at opens
        exact opens
    | cons entry rest =>
        exact Or.inl (ParseStack.clear_append (ParseStack.plain_of_bare alike plain) fun none => by cases none)
  obtain ⟨final, later, more, finalStack, laterAlike, last, dueLast⟩ := second other middle language reports
    (by rw [stack, ParseStack.state_append, stands, ← ParseStack.stateOver_bare state copy, alike,
      ParseStack.stateOver_bare])
    facing opensNext (by rw [position]; exact agree.advance _)
  refine ⟨final, later ++ copy, steps.trans more, ?_, ?_, last, fun firm => ?_⟩
  · rw [finalStack, stack, List.append_assoc]
  · rw [ParseStack.bare_append, ParseStack.bare_append, alike, laterAlike]
  · rw [dueLast firm, due firm, ParseStack.dueAfter_append]

theorem shift (sound : job.Sound) (reports : job.Reports) {leaf : Green.Token} {target : StateId}
    (acts : job.table.action state leaf.kind = .shift target) (inside : offset + leaf.textLength ≤ job.text.size)
    {token : LexedToken} (lexed : job.lex (offset + leaf.textLength) (job.table.lexMode target) = .ok token)
    (within : token.examinedEnd ≤ stop) (place : Nat) :
    job.Retells (token.toGreen 0) [⟨target, .token leaf, false, place⟩] state offset stop := by
  intro other machine language reportsToo stands faces opens agree
  obtain ⟨ownLanguage, text, maxSkipped, stepLimit⟩ := other
  cases language
  have soundToo : Job.Sound ⟨job.language, text, maxSkipped, stepLimit⟩ := sound
  rw [ParseStack.tokens_cons, ParseStack.tokens_nil, List.nil_append, Element.tokens, before_cons] at faces
  have fits := job.lex_fits sound inside lexed
  have reportsOn : (job.on text).Reports := fun position mode => reportsToo position mode
  have again := Job.lex_elsewhere sound reports reportsOn offset leaf.textLength inside faces.fits.inside lexed
    agree within
  obtain ⟨final, copy, advances, stack, seen, facing, due⟩ := faces.shift soundToo (stands ▸ acts) again
  refine ⟨final, [⟨target, .token copy, false, machine.stack.stop⟩], .single advances, stack, ?_, facing.alike ?_,
    fun _ => due⟩
  · simp [ParseStack.bare, StackEntry.bare, Element.bare, seen]
  · rw [LexedToken.bare_toGreen, LexedToken.bare_toGreen]
    refine LexedToken.bare_movedTo _ ?_
    have starts := fits.start_eq
    have stops := fits.stop_eq
    omega

theorem reduce (sound : job.Sound) {popped : List StackEntry} (retells : job.Retells next popped state offset stop)
    (plain : ∀ entry, entry ∈ popped → entry.extra = false) {id : ProductionId}
    (acts : job.table.action (ParseStack.stateOver state popped) next.kind = .reduce id)
    {production : ProductionInfo} (found : job.table.production id = .ok production)
    (counted : popped.length = production.length) {target : StateId}
    (goes : job.table.goto state production.lhs = some target) {node : Node}
    (shown : node.element.bare = production.shows job.table (popped.reverse.map StackEntry.bare))
    (tokens : node.element.tokens = ParseStack.tokens popped)
    (left : ParseStack.tokens popped ≠ [] → ∀ mode, ParseStack.dueAfter job.table mode popped = node.info.nextLexMode)
    (place : Nat) : job.Retells next [⟨target, node.element, false, place⟩] state offset stop := by
  intro other machine language reports stands faces opens agree
  obtain ⟨ownLanguage, text, maxSkipped, stepLimit⟩ := other
  cases language
  have soundToo : Job.Sound ⟨job.language, text, maxSkipped, stepLimit⟩ := sound
  rw [ParseStack.tokens_cons, ParseStack.tokens_nil, List.nil_append, tokens] at faces opens
  obtain ⟨middle, copy, steps, stack, alike, facing, due⟩ := retells
    ⟨job.language, text, maxSkipped, stepLimit⟩ machine rfl reports stands faces opens agree
  have copyPlain := ParseStack.plain_of_bare alike plain
  have acts : job.table.action middle.stack.state next.kind = .reduce id := by
    rw [stack, ParseStack.state_append, stands, ← ParseStack.stateOver_bare state copy, alike,
      ParseStack.stateOver_bare]
    exact acts
  have length : copy.length = production.length := by
    have lengths := congrArg List.length alike
    rw [ParseStack.bare, ParseStack.bare, List.length_map, List.length_map] at lengths
    exact lengths.trans counted
  have clear : middle.stack.Clear := by
    rw [stack]
    refine ParseStack.clear_append copyPlain fun none => ?_
    rw [none, List.nil_append] at stack
    rw [none] at alike
    have nothing : popped = [] := by simpa [ParseStack.bare] using alike.symm
    rw [nothing, ParseStack.tokens_nil, before_nil] at opens
    rcases opens with clear | ⟨shifted, shifts⟩
    · exact clear
    · rw [stack] at acts
      cases acts.symm.trans shifts
  have taken : ParseStack.popEntries production.length [] middle.stack = .ok (copy.reverse, machine.stack) := by
    have pops := ParseStack.popEntries_plain machine.stack copy [] copyPlain
    rw [stack, ← length, pops, List.append_nil]
  obtain ⟨final, rebuilt, advances, finalStack, seen, last, dueSame⟩ := facing.reduce soundToo acts found clear taken
    (by rw [stands]; exact goes)
  refine ⟨final, [⟨target, rebuilt.element, false, machine.stack.stop⟩], steps.tail advances, finalStack, ?_, last,
    fun firm => ?_⟩
  swap
  · rw [dueSame, due firm]
    by_cases none : ParseStack.tokens popped = []
    · rw [ParseStack.dueAfter_eq_of_tokens popped none, ParseStack.dueAfter_of_empty (tokens.trans none)]
      rfl
    · rw [ParseStack.dueAfter_of_ne_nil (fun empty => none (tokens.symm.trans empty))]
      exact left none _
  have same : copy.reverse.map StackEntry.bare = popped.reverse.map StackEntry.bare := by
    rw [List.map_reverse, List.map_reverse]
    exact congrArg List.reverse alike
  have bareSame : rebuilt.element.bare = node.element.bare := by
    rw [seen, shown, same]
    rfl
  simp [ParseStack.bare, StackEntry.bare, bareSame]

end Job.Retells

end IncrementalParsing
