import IncrementalParsing.Proofs.Green.Strands
import IncrementalParsing.Proofs.Parsing.Retelling

/-!
Telling repetitions again. A machine without an old tree joins every repetition to those before it as soon as
it is complete, while a tree that is parsed again may hold many of them in one rope. Where the bases of a
rope are told one by one, each in the state after those before it and joined on the token that completed it,
the rope is told: what is seen of it does not depend on how it was joined.
-/

namespace IncrementalParsing

open Green

/-! ### Joins -/

def seen (table : Table) (entries : List StackEntry) : List Child :=
  (entries.flatMap (fun entry => spliced table none entry.element)).flatMap opened

theorem seen_append (table : Table) (left right : List StackEntry) :
    seen table (left ++ right) = seen table left ++ seen table right := by
  simp [seen]

theorem seen_rope (table : Table) {entry : StackEntry} {kind : KindId} {length : Nat} {children : List Child}
    (bare : entry.element = .node (.bare kind length 1) children) : seen table [entry] = children := by
  unfold seen
  rw [List.flatMap_cons, List.flatMap_nil, List.append_nil, bare]
  unfold spliced
  dsimp only
  rw [if_neg (by simp [Head.bare]), List.flatMap_cons, List.flatMap_nil, List.append_nil]
  exact map_inherit_none children

theorem ProductionInfo.shows_join {table : Table} (numbered : table.Numbered) {production : ProductionInfo}
    (known : production ∈ table.productions) (joins : production.kind = .repeatJoin) {entries : List StackEntry}
    (sound : ParseStack.Sound table entries) : production.shows table (entries.map StackEntry.bare) =
      .node (.bare production.lhs (totalLength entries) 1) (seen table (entries.map StackEntry.bare)) := by
  obtain ⟨_, fields, _⟩ := numbered.join production known joins
  have length := lengthOf_productionChildren production.fields entries sound
  rw [← lengthOf_bareAll, productionChildren_bare] at length
  unfold shows seen
  dsimp only
  rw [if_neg (by rw [joins]; exact fun same => nomatch same), length,
    productionChildren_unlabelled table _ _ (by simp [fields])]

theorem seen_base (table : Table) {entry : StackEntry} {base : Green.Node} (positive : 0 < base.height)
    (same : entry.element.bare = base.element.bare) : seen table [entry.bare] = strands [base] := by
  have bare := Node.bare_rope positive
  rw [strands, List.flatMap_cons, List.flatMap_nil, List.append_nil, bare]
  exact seen_rope table (same.trans bare)

theorem ParseStack.single_of_bare {copy : List StackEntry} {target : StateId} {node : Green.Node}
    (alike : bare copy = bare [⟨target, node.element, false, 0⟩]) : ∃ entry, copy = [entry] ∧
      entry.state = target ∧ entry.extra = false ∧ entry.element.bare = node.element.bare ∧
      entry.element.kind = node.kind ∧ entry.element.textLength = node.textLength := by
  obtain ⟨entry, rfl⟩ : ∃ entry, copy = [entry] := by
    have lengths := congrArg List.length alike
    rw [bare, bare, List.length_map, List.length_map] at lengths
    exact List.length_eq_one_iff.mp lengths
  have looks : entry.bare = ⟨target, node.element.bare, false, 0⟩ := (List.cons.inj alike).1
  have same : entry.element.bare = node.element.bare := congrArg StackEntry.element looks
  refine ⟨entry, rfl, congrArg StackEntry.state looks, congrArg StackEntry.extra looks, same, ?_, ?_⟩
  · rw [← Element.kind_bare, same, Element.kind_bare]
    rfl
  · rw [← Element.textLength_bare, same, Element.textLength_bare]
    rfl

theorem ParseStack.popEntries_single {entry : StackEntry} (plain : entry.extra = false) (rest : ParseStack)
    (taken : List StackEntry) : popEntries 1 taken (entry :: rest) = .ok ([entry] ++ taken, rest) :=
  popEntries_plain rest [entry] taken fun other member => by cases List.mem_singleton.mp member; exact plain

theorem ParseStack.clear_cons {entry : StackEntry} (plain : entry.extra = false) (rest : ParseStack) :
    Clear (entry :: rest) := by
  intro top head
  cases head
  exact plain

def Table.JoinsOn (table : Table) (joint : StateId) (terminal : KindId) : Prop :=
  ∃ id production, table.action joint terminal = .reduce id ∧ table.production id = .ok production ∧
    production.kind = .repeatJoin

theorem Machine.Faces.join {job : Job} {items : StateId → Lalr.Item → Prop} (chart : job.table.Chart items)
    (sound : job.Sound) {machine : Machine} {ahead : Green.Token} (faces : machine.Faces job ahead)
    {entry : StackEntry} {entries : List StackEntry} {base rest : ParseStack} {state : StateId}
    (stack : machine.stack = entry :: base) (plain : entry.extra = false)
    (taken : ∀ others, ParseStack.popEntries 1 others base = .ok (entries ++ others, rest))
    (goes : job.table.goto rest.state entry.element.kind = some state)
    (joins : job.table.JoinsOn entry.state ahead.kind) :
    ∃ (next : Machine) (rope : Green.Node), machine.Advances job next ∧ next.stack = rest.push state rope.element ∧
      rope.element.bare = .node (.bare entry.element.kind (totalLength entries + entry.element.textLength) 1)
        (seen job.table (entries.map StackEntry.bare) ++ seen job.table [entry.bare]) ∧
      next.Faces job ahead ∧ next.dueMode job.table = machine.dueMode job.table := by
  obtain ⟨id, production, acts, found, kind⟩ := joins
  have numbered : job.table.Numbered := sound.table
  have known := Array.mem_of_getElem? (requireAt_ok.mp found)
  obtain ⟨_, _, symbols⟩ := numbered.join production known kind
  have two : production.length = 2 := by
    have lengths := congrArg List.length symbols
    rw [List.length_map] at lengths
    exact lengths
  have clear : machine.stack.Clear := by
    rw [stack]
    exact ParseStack.clear_cons plain base
  have popped : ParseStack.popEntries production.length [] machine.stack = .ok (entries ++ [entry], rest) := by
    rw [two, stack, ParseStack.popEntries, plain, if_neg Bool.false_ne_true]
    exact taken [entry]
  obtain ⟨token, looks, same⟩ := faces.looks
  have terminal : job.table.isTerminal ahead.kind = true := by
    rw [← (LexedToken.bare_eq_iff.mp same).1]
    exact LexedToken.Fits.terminal (Job.lex_fits sound faces.fits.inside looks.lexed)
  have acts : job.table.action machine.stack.state ahead.kind = .reduce id := by
    rw [stack]
    exact acts
  obtain ⟨again, foundAgain, reducible⟩ :=
    faces.fits.follows.reducible numbered chart faces.fits.sound terminal acts
  cases found.symm.trans foundAgain
  obtain ⟨all, below, pops, kinds, _⟩ := reducible.topmost
  rw [clear.dropWhile] at pops
  cases popped.symm.trans pops
  have lhs : entry.element.kind = production.lhs := by
    rw [symbols, ParseStack.plain_append, List.map_append] at kinds
    have last := congrArg List.getLast? kinds
    simpa [ParseStack.plain, plain] using last
  obtain ⟨next, rope, advances, nextStack, shown, facing, due⟩ :=
    faces.reduce sound acts found clear popped (lhs ▸ goes)
  have entriesSound := (faces.fits.follows.popped faces.fits.sound popped).2.2.1
  refine ⟨next, rope, advances, nextStack, ?_, facing, due⟩
  rw [shown, ProductionInfo.shows_join numbered known kind entriesSound, List.map_append, seen_append, ← lhs,
    totalLength_append, totalLength_cons, totalLength_nil]
  rfl

/-! ### What is known of a node -/

/-- A node is told again from where it was begun, on every text that has the same bytes as far as the children
that it contributes and the token after it were examined. -/
structure Job.Foretells (job : Job) (offset : Nat) (node : Green.Node) (target : StateId) (next : LexedToken) :
    Prop where
  lexed : job.lex (offset + node.textLength) node.info.nextLexMode = .ok next
  within : next.examinedEnd ≤ offset + node.textLength + node.info.lookahead
  goes : job.table.goto node.info.preState node.kind = some target
  blank : node.element.tokens = [] → job.table.Blank node.kind
  retells : ∀ stop, Within stop offset (spliced job.table none node.element) → next.examinedEnd ≤ stop →
    job.Retells (next.toGreen 0) [⟨target, node.element, false, 0⟩] node.info.preState offset stop

theorem Job.Foretells.unique {job : Job} {offset : Nat} {node : Green.Node} {target other : StateId}
    {next after : LexedToken} (foretells : job.Foretells offset node target next)
    (again : job.Foretells offset node other after) : target = other ∧ next = after := by
  cases foretells.lexed.symm.trans again.lexed
  cases foretells.goes.symm.trans again.goes
  exact ⟨rfl, rfl⟩

theorem Job.Foretells.dueAfter {job : Job} {offset place : Nat} {node : Green.Node} {target : StateId}
    {next : LexedToken} {extra : Bool} (foretells : job.Foretells offset node target next) (firm : job.table.Firm)
    (repeats : job.table.isRepeat node.kind = true) (mode : LexMode) :
    ParseStack.dueAfter job.table mode [⟨target, node.element, extra, place⟩] = node.info.nextLexMode :=
  ParseStack.dueAfter_of_ne_nil fun empty => firm node.kind repeats (foretells.blank empty)

theorem spliced_rope {table : Table} {node : Green.Node} (positive : 0 < node.height) :
    spliced table none node.element = [⟨none, node.element⟩] := by
  have high : ¬ node.head.info.ropeHeight = 0 := Nat.ne_of_gt positive
  exact if_neg (by simp [high])

theorem Job.Foretells.retells_rope {job : Job} {offset stop : Nat} {node : Green.Node} {target : StateId}
    {next : LexedToken} (foretells : job.Foretells offset node target next) (positive : 0 < node.height)
    (within : offset + node.textLength + node.info.lookahead ≤ stop) :
    job.Retells (next.toGreen 0) [⟨target, node.element, false, 0⟩] node.info.preState offset stop :=
  foretells.retells stop (by rw [spliced_rope positive]; exact ⟨within, trivial⟩)
    (Nat.le_trans foretells.within within)

theorem Green.Node.IsRope.bases_of_high {table : Table} {rope : Green.Node} (isRope : rope.IsRope table)
    (high : 1 < rope.height) : ∃ first second rest, ropeBases rope.element = first :: second :: rest := by
  obtain ⟨left, right, halved⟩ := isRope.split high
  obtain ⟨leftRope, rightRope⟩ := halved.ropes isRope
  obtain ⟨first, others, lefts⟩ := List.exists_cons_of_ne_nil leftRope.bases_ne_nil
  obtain ⟨another, more, rights⟩ := List.exists_cons_of_ne_nil rightRope.bases_ne_nil
  rw [halved.bases_eq, lefts, rights]
  cases others with
  | nil => exact ⟨first, another, more, rfl⟩
  | cons second rest => exact ⟨first, second, rest ++ another :: more, rfl⟩

/-! ### Repetitions in a row -/

/-- A repetition that is told on top of others is joined to them as soon as it is complete. -/
theorem Job.Foretells.joined {job : Job} {items : StateId → Lalr.Item → Prop} (chart : job.table.Chart items)
    (sound : job.Sound) {kind : KindId} {state joint : StateId} {stop offset : Nat} {base : Green.Node}
    {next : LexedToken} {after : Green.Token} (foretells : job.Foretells offset base joint next)
    (isKind : base.kind = kind) (positive : 0 < base.height) (begun : base.info.preState = state)
    (joins : job.table.JoinsOn joint next.kind) (within : offset + base.textLength + base.info.lookahead ≤ stop)
    (nextIs : next.bare = after.bare) (repeats : job.table.isRepeat kind = true) {other : Job} {machine : Machine}
    {entries : List StackEntry} {rest : ParseStack} (language : other.language = job.language)
    (reports : other.Reports) (stands : machine.stack.state = state)
    (taken : ∀ taken, ParseStack.popEntries 1 taken machine.stack = .ok (entries ++ taken, rest))
    (goes : other.table.goto rest.state kind = some state)
    (faces : machine.Faces other (before after base.element.tokens))
    (opens : machine.stack.Opens other.table (before after base.element.tokens).kind)
    (agree : Cursor.Agree job.text other.text offset machine.position stop) :
    ∃ (final : Machine) (rope : Green.Node), Relation.ReflTransGen (Machine.Advances other) machine final ∧
      final.stack = rest.push state rope.element ∧
      rope.element.bare = .node (.bare kind (totalLength entries + base.textLength) 1)
        (seen other.table (entries.map StackEntry.bare) ++ strands [base]) ∧
      final.Faces other after ∧ (other.table.Firm → final.dueMode other.table = base.info.nextLexMode) ∧
      final.position = machine.position + base.textLength := by
  obtain ⟨ownLanguage, text, maxSkipped, stepLimit⟩ := other
  cases language
  have tokens : ParseStack.tokens [⟨joint, base.element, false, 0⟩] = base.element.tokens := by
    rw [ParseStack.tokens_cons, ParseStack.tokens_nil, List.nil_append]
  have sameAhead : (before after base.element.tokens).bare =
      (before (next.toGreen 0) (ParseStack.tokens [⟨joint, base.element, false, 0⟩])).bare := by
    rw [tokens]
    exact before_alike (nextIs.symm.trans (next.bare_toGreen 0).symm) rfl
  have sameKind : (before after base.element.tokens).kind =
      (before (next.toGreen 0) (ParseStack.tokens [⟨joint, base.element, false, 0⟩])).kind :=
    (congrArg Green.Token.kind sameAhead : (before after base.element.tokens).bare.kind = _)
  obtain ⟨middle, copy, steps, stack, alike, facing, due⟩ := foretells.retells_rope positive within
    ⟨job.language, text, maxSkipped, stepLimit⟩ machine rfl reports (stands.trans begun.symm)
    (faces.alike sameAhead) (sameKind ▸ opens) agree
  obtain ⟨entry, rfl, entryState, entryPlain, entryBare, entryKind, entryLength⟩ := ParseStack.single_of_bare alike
  rw [isKind] at entryKind
  have soundToo : Job.Sound ⟨job.language, text, maxSkipped, stepLimit⟩ := sound
  have chartToo : Table.Chart (Job.table ⟨job.language, text, maxSkipped, stepLimit⟩) items := chart
  obtain ⟨final, rope, advances, finalStack, ropeBare, finalFaces, finalDue⟩ :=
    facing.join chartToo soundToo stack entryPlain taken (entryKind ▸ goes) (entryState ▸ joins)
  have ropeIs : rope.element.bare = .node (.bare kind (totalLength entries + base.textLength) 1)
      (seen job.table (entries.map StackEntry.bare) ++ strands [base]) := by
    rw [ropeBare, entryKind, entryLength]
    exact congrArg (Element.node _ <| seen job.table (entries.map StackEntry.bare) ++ ·)
      (seen_base job.table positive entryBare)
  refine ⟨final, rope, steps.tail advances, finalStack, ropeIs, finalFaces.alike nextIs, fun firm =>
    finalDue.trans ((due firm).trans (foretells.dueAfter firm (isKind ▸ repeats) _)), ?_⟩
  have ropeLength : rope.element.textLength = totalLength entries + base.textLength := by
    rw [← Element.textLength_bare, ropeIs]
    rfl
  obtain ⟨_, _, _, ending⟩ := faces.fits.follows.popped faces.fits.sound (taken [])
  have finalStop := finalFaces.fits.stop_eq
  rw [finalStack] at finalStop
  rw [List.append_nil, faces.fits.stop_eq] at ending
  rw [← finalStop, ending]
  change rest.stop + rope.element.textLength = _
  rw [ropeLength, Nat.add_assoc]

/-- Repetitions in a row that are told one by one in a state, each joined as soon as it is complete, from the
token that is ahead of the first of them to the one after the last. -/
inductive Job.Strings (job : Job) (kind : KindId) (state : StateId) (stop : Nat) :
    Nat → List Green.Node → Green.Token → Green.Token → Prop
  | nil {offset : Nat} {last : Green.Token} : Strings job kind state stop offset [] last last
  | cons {offset : Nat} {base : Green.Node} {rest : List Green.Node} {joint : StateId} {next : LexedToken}
      {after last : Green.Token} : job.Foretells offset base joint next → base.kind = kind → 0 < base.height →
      base.info.preState = state → job.table.JoinsOn joint next.kind →
      offset + base.textLength + base.info.lookahead ≤ stop → next.bare = after.bare →
      Strings job kind state stop (offset + base.textLength) rest after last →
      Strings job kind state stop offset (base :: rest) (before after base.element.tokens) last

namespace Job.Strings

variable {job : Job} {kind : KindId} {state : StateId} {stop offset : Nat} {bases : List Green.Node}
  {ahead last : Green.Token}

theorem ahead_eq (strings : job.Strings kind state stop offset bases ahead last) :
    ahead.bare = (before last (bases.flatMap (·.element.tokens))).bare := by
  induction strings with
  | nil => rfl
  | cons _ _ _ _ _ _ _ _ ih =>
      rw [List.flatMap_cons, before_append]
      exact before_alike ih rfl

/-- Repetitions in a row are built one after the other, and each is joined to what is below them. -/
theorem builds {items : StateId → Lalr.Item → Prop} (chart : job.table.Chart items) (sound : job.Sound)
    (repeats : job.table.isRepeat kind = true) (strings : job.Strings kind state stop offset bases ahead last)
    (some_ : bases ≠ []) :
    ∀ {other : Job} {machine : Machine} {entries : List StackEntry} {rest : ParseStack},
    other.language = job.language → other.Reports → machine.stack.state = state →
    (∀ taken, ParseStack.popEntries 1 taken machine.stack = .ok (entries ++ taken, rest)) →
    other.table.goto rest.state kind = some state → machine.Faces other ahead →
    machine.stack.Opens other.table ahead.kind → Cursor.Agree job.text other.text offset machine.position stop →
    ∃ (final : Machine) (rope : Green.Node), Relation.ReflTransGen (Machine.Advances other) machine final ∧
      final.stack = rest.push state rope.element ∧
      rope.element.bare = .node (.bare kind (totalLength entries + lengthOfNodes bases) 1)
        (seen other.table (entries.map StackEntry.bare) ++ strands bases) ∧
      final.Faces other last ∧ (other.table.Firm → ∀ base, bases.getLast? = some base →
        final.dueMode other.table = base.info.nextLexMode) := by
  induction strings with
  | nil => exact absurd rfl some_
  | @cons offset base more joint next after last foretells isKind positive begun joins within nextIs strings ih =>
      intro other machine entries rest language reports stands taken goes faces opens agree
      obtain ⟨joined, rope, advances, joinedStack, ropeIs, joinedFaces, joinedDue, place⟩ := foretells.joined chart
        sound isKind positive begun joins within nextIs repeats language reports stands taken goes faces opens agree
      cases more with
      | nil =>
          cases strings
          refine ⟨joined, rope, advances, joinedStack, ?_, joinedFaces, fun firm other same => ?_⟩
          · rw [ropeIs, lengthOfNodes_cons]
            rfl
          · cases same
            exact joinedDue firm
      | cons second others =>
          have top : ∀ others, ParseStack.popEntries 1 others joined.stack =
              .ok ([⟨state, rope.element, false, rest.stop⟩] ++ others, rest) := by
            rw [joinedStack]
            exact ParseStack.popEntries_single rfl rest
          have clear : joined.stack.Clear := by
            rw [joinedStack]
            exact ParseStack.clear_cons rfl rest
          obtain ⟨final, whole, more, finalStack, wholeBare, finalFaces, finalDue⟩ := ih (List.cons_ne_nil _ _)
            language reports (by rw [joinedStack]; rfl) top goes joinedFaces (Or.inl clear)
            (by rw [place]; exact agree.advance _)
          refine ⟨final, whole, advances.trans more, finalStack, ?_, finalFaces,
            fun firm other same => finalDue firm other (by rw [← same, List.getLast?_cons_cons])⟩
          have ropeLength : rope.element.textLength = totalLength entries + base.textLength := by
            rw [← Element.textLength_bare, ropeIs]
            rfl
          have shown : seen other.table ([⟨state, rope.element, false, rest.stop⟩].map StackEntry.bare) =
              seen other.table (entries.map StackEntry.bare) ++ strands [base] := seen_rope other.table ropeIs
          have both : strands (base :: second :: others) = strands [base] ++ strands (second :: others) :=
            strands_append [base] (second :: others)
          rw [wholeBare, totalLength_cons, totalLength_nil, Nat.add_zero, ropeLength, Nat.add_assoc,
            ← lengthOfNodes_cons, both, ← List.append_assoc]
          exact congrArg (fun children => Element.node _ (children ++ strands (second :: others))) shown

theorem retells_rope {items : StateId → Lalr.Item → Prop} (chart : job.table.Chart items) (sound : job.Sound)
    (repeats : job.table.isRepeat kind = true) {first rope : Green.Node} {next : LexedToken}
    (strings : job.Strings kind state stop (offset + first.textLength) bases ahead last)
    (isRope : rope.IsRope job.table) (isKind : rope.kind = kind) (shape : ropeBases rope.element = first :: bases)
    (some_ : bases ≠ []) (foretells : job.Foretells offset first state next) (firstKind : first.kind = kind)
    (begun : first.info.preState = rope.info.preState) (positive : 0 < first.height)
    (within : offset + first.textLength + first.info.lookahead ≤ stop)
    (goes : job.table.goto rope.info.preState kind = some state) (link : next.bare = ahead.bare)
    (mode : ∀ base, bases.getLast? = some base → base.info.nextLexMode = rope.info.nextLexMode) :
    job.Retells last [⟨state, rope.element, false, 0⟩] rope.info.preState offset stop := by
  intro other machine language reports stands faces opens agree
  obtain ⟨ownLanguage, text, maxSkipped, stepLimit⟩ := other
  cases language
  have soundToo : Job.Sound ⟨job.language, text, maxSkipped, stepLimit⟩ := sound
  have own : Job.language ⟨job.language, text, maxSkipped, stepLimit⟩ = job.language := rfl
  have tokensEq := isRope.tokens_eq
  rw [shape, List.flatMap_cons] at tokensEq
  have aheadFirst : (before last (ParseStack.tokens [⟨state, rope.element, false, 0⟩])).bare =
      (before (next.toGreen 0) (ParseStack.tokens [⟨state, first.element, false, 0⟩])).bare := by
    simp only [ParseStack.tokens_cons, ParseStack.tokens_nil, List.nil_append]
    rw [tokensEq, before_append]
    exact before_alike (link.trans strings.ahead_eq).symm rfl
  have aheadKind : (before last (ParseStack.tokens [⟨state, rope.element, false, 0⟩])).kind =
      (before (next.toGreen 0) (ParseStack.tokens [⟨state, first.element, false, 0⟩])).kind :=
    (congrArg Green.Token.kind aheadFirst : (before _ _).bare.kind = _)
  obtain ⟨middle, copy, steps, stack, alike, facing, _⟩ := foretells.retells_rope positive within
    ⟨job.language, text, maxSkipped, stepLimit⟩ machine rfl reports (stands.trans begun.symm)
    (faces.alike aheadFirst) (aheadKind ▸ opens) agree
  obtain ⟨entry, rfl, entryState, entryPlain, entryBare, _, entryLength⟩ := ParseStack.single_of_bare alike
  have clear : middle.stack.Clear := by
    rw [stack]
    exact ParseStack.clear_cons entryPlain machine.stack
  have top : ∀ taken, ParseStack.popEntries 1 taken middle.stack = .ok ([entry] ++ taken, machine.stack) := by
    rw [stack]
    exact ParseStack.popEntries_single entryPlain machine.stack
  have place : middle.position = machine.position + first.textLength := by
    have ending := facing.fits.stop_eq
    rw [stack] at ending
    have follows := facing.fits.follows
    rw [stack] at follows
    rw [← ending, follows.stop_append [entry] machine.stack, faces.fits.stop_eq, totalLength_cons, entryLength]
    rfl
  obtain ⟨final, whole, more, finalStack, wholeBare, finalFaces, due⟩ := strings.builds chart sound repeats some_
    own reports (by rw [stack]; exact entryState) top (by rw [stands]; exact goes) (facing.alike link)
    (Or.inl clear) (by rw [place]; exact agree.advance _)
  have same : whole.element.bare = rope.element.bare := by
    rw [wholeBare, totalLength_cons, totalLength_nil, Nat.add_zero, entryLength, isRope.bare_eq, shape, isKind,
      lengthOfNodes_cons first, show strands (first :: bases) = strands [first] ++ strands bases from
        strands_append [first] bases]
    exact congrArg (fun children => Element.node _ (children ++ strands bases)) (seen_base job.table positive entryBare)
  refine ⟨final, [⟨state, whole.element, false, machine.stack.stop⟩], steps.trans more, finalStack, ?_, finalFaces,
    fun firm => ?_⟩
  · simp [ParseStack.bare, StackEntry.bare, same]
  · obtain ⟨base, isLast⟩ := Option.ne_none_iff_exists'.mp (mt List.getLast?_eq_none_iff.mp some_)
    have filled : rope.element.tokens ≠ [] := by
      intro empty
      rw [tokensEq] at empty
      exact firm first.kind (firstKind ▸ repeats) (foretells.blank (List.append_eq_nil_iff.mp empty).1)
    rw [due firm base isLast, mode base isLast, ParseStack.dueAfter_of_ne_nil filled]
    rfl

end Job.Strings

/-! ### Strung repetitions -/

def Job.Holds (job : Job) (offset : Nat) (node : Green.Node) : Prop :=
  node.Intact → ∃ target next, job.Foretells offset node target next

def Job.Links (job : Job) (left right : Nat × Green.Node) : Prop :=
  ∀ target other next after, left.2.Intact → right.2.Intact → job.Foretells left.1 left.2 target next →
    job.Foretells right.1 right.2 other after →
    next.bare = (before (after.toGreen 0) right.2.element.tokens).bare

def Job.Joins (job : Job) (state : StateId) (place : Nat × Green.Node) : Prop :=
  place.2.Intact → place.2.info.preState = state ∧ ∀ joint next, job.Foretells place.1 place.2 joint next →
    job.table.JoinsOn joint next.kind

/-- A state to which two repetitions of a kind lead. -/
def Table.Joint (table : Table) (kind : KindId) (joint : StateId) : Prop :=
  ∃ below state, table.goto below kind = some state ∧ table.goto state kind = some joint

/-- What is known of repetitions in a row, each of which but the first was begun in a state. Their row may go
on, or begin with any of them. -/
structure Job.Strung (job : Job) (kind : KindId) (state : StateId) (offset : Nat) (bases : List Green.Node) :
    Prop where
  kinds : ∀ base, base ∈ bases → base.kind = kind ∧ 0 < base.height
  held : ∀ place, place ∈ placed offset bases → job.Holds place.1 place.2
  linked : (placed offset bases).IsChain job.Links
  joins : ∀ place, place ∈ (placed offset bases).tail → job.Joins state place
  apart : 1 < bases.length → ¬ job.table.Joint kind state

namespace Job.Strung

variable {job : Job} {kind : KindId} {state : StateId} {offset : Nat}

theorem left {lefts rights : List Green.Node} (strung : job.Strung kind state offset (lefts ++ rights)) :
    job.Strung kind state offset lefts where
  kinds := fun base member => strung.kinds base (List.mem_append_left _ member)
  held := fun place member => strung.held place (by rw [placed_append]; exact List.mem_append_left _ member)
  linked := by
    have linked := strung.linked
    rw [placed_append] at linked
    exact linked.left_of_append
  joins := by
    intro place member
    refine strung.joins place ?_
    rw [placed_append]
    cases lefts with
    | nil => exact absurd member List.not_mem_nil
    | cons first rest => exact List.mem_append_left _ member
  apart := fun long => strung.apart (by rw [List.length_append]; omega)

theorem right {lefts rights : List Green.Node} (strung : job.Strung kind state offset (lefts ++ rights)) :
    job.Strung kind state (offset + lengthOfNodes lefts) rights where
  kinds := fun base member => strung.kinds base (List.mem_append_right _ member)
  held := fun place member => strung.held place (by rw [placed_append]; exact List.mem_append_right _ member)
  linked := by
    have linked := strung.linked
    rw [placed_append] at linked
    exact linked.right_of_append
  joins := by
    intro place member
    refine strung.joins place ?_
    rw [placed_append]
    cases lefts with
    | nil => exact member
    | cons first rest => exact List.mem_append_right _ (List.mem_of_mem_tail member)
  apart := fun long => strung.apart (by rw [List.length_append]; omega)

theorem joins_right {lefts rights : List Green.Node} (strung : job.Strung kind state offset (lefts ++ rights))
    (some_ : lefts ≠ []) : ∀ place, place ∈ placed (offset + lengthOfNodes lefts) rights → job.Joins state place := by
  intro place member
  refine strung.joins place ?_
  rw [placed_append]
  cases lefts with
  | nil => exact absurd rfl some_
  | cons first rest => exact List.mem_append_right _ member

theorem strings {stop : Nat} : ∀ {rest : List Green.Node} {offset : Nat} {base : Green.Node},
    job.Strung kind state offset (base :: rest) →
    (∀ place, place ∈ placed offset (base :: rest) → job.Joins state place ∧ place.2.Intact ∧
      place.1 + place.2.textLength + place.2.info.lookahead ≤ stop) →
    ∃ joint next after last final, job.Foretells offset base joint next ∧ next.bare = Green.Token.bare after ∧
      job.Strings kind state stop offset (base :: rest) (before after base.element.tokens) last ∧
      job.lex (offset + lengthOfNodes (base :: rest))
        ((base :: rest).getLast (List.cons_ne_nil _ _)).info.nextLexMode = .ok final ∧
      last.bare = final.bare ∧ final.examinedEnd ≤ stop
  | [], offset, base, strung, each => by
      obtain ⟨joins, intact, within⟩ := each (offset, base) List.mem_cons_self
      obtain ⟨joint, next, foretells⟩ := strung.held (offset, base) List.mem_cons_self intact
      obtain ⟨isKind, positive⟩ := strung.kinds base List.mem_cons_self
      obtain ⟨begun, joinsOn⟩ := joins intact
      refine ⟨joint, next, next.toGreen 0, next.toGreen 0, next, foretells, rfl, ?_, ?_, rfl,
        Nat.le_trans foretells.within within⟩
      · exact .cons foretells isKind positive begun (joinsOn joint next foretells) within rfl .nil
      · rw [lengthOfNodes_cons]
        exact foretells.lexed
  | second :: rest, offset, base, strung, each => by
      obtain ⟨joins, intact, within⟩ := each (offset, base) List.mem_cons_self
      obtain ⟨joint, next, foretells⟩ := strung.held (offset, base) List.mem_cons_self intact
      obtain ⟨isKind, positive⟩ := strung.kinds base List.mem_cons_self
      obtain ⟨begun, joinsOn⟩ := joins intact
      have alone : lengthOfNodes [base] = base.textLength := by simp [lengthOfNodes]
      have later : job.Strung kind state (offset + base.textLength) (second :: rest) := by
        have right := @right job kind state offset [base] (second :: rest) strung
        rwa [alone] at right
      obtain ⟨other, following, after, last, final, foretellsNext, seen, strings, lexed, lastIs, inside⟩ :=
        later.strings fun place member => each place (List.mem_cons_of_mem _ member)
      have linked : job.Links (offset, base) (offset + base.textLength, second) := strung.linked.rel
      have link := linked joint other next following intact
        (each _ (List.mem_cons_of_mem _ List.mem_cons_self)).2.1 foretells foretellsNext
      have ahead : next.bare = (before after second.element.tokens).bare :=
        link.trans (before_alike seen rfl)
      refine ⟨joint, next, before after second.element.tokens, last, final, foretells, ahead, ?_, ?_, lastIs, inside⟩
      · exact .cons foretells isKind positive begun (joinsOn joint next foretells) within ahead strings
      · rw [lengthOfNodes_cons, ← Nat.add_assoc, List.getLast_cons (List.cons_ne_nil _ _)]
        exact lexed

theorem foretells {items : StateId → Lalr.Item → Prop} (chart : job.table.Chart items) (sound : job.Sound)
    (repeats : job.table.isRepeat kind = true) {rope : Green.Node} (isRope : rope.IsRope job.table)
    (tells : Rope.TellsOf (ropeBases rope.element) rope) (isKind : rope.kind = kind)
    (strung : job.Strung kind state offset (ropeBases rope.element))
    (goes : job.table.goto rope.info.preState kind = some state) (intact : rope.Intact) :
    ∃ next, job.Foretells offset rope state next := by
  by_cases low : rope.height ≤ 1
  · have bases := ropeBases_base low
    rw [bases] at strung
    obtain ⟨target, next, foretells⟩ := strung.held (offset, rope) List.mem_cons_self intact
    have reached := foretells.goes
    rw [isKind] at reached
    cases goes.symm.trans reached
    exact ⟨next, foretells⟩
  · obtain ⟨first, second, rest, bases⟩ := isRope.bases_of_high (Nat.lt_of_not_le low)
    have length := isRope.textLength_eq
    rw [bases] at strung tells length
    have begun : first.info.preState = rope.info.preState := Option.some.inj tells.preState
    have modes := tells.nextLexMode
    rw [List.getLast?_eq_some_getLast (List.cons_ne_nil _ _), List.getLast_cons (List.cons_ne_nil _ _)] at modes
    have intactBases := tells.intact intact
    obtain ⟨target, next, foretells⟩ := strung.held (offset, first) List.mem_cons_self
      (intactBases first List.mem_cons_self)
    obtain ⟨firstKind, positive⟩ := strung.kinds first List.mem_cons_self
    have reached := foretells.goes
    rw [begun, firstKind] at reached
    cases goes.symm.trans reached
    have alone : lengthOfNodes [first] = first.textLength := by simp [lengthOfNodes]
    have later : job.Strung kind state (offset + first.textLength) (second :: rest) := by
      have right := @right job kind state offset [first] (second :: rest) strung
      rwa [alone] at right
    have within : ∀ place, place ∈ placed offset (first :: second :: rest) →
        place.1 + place.2.textLength + place.2.info.lookahead ≤ offset + rope.textLength + rope.info.lookahead :=
      fun _ member => tells.within member
    obtain ⟨joint, following, after, ahead, final, foretellsNext, nextSeen, strings, lexed, aheadIs, inside⟩ :=
      later.strings fun place member =>
        ⟨strung.joins place member, intactBases _ (List.mem_cons_of_mem _ (exists_mem_placed member)),
          within place (List.mem_cons_of_mem _ member)⟩
    have linked : job.Links (offset, first) (offset + first.textLength, second) := strung.linked.rel
    have link : next.bare = (before after second.element.tokens).bare :=
      (linked state joint next following (intactBases first List.mem_cons_self)
        (intactBases second (List.mem_cons_of_mem _ List.mem_cons_self)) foretells foretellsNext).trans
        (before_alike nextSeen rfl)
    refine ⟨final, ?_, inside, isKind.symm ▸ goes, fun empty => ?_, fun stop bounded _ => ?_⟩
    · rw [length, lengthOfNodes_cons, ← Option.some.inj modes, ← Nat.add_assoc]
      exact lexed
    · rw [isRope.tokens_eq, bases, List.flatMap_cons] at empty
      rw [isKind, ← firstKind]
      exact foretells.blank (List.append_eq_nil_iff.mp empty).1
    · rw [spliced_rope isRope.height_pos] at bounded
      have retells := strings.retells_rope chart sound repeats isRope isKind bases (List.cons_ne_nil _ _) foretells
        firstKind begun positive (within _ List.mem_cons_self) goes link fun base last => by
          rw [List.getLast?_eq_some_getLast (List.cons_ne_nil _ _)] at last
          rw [← Option.some.inj last]
          exact Option.some.inj modes
      exact (retells.alike aheadIs.symm).mono bounded.1

end Job.Strung

end IncrementalParsing
