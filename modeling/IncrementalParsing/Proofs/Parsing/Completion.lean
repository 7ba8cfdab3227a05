import IncrementalParsing.Proofs.Parsing.Foresight

/-!
Completing a node on a stack that is known. The node of a production is told again by telling the entries that it
takes the place of, and deciding on the same token. Two ropes that are joined stand in one row, since the second
one was begun in the state that the first one has led to, and is joined on the token that completed it.
-/

namespace IncrementalParsing

open Green

/-! ### Fragile children -/

section Fragile

variable {table : Table}

theorem not_fragile_spliced (field : Option FieldId) {element : Element} (sound : element.Sound table)
    (solid : element.isFragile = false) :
    (spliced table field element).any (fun child => child.element.isFragile) = false := by
  cases element with
  | token leaf => rfl
  | node head children =>
      unfold spliced
      dsimp only
      split
      · obtain ⟨origin, same⟩ : (Node.mk head children).IsMade := sound.here.1
        have fragile := congrArg (fun node : Node => node.info.fragile) same
        change head.info.fragile = (origin.fragile || children.any (fun child => child.element.isFragile)) at fragile
        change head.info.fragile = false at solid
        rw [solid] at fragile
        rw [List.any_map]
        exact (Bool.or_eq_false_iff.mp fragile.symm).2
      · simpa using solid

theorem not_fragile_productionChildren : ∀ (fields : List (Option FieldId)) (entries : List StackEntry),
    ParseStack.Sound table entries → (∀ entry, entry ∈ entries → entry.element.isFragile = false) →
    (productionChildren table fields entries).any (fun child => child.element.isFragile) = false
  | _, [], _, _ => rfl
  | fields, entry :: rest, sound, solid => by
      have here := fun field => not_fragile_spliced field (sound entry List.mem_cons_self)
        (solid entry List.mem_cons_self)
      have later := fun fields => not_fragile_productionChildren fields rest sound.tail
        fun other member => solid other (List.mem_cons_of_mem _ member)
      rw [productionChildren]
      split
      · rw [List.any_append, here, later]
        rfl
      · rw [List.any_append, here, later]
        rfl

theorem Green.Node.IsMade.within_of_spliced {node : Node} (made : node.IsMade) {stop offset : Nat}
    (within : Within stop offset (spliced table none node.element)) : Within stop offset node.children := by
  unfold spliced Node.element at within
  dsimp only at within
  split at within
  · exact (within_relabel (fun child => child.field.or none)).mp within
  · exact (made.within offset).mono within.1

end Fragile

/-! ### How a node is built -/

theorem buildNode_cases {table : Table} {serial : Nat} {production : ProductionInfo} {entries : List StackEntry}
    {origin : Origin} {node : Node} (ordinary : origin.ropeHeight = 0)
    (built : buildNode table serial production entries origin = .ok node) :
    (∃ serial height, node = .make serial production.lhs (productionChildren table production.fields entries)
        { origin with ropeHeight := height } ∧ height ≤ 1 ∧ (height = 0 ↔ production.kind = .plain) ∧
        (production.kind = .repeatJoin → origin.fragile = true ∨ ropePair? entries = none)) ∨
      production.kind = .repeatJoin ∧ origin.fragile = false ∧ ∃ left right,
        ropePair? entries = some (left, right) ∧ Rope.join production.lhs left right = .ok node := by
  have same : { origin with ropeHeight := 0 } = origin := by rw [← ordinary]
  unfold buildNode at built
  dsimp only at built
  split at built
  · rename_i plain
    cases built
    refine Or.inl ⟨serial, 0, by rw [same], Nat.zero_le 1, by simp [plain], fun joins => ?_⟩
    cases plain.symm.trans joins
  · rename_i base
    cases built
    refine Or.inl ⟨0, 1, rfl, Nat.le_refl 1, by simp [base], fun joins => ?_⟩
    cases base.symm.trans joins
  · rename_i joins
    by_cases fragile : origin.fragile = true
    · rw [fragile, if_pos rfl] at built
      cases built
      exact Or.inl ⟨0, 1, rfl, Nat.le_refl 1, by simp [joins], fun _ => Or.inl fragile⟩
    · have solid := Bool.eq_false_iff.mpr fragile
      rw [solid, if_neg Bool.false_ne_true] at built
      cases pair : ropePair? entries with
      | none =>
          rw [pair] at built
          cases built
          exact Or.inl ⟨0, 1, rfl, Nat.le_refl 1, by simp [joins], fun _ => Or.inr rfl⟩
      | some halves =>
          rw [pair] at built
          exact Or.inr ⟨joins, solid, halves.1, halves.2, rfl, built⟩

/-- Two ropes and nothing else are the halves of a join. -/
theorem exists_ropePair {entries : List StackEntry} {kind : KindId}
    (kinds : entries.map (·.element.kind) = [kind, kind])
    (ropes : ∀ entry, entry ∈ entries → ∃ rope : Node, entry.element = rope.element ∧ 0 < rope.height) :
    ∃ left right, ropePair? entries = some (left, right) := by
  obtain ⟨lower, rest, rfl, _, others⟩ := List.map_eq_cons_iff.mp kinds
  obtain ⟨upper, last, rfl, _, none⟩ := List.map_eq_cons_iff.mp others
  obtain rfl := List.map_eq_nil_iff.mp none
  obtain ⟨left, leftIs, leftPos⟩ := ropes lower List.mem_cons_self
  obtain ⟨right, rightIs, rightPos⟩ := ropes upper (List.mem_cons_of_mem _ List.mem_cons_self)
  have leftRope : left.element.isRope = true := bne_iff_ne.mpr (Nat.ne_of_gt leftPos)
  have rightRope : right.element.isRope = true := bne_iff_ne.mpr (Nat.ne_of_gt rightPos)
  refine ⟨left, right, ?_⟩
  simp only [ropePair?, leftIs, rightIs, leftRope, rightRope, Bool.and_self, if_true]
  rfl

/-! ### Rows of repetitions -/

namespace Job

variable {job : Job} {kind : KindId} {state : StateId} {offset : Nat}

theorem Strung.single {node : Node} (positive : 0 < node.height) (holds : job.Holds offset node)
    (state : StateId) : job.Strung node.kind state offset [node] where
  kinds := by
    intro base member
    cases List.mem_singleton.mp member
    exact ⟨rfl, positive⟩
  held := by
    intro place member
    cases List.mem_singleton.mp member
    exact holds
  linked := .singleton _
  joins := fun _ none => absurd none List.not_mem_nil
  apart := fun long => absurd long (Nat.lt_irrefl 1)

theorem Strung.after_eq {final : Green.Token} : ∀ {rest : List Node} {offset : Nat} {first : Node} {target : StateId}
    {after : LexedToken}, job.Strung kind state offset (first :: rest) →
    (∀ base, base ∈ first :: rest → base.Intact) → job.Foretells offset first target after →
    (∀ token, job.lex (offset + lengthOfNodes (first :: rest))
      ((first :: rest).getLast (List.cons_ne_nil _ _)).info.nextLexMode = .ok token → token.bare = final.bare) →
    after.bare = (before final (rest.flatMap (·.element.tokens))).bare
  | [], offset, first, target, after, _, _, foretells, last => by
      have alone : lengthOfNodes [first] = first.textLength := by simp [lengthOfNodes]
      refine last after ?_
      rw [alone]
      exact foretells.lexed
  | second :: others, offset, first, target, after, strung, intact, foretells, last => by
      have alone : lengthOfNodes [first] = first.textLength := by simp [lengthOfNodes]
      have later : job.Strung kind state (offset + first.textLength) (second :: others) := by
        have right := @Strung.right job kind state offset [first] (second :: others) strung
        rwa [alone] at right
      obtain ⟨joint, next, foretellsNext⟩ := later.held (offset + first.textLength, second) List.mem_cons_self
        (intact second (List.mem_cons_of_mem _ List.mem_cons_self))
      have linked : job.Links (offset, first) (offset + first.textLength, second) := strung.linked.rel
      have link := linked target joint after next (intact first List.mem_cons_self)
        (intact second (List.mem_cons_of_mem _ List.mem_cons_self)) foretells foretellsNext
      have nextIs : next.bare = (before final (others.flatMap (·.element.tokens))).bare := by
        refine later.after_eq (fun base member => intact base (List.mem_cons_of_mem _ member)) foretellsNext ?_
        intro token lexed
        refine last token ?_
        rw [lengthOfNodes_cons, ← Nat.add_assoc, List.getLast_cons (List.cons_ne_nil _ _)]
        exact lexed
      rw [List.flatMap_cons, before_append]
      exact link.trans (before_alike nextIs rfl)

/-- Two rows follow one another if the repetitions of the second one are joined like those of the first. -/
theorem Strung.join {lefts rights : List Node} (left : job.Strung kind state offset lefts)
    (right : job.Strung kind state (offset + lengthOfNodes lefts) rights)
    (joins : ∀ first, rights.head? = some first → job.Joins state (offset + lengthOfNodes lefts, first))
    (links : ∀ last, last ∈ (placed offset lefts).getLast? →
      ∀ first, first ∈ (placed (offset + lengthOfNodes lefts) rights).head? → job.Links last first)
    (apart : ¬ job.table.Joint kind state) : job.Strung kind state offset (lefts ++ rights) where
  kinds := fun base member => (List.mem_append.mp member).elim (left.kinds base) (right.kinds base)
  held := by
    rw [placed_append]
    exact fun place member => (List.mem_append.mp member).elim (left.held place) (right.held place)
  linked := by
    rw [placed_append]
    exact left.linked.append right.linked links
  joins := by
    intro place member
    have joinsRight : ∀ place, place ∈ placed (offset + lengthOfNodes lefts) rights → job.Joins state place := by
      cases rights with
      | nil => exact fun _ none => absurd none List.not_mem_nil
      | cons first rest =>
          intro place member
          rcases List.mem_cons.mp member with rfl | later
          · exact joins first rfl
          · exact right.joins place later
    rw [placed_append] at member
    cases lefts with
    | nil => exact joinsRight place (List.mem_of_mem_tail member)
    | cons first rest =>
        rcases List.mem_append.mp member with before | after
        · exact left.joins place before
        · exact joinsRight place after
  apart := fun _ => apart

end Job

theorem Green.getLast?_placed : ∀ {nodes : List Node} {offset : Nat} {place : Nat × Node},
    place ∈ (placed offset nodes).getLast? →
    nodes.getLast? = some place.2 ∧ place.1 + place.2.textLength = offset + lengthOfNodes nodes
  | [], _, _, found => by cases found
  | [node], offset, place, last => by
      have same : (offset, node) = place := Option.some.inj last
      subst same
      exact ⟨rfl, by simp [lengthOfNodes]⟩
  | node :: second :: rest, offset, place, last => by
      have later : place ∈ (placed (offset + node.textLength) (second :: rest)).getLast? := last
      obtain ⟨found, ending⟩ := getLast?_placed later
      refine ⟨by rw [List.getLast?_cons_cons]; exact found, ?_⟩
      rw [ending, lengthOfNodes_cons node, Nat.add_assoc]

section Ropes

variable {job : Job} {entry : StackEntry} {below : ParseStack} {rope : Node}

theorem StackEntry.Known.tells (sound : job.Sound) (known : entry.Known job below)
    (isRope : entry.element = rope.element)
    (positive : 0 < rope.height) : Rope.TellsOf (ropeBases rope.element) rope := by
  have recalls := known.recalls
  rw [isRope] at recalls
  obtain ⟨accounts, _⟩ := Job.recalls_node.mp recalls
  have numbered : job.table.Numbered := sound.table
  exact (accounts.paired positive).tells (numbered.ne_error_of_repeat (accounts.repeats.mpr positive))

variable (known : entry.Known job below) (rests : entry.RestsOn job.table below) (plain : entry.extra = false)
  (isRope : entry.element = rope.element) (positive : 0 < rope.height)

include known rests plain isRope positive

theorem StackEntry.Known.goes : job.table.goto below.state rope.kind = some entry.state := by
  have recalls := known.recalls
  have pushed := rests.pushed plain
  rw [isRope] at recalls pushed
  obtain ⟨accounts, _⟩ := Job.recalls_node.mp recalls
  exact Table.goto_of_successor (Table.Numbered.not_isTerminal_of_repeat (accounts.repeats.mpr positive)) pushed

theorem StackEntry.Known.strung (apart : job.table.Apart entry.state) :
    job.Strung rope.kind entry.state entry.offset (ropeBases rope.element) := by
  have goes := known.goes rests plain isRope positive
  have recalls := known.recalls
  rw [isRope] at recalls
  obtain ⟨accounts, _⟩ := Job.recalls_node.mp recalls
  rcases known.lined plain rope isRope positive with strung | loose
  · rw [isRope] at strung
    exact strung
  · obtain ⟨under, led⟩ := loose.led
    rw [isRope] at led
    exact absurd ⟨under, below.state, led, goes⟩ (apart rope.kind (accounts.repeats.mpr positive))

theorem StackEntry.Known.loose (elementSound : entry.element.Sound job.table)
    (led : ∃ under, job.table.goto under rope.kind = some below.state)
    {ahead : Green.Token} (lexes : job.Lexes entry.stop (entry.modeAfter job.table) ahead)
    (joinsOn : job.table.JoinsOn entry.state ahead.kind) :
    job.Strung rope.kind below.state entry.offset (ropeBases rope.element) ∧
      (∀ first, (ropeBases rope.element).head? = some first → job.Joins below.state (entry.offset, first)) ∧
      (∀ first, (ropeBases rope.element).head? = some first → first.Intact → entry.element.hasError = false) := by
  have goes := known.goes rests plain isRope positive
  obtain ⟨under, leads⟩ := led
  rcases known.lined plain rope isRope positive with strung | loose
  · rw [isRope] at strung
    have low : (ropeBases rope.element).length ≤ 1 := by
      by_contra long
      exact strung.apart (by omega) ⟨under, below.state, leads, goes⟩
    have held := strung.held
    have own : rope.height ≤ 1 := by
      by_contra high
      have whole : rope.IsRope job.table := ⟨isRope ▸ elementSound, positive⟩
      obtain ⟨left, right, halved⟩ := whole.split (by omega)
      obtain ⟨leftRope, rightRope⟩ := halved.ropes whole
      have length := congrArg List.length halved.bases_eq
      have lefts := List.length_pos_of_ne_nil leftRope.bases_ne_nil
      have rights := List.length_pos_of_ne_nil rightRope.bases_ne_nil
      rw [List.length_append] at length
      omega
    rw [ropeBases_base own] at held ⊢
    have holds := held (entry.offset, rope) List.mem_cons_self
    refine ⟨Job.Strung.single positive holds below.state, ?_, ?_⟩
    · intro first head intact
      cases head
      refine ⟨known.begun plain rope isRope, fun joint next foretells => ?_⟩
      have reached := foretells.goes
      rw [known.begun plain rope isRope] at reached
      cases goes.symm.trans reached
      obtain ⟨token, lexed, seen, _⟩ := lexes
      unfold StackEntry.stop StackEntry.modeAfter at lexed
      rw [isRope] at lexed
      cases foretells.lexed.symm.trans lexed
      rw [(LexedToken.bare_eq_iff.mp seen).1]
      exact joinsOn
    · intro first head intact
      cases head
      rw [isRope]
      exact intact.1
  · have strung := loose.strung
    rw [isRope] at strung
    exact ⟨strung, loose.joins, fun _ _ _ => loose.clean⟩

end Ropes

theorem StackEntry.lexed_last {job : Job} {entry : StackEntry} {rope last : Node}
    (isRope : entry.element = rope.element) (tells : Rope.TellsOf (ropeBases rope.element) rope)
    (whole : rope.IsRope job.table) (lastIs : (ropeBases rope.element).getLast? = some last) :
    entry.stop = entry.offset + lengthOfNodes (ropeBases rope.element) ∧
      entry.modeAfter job.table = last.info.nextLexMode := by
  have modes := tells.nextLexMode
  rw [lastIs] at modes
  constructor
  · rw [StackEntry.stop, isRope, ← whole.textLength_eq]
    rfl
  · rw [StackEntry.modeAfter, isRope]
    exact (Option.some.inj modes).symm

theorem ParseStack.Known.row {job : Job} (sound : job.Sound) {upper lower : StackEntry} {below : ParseStack}
    (known : Known job (upper :: lower :: below)) (follows : Follows job.table (upper :: lower :: below))
    (stackSound : Sound job.table (upper :: lower :: below)) (plainUpper : upper.extra = false)
    (plainLower : lower.extra = false) {left right : Node} (leftIs : lower.element = left.element)
    (rightIs : upper.element = right.element) (leftPos : 0 < left.height) (rightPos : 0 < right.height)
    (kinds : right.kind = left.kind) {ahead : Green.Token} (expects : Expects job ahead (upper :: lower :: below))
    (joinsOn : job.table.JoinsOn upper.state ahead.kind) :
    job.Strung left.kind lower.state lower.offset (ropeBases left.element ++ ropeBases right.element) := by
  have upperKnown := known.here
  have lowerKnown := known.tail.here
  have apart := upperKnown.apart plainUpper
  have upperSound : upper.element.Sound job.table := stackSound upper List.mem_cons_self
  have lowerSound : lower.element.Sound job.table := stackSound lower (List.mem_cons_of_mem _ List.mem_cons_self)
  have goes := lowerKnown.goes follows.tail.rests plainLower leftIs leftPos
  have leftRope : left.IsRope job.table := ⟨leftIs ▸ lowerSound, leftPos⟩
  have rightRope : right.IsRope job.table := ⟨rightIs ▸ upperSound, rightPos⟩
  have leftTells := lowerKnown.tells sound leftIs leftPos
  have rightTells := upperKnown.tells sound rightIs rightPos
  have leftRow := lowerKnown.strung follows.tail.rests plainLower leftIs leftPos apart
  obtain ⟨lexes, deeper⟩ := expects plainUpper
  obtain ⟨rightRow, joins, clean⟩ := upperKnown.loose follows.rests plainUpper rightIs rightPos upperSound
    ⟨below.state, by rw [kinds]; exact goes⟩ lexes joinsOn
  obtain ⟨rearmost, lastIn⟩ := Option.ne_none_iff_exists'.mp
    (mt List.getLast?_eq_none_iff.mp leftRope.bases_ne_nil)
  obtain ⟨lowerStop, lowerMode⟩ := StackEntry.lexed_last leftIs leftTells leftRope lastIn
  have place : upper.offset = lower.offset + lengthOfNodes (ropeBases left.element) :=
    follows.rests.offset_eq.trans lowerStop
  have repeats : job.table.isRepeat left.kind = true := by
    have recalls := lowerKnown.recalls
    rw [leftIs] at recalls
    exact (Job.recalls_node.mp recalls).1.repeats.mpr leftPos
  rw [kinds, place] at rightRow
  rw [place] at joins
  refine leftRow.join rightRow joins ?_ (apart left.kind repeats)
  intro last lastIs first firstIs target joint next after lastIntact firstIntact foretells foretellsFirst
  obtain ⟨lastFound, ending⟩ := getLast?_placed lastIs
  cases lastIn.symm.trans lastFound
  obtain ⟨head, rest, bases⟩ := List.exists_cons_of_ne_nil rightRope.bases_ne_nil
  have tokensIs := rightRope.tokens_eq
  have allIntact := rightTells.intact
  rw [bases] at firstIs rightRow clean tokensIs allIntact
  cases firstIs
  have upperClean := clean head rfl firstIntact
  obtain ⟨upperSolid, expectsLower⟩ := deeper upperClean
  obtain ⟨⟨token, lexed, seen, _⟩, _⟩ := expectsLower plainLower
  rw [lowerStop, lowerMode, ← ending] at lexed
  cases foretells.lexed.symm.trans lexed
  rw [rightIs] at seen upperClean upperSolid
  rw [tokensIs, List.flatMap_cons, before_append] at seen
  refine seen.trans (before_alike (Eq.symm ?_) rfl)
  refine rightRow.after_eq (allIntact ⟨upperClean, upperSolid⟩) foretellsFirst fun final lexedFinal => ?_
  obtain ⟨found, lexedFound, seenFound, _⟩ := lexes
  obtain ⟨upperStop, upperMode⟩ := StackEntry.lexed_last rightIs rightTells rightRope
    (by rw [bases]; exact List.getLast?_eq_some_getLast (List.cons_ne_nil _ _))
  rw [upperStop, upperMode, bases, place] at lexedFound
  cases lexedFinal.symm.trans lexedFound
  exact seenFound

/-! ### Reductions -/

theorem Job.Recalls.rope_of_repeat {job : Job} {offset : Nat} {element : Element}
    (recalls : job.Recalls ⟨offset, element⟩) (sound : element.Sound job.table)
    (repeats : job.table.isRepeat element.kind = true) : ∃ rope : Node, element = rope.element ∧ 0 < rope.height := by
  cases element with
  | token leaf =>
      have terminal : job.table.isTerminal leaf.kind = true := sound.here.2.1
      cases terminal.symm.trans (Table.Numbered.not_isTerminal_of_repeat repeats)
  | node head children =>
      have here : job.Recalls ⟨offset, (Node.mk head children).element⟩ := recalls
      exact ⟨⟨head, children⟩, rfl, (Job.recalls_node.mp here).1.repeats.mp repeats⟩

/-- A token stands for what the lexer reads at a position: it is of the same kind and says of no fewer bytes that
they were examined. -/
structure LexedToken.StandsFor (job : Job) (position : Nat) (token fresh : LexedToken) : Prop where
  lexed : job.lex position token.lexMode = .ok fresh
  kind : fresh.kind = token.kind
  further : fresh.examinedEnd ≤ token.examinedEnd

structure Joining (production : ProductionInfo) (upper lower : StackEntry) (left right : Node) : Prop where
  plainUpper : upper.extra = false
  plainLower : lower.extra = false
  lower_eq : lower.element = left.element
  upper_eq : upper.element = right.element
  left_pos : 0 < left.height
  right_pos : 0 < right.height
  left_kind : left.kind = production.lhs
  right_kind : right.kind = production.lhs

namespace Machine.Reduces

variable {job : Job} {machine : Machine} {token : LexedToken} {production : ProductionInfo}
  {taken : List StackEntry} {below : ParseStack} {target : StateId} {node : Node}
  (reduces : machine.Reduces job token production taken below target node)

include reduces

theorem clean (sound : job.Sound) (known : machine.stack.Known job) (clean : node.info.hasError = false) :
    ∀ entry, entry ∈ taken → entry.extra = false ∧ entry.element.hasError = false := by
  have numbered : job.table.Numbered := sound.table
  rw [reduces.hasError_eq fun entry member => (known.recalls entry member).ropeNamed numbered entry.element] at clean
  intro entry member
  have good := anyError_contents clean entry (List.mem_reverse.mpr member)
  refine ⟨Bool.eq_false_iff.mpr fun extra => ?_, good⟩
  have error := known.erroneous entry (reduces.among.1 entry member) extra
  cases error.symm.trans good

theorem whole (clear : machine.stack.takeWhile (·.extra) = []) : machine.stack = taken ++ below := by
  rw [← reduces.core, (ParseStack.Clear.of_takeWhile clear).dropWhile]

theorem kinds {items : StateId → Lalr.Item → Prop} (chart : job.table.Chart items) (sound : job.Sound)
    (fits : machine.Fits job) (isTerminal : job.table.isTerminal token.kind = true)
    (plain : ∀ entry, entry ∈ taken → entry.extra = false) :
    taken.reverse.map (·.element.kind) = production.symbols.map job.table.symbolKind := by
  have numbered : job.table.Numbered := sound.table
  obtain ⟨id, acts, found⟩ := reduces.acts
  obtain ⟨again, foundToo, reducible⟩ := fits.follows.reducible numbered chart fits.sound isTerminal acts
  cases found.symm.trans foundToo
  obtain ⟨entries, rest, popped, kinds, _⟩ := reducible.topmost
  have all : ParseStack.plain taken = taken :=
    List.filter_eq_self.mpr fun entry member => by rw [plain entry member]; rfl
  have counted := reduces.counted
  rw [all] at counted
  rw [reduces.core, ← counted, ParseStack.popEntries_plain below taken [] plain, List.append_nil] at popped
  cases popped
  rw [← kinds, ParseStack.plain, List.filter_eq_self.mpr]
  intro entry member
  rw [plain entry (List.mem_reverse.mp member)]
  rfl

omit reduces in
theorem clear {serial height : Nat} {children : List Child} (made : node = .make serial production.lhs children
      { ParseStack.reductionOrigin job.table machine.stack below token.examinedEnd token.lexMode with
        ropeHeight := height }) (solid : node.info.fragile = false) : machine.stack.takeWhile (·.extra) = [] := by
  rw [made] at solid
  have origin := (Bool.or_eq_false_iff.mp solid).1
  change (!(machine.stack.takeWhile (·.extra)).isEmpty) = false at origin
  exact List.isEmpty_iff.mp (by simpa using origin)

theorem ne_join {items : StateId → Lalr.Item → Prop} (chart : job.table.Chart items) (sound : job.Sound)
    (fits : machine.Fits job) (isTerminal : job.table.isTerminal token.kind = true) (known : machine.stack.Known job)
    (clear : machine.stack.takeWhile (·.extra) = []) (plain : ∀ entry, entry ∈ taken → entry.extra = false)
    (apartFrom : production.kind = .repeatJoin →
      (ParseStack.reductionOrigin job.table machine.stack below token.examinedEnd token.lexMode).fragile = true ∨
        ropePair? taken.reverse = none) : production.kind ≠ .repeatJoin := by
  intro joins
  have numbered : job.table.Numbered := sound.table
  have kinds := reduces.kinds chart sound fits isTerminal plain
  obtain ⟨id, acts, found⟩ := reduces.acts
  obtain ⟨repeats, _, symbols⟩ := numbered.join production (Array.mem_of_getElem? (requireAt_ok.mp found)) joins
  rw [symbols] at kinds
  rcases apartFrom joins with fragile | unpaired
  · change (!(machine.stack.takeWhile (·.extra)).isEmpty) = true at fragile
    rw [clear] at fragile
    cases fragile
  · obtain ⟨left, right, pair⟩ := exists_ropePair kinds fun entry member => by
      have among := reduces.among.1 entry (List.mem_reverse.mp member)
      refine (known.recalls entry among).rope_of_repeat (fits.sound entry among) ?_
      have isKind : entry.element.kind ∈ taken.reverse.map (·.element.kind) := List.mem_map.mpr ⟨entry, member, rfl⟩
      rw [kinds] at isKind
      simp only [List.mem_cons, List.not_mem_nil, or_false, or_self] at isKind
      rw [isKind]
      exact repeats
    cases pair.symm.trans unpaired

section Completing

variable {items : StateId → Lalr.Item → Prop} (chart : job.table.Chart items) (sound : job.Sound)
  (reports : job.Reports) (first : job.table.JoinsFirst) (fits : machine.Fits job)
  (isTerminal : job.table.isTerminal token.kind = true) (known : machine.stack.Known job) {fresh : LexedToken}
  (stands : token.StandsFor job machine.position fresh) (expects : machine.stack.Expects job (fresh.toGreen 0))
  (dues : machine.stack.Dues job.table token.lexMode)

include chart sound reports first fits isTerminal known stands expects dues

/-- A node that is made from its entries is told again, if it is intact. -/
theorem foretells {serial height : Nat} (made : node = .make serial production.lhs
      (productionChildren job.table production.fields taken.reverse)
      { ParseStack.reductionOrigin job.table machine.stack below token.examinedEnd token.lexMode with
        ropeHeight := height })
    (apartFrom : production.kind = .repeatJoin →
      (ParseStack.reductionOrigin job.table machine.stack below token.examinedEnd token.lexMode).fragile = true ∨
        ropePair? taken.reverse = none)
    (intact : node.Intact) : job.Foretells below.stop node target fresh := by
  have numbered : job.table.Numbered := sound.table
  obtain ⟨id, acts, found⟩ := reduces.acts
  have productionKnown := Array.mem_of_getElem? (requireAt_ok.mp found)
  have none := Reduces.clear made intact.2
  have whole := reduces.whole none
  have each := reduces.clean sound known intact.1
  have other := reduces.ne_join chart sound fits isTerminal known none (fun entry member => (each entry member).1)
    apartFrom
  have follows := fits.follows
  have stackSound := fits.sound
  have inside := fits.inside
  have position := fits.stop_eq
  rw [whole] at follows stackSound known expects dues position
  have stop := follows.stop_append taken below
  have tokens := reduces.assembled.tokens_eq
  have kinds := reduces.kinds chart sound fits isTerminal fun entry member => (each entry member).1
  have apart : job.table.Apart (ParseStack.state (taken ++ below)) := by
    rw [← whole]
    exact first.apart_of_reduce isTerminal acts found other
  have length := reduces.length_eq
  have reached := Job.stop_le_of_lex reports inside stands.lexed
  have decided := decisionEnd_le serial production.lhs (productionChildren job.table production.fields taken.reverse)
    { ParseStack.reductionOrigin job.table machine.stack below token.examinedEnd token.lexMode with
      ropeHeight := height }
  rw [← made] at decided
  change token.examinedEnd - below.stop ≤ node.textLength + node.info.lookahead at decided
  have further := stands.further
  have nodePre : node.info.preState = below.state := by rw [made]; rfl
  have nodeKind : node.kind = production.lhs := by rw [made]; rfl
  have nodeMode : node.info.nextLexMode = token.lexMode := by rw [made]; rfl
  have isMade : node.IsMade := by rw [made]; exact Node.isMade_make _ _ _ _
  have children : node.children = productionChildren job.table production.fields taken.reverse := by rw [made]; rfl
  refine ⟨?_, by omega, by rw [nodePre, nodeKind]; exact reduces.goes, fun empty => ?_, ?_⟩
  · rw [nodeMode, length, ← stop, position]
    exact stands.lexed
  · rw [nodeKind]
    refine .production productionKnown fun symbol member => ?_
    have among : job.table.symbolKind symbol ∈ taken.reverse.map (·.element.kind) := by
      rw [kinds]
      exact List.mem_map.mpr ⟨symbol, member, rfl⟩
    obtain ⟨entry, isEntry, same⟩ := List.mem_map.mp among
    rw [← same]
    exact expects.blank chart sound taken follows stackSound known each apart (tokens.symm.trans empty) entry
      (List.mem_reverse.mp isEntry)
  · intro bound within examined
    have takenSound : ParseStack.Sound job.table taken.reverse := fun entry member =>
      stackSound entry (List.mem_append_left _ (List.mem_reverse.mp member))
    have inner := isMade.within_of_spliced within
    rw [children, within_productionChildren _ _ _ takenSound] at inner
    have starts := (job.lex_fits sound inside stands.lexed).start_eq
    have ends := (job.lex_fits sound inside stands.lexed).stop_eq
    have retells := expects.retells chart sound reports taken follows stackSound known each apart
      (by rw [position]; exact inside) inner (by
        change ParseStack.stop (taken ++ below) + fresh.length + fresh.lookahead ≤ bound
        unfold LexedToken.lookahead
        omega)
    have plain : ∀ entry, entry ∈ taken → entry.extra = false := fun entry member => (each entry member).1
    have counted := reduces.counted
    rw [ParseStack.plain, List.filter_eq_self.mpr fun entry member => by rw [plain entry member]; rfl] at counted
    have actsOver : job.table.action (ParseStack.stateOver below.state taken) (fresh.toGreen 0).kind = .reduce id := by
      rw [← ParseStack.state_append, ← whole, ← acts, ← stands.kind]
      rfl
    rw [nodePre]
    exact .reduce sound retells plain actsOver found counted reduces.goes
      (buildNode_bare numbered productionKnown rfl takenSound reduces.built) tokens
      (fun some_ mode => nodeMode ▸ dues.dueAfter taken each some_ mode) 0

theorem recalls_made {serial height : Nat} (made : node = .make serial production.lhs
      (productionChildren job.table production.fields taken.reverse)
      { ParseStack.reductionOrigin job.table machine.stack below token.examinedEnd token.lexMode with
        ropeHeight := height })
    (low : height ≤ 1) (ordinary : height = 0 ↔ production.kind = .plain)
    (apartFrom : production.kind = .repeatJoin →
      (ParseStack.reductionOrigin job.table machine.stack below token.examinedEnd token.lexMode).fragile = true ∨
        ropePair? taken.reverse = none) :
    job.Recalls ⟨below.stop, node.element⟩ ∧
      (0 < node.height → job.Strung node.kind target below.stop (ropeBases node.element)) := by
  have numbered : job.table.Numbered := sound.table
  obtain ⟨id, acts, found⟩ := reduces.acts
  have productionKnown := Array.mem_of_getElem? (requireAt_ok.mp found)
  have nodeKind : node.kind = production.lhs := by rw [made]; rfl
  have nodeHeight : node.height = height := by rw [made]; rfl
  have nodePre : node.info.preState = below.state := by rw [made]; rfl
  have children : node.children = productionChildren job.table production.fields taken.reverse := by rw [made]; rfl
  have holds : job.Holds below.stop node := fun intact =>
    ⟨target, fresh, reduces.foretells chart sound reports first fits isTerminal known stands expects dues made
      apartFrom intact⟩
  have strung : 0 < node.height → job.Strung node.kind target below.stop (ropeBases node.element) := by
    intro positive
    rw [ropeBases_base (by omega)]
    exact .single positive holds target
  have repeats : job.table.isRepeat node.kind = true ↔ 0 < node.height := by
    rw [nodeKind, nodeHeight]
    cases kind : production.kind with
    | plain =>
        have none := ordinary.mpr kind
        rw [numbered.plain production productionKnown kind, none]
        simp
    | repeatBase =>
        have some_ : height ≠ 0 := fun none => by cases kind.symm.trans (ordinary.mp none)
        rw [(numbered.base production productionKnown kind).1]
        simp [Nat.pos_of_ne_zero some_]
    | repeatJoin =>
        have some_ : height ≠ 0 := fun none => by cases kind.symm.trans (ordinary.mp none)
        rw [(numbered.join production productionKnown kind).1]
        simp [Nat.pos_of_ne_zero some_]
  have goes : job.table.goto below.state node.kind = some target := by
    rw [nodeKind]
    exact reduces.goes
  have coreFollows : ParseStack.Follows job.table (taken ++ below) := reduces.core ▸ fits.follows.core.1
  have coreKnown : ParseStack.Known job (taken ++ below) := reduces.core ▸ known.core
  have takenSound : ParseStack.Sound job.table taken.reverse := fun entry member =>
    fits.sound entry (reduces.among.1 entry (List.mem_reverse.mp member))
  refine ⟨Job.recalls_node.mpr ⟨⟨repeats, fun _ => holds, fun positive => .base (by omega), fun positive => ?_⟩, ?_⟩,
    strung⟩
  · refine ⟨target, ⟨below.state, goes⟩, strung positive, fun base head _ => Or.inl ?_⟩
    rw [ropeBases_base (by omega)] at head
    cases head
    rw [nodePre]
    exact goes
  · rw [children]
    exact Job.recallsAll_productionChildren _ _ _ takenSound (coreKnown.contents taken coreFollows)

omit reports first known stands expects dues in
theorem joining (joins : production.kind = .repeatJoin)
    (solid : (ParseStack.reductionOrigin job.table machine.stack below token.examinedEnd
      token.lexMode).fragile = false)
    {left right : Node} (pair : ropePair? taken.reverse = some (left, right)) :
    ∃ upper lower, taken = [upper, lower] ∧ machine.stack = upper :: lower :: below ∧
      Joining production upper lower left right := by
  have numbered : job.table.Numbered := sound.table
  obtain ⟨id, acts, found⟩ := reduces.acts
  obtain ⟨_, _, symbols⟩ := numbered.join production (Array.mem_of_getElem? (requireAt_ok.mp found)) joins
  have none : machine.stack.takeWhile (·.extra) = [] := by
    change (!(machine.stack.takeWhile (·.extra)).isEmpty) = false at solid
    exact List.isEmpty_iff.mp (by simpa using solid)
  obtain ⟨lower, upper, entries, leftIs, rightIs, leftPos, rightPos⟩ := ropePair?_some pair
  have takenIs : taken = [upper, lower] := by rw [← List.reverse_reverse taken, entries]; rfl
  have plain : ∀ entry, entry ∈ taken → entry.extra = false := by
    have counted := reduces.counted
    have two : production.length = taken.length := by
      have lengths := congrArg List.length symbols
      rw [List.length_map] at lengths
      rw [takenIs]
      exact lengths
    rw [two, ParseStack.plain, List.length_filter_eq_length_iff] at counted
    intro entry member
    simpa using counted entry member
  have kinds := reduces.kinds chart sound fits isTerminal plain
  rw [symbols, entries] at kinds
  obtain ⟨leftKind, rightKind⟩ : left.kind = production.lhs ∧ right.kind = production.lhs := by
    simpa [leftIs, rightIs] using kinds
  refine ⟨upper, lower, takenIs, by rw [reduces.whole none, takenIs]; rfl, ?_⟩
  exact ⟨plain upper (by rw [takenIs]; simp), plain lower (by rw [takenIs]; simp), leftIs, rightIs, leftPos, rightPos,
    leftKind, rightKind⟩

omit reports first dues in
theorem recalls_joined (joins : production.kind = .repeatJoin)
    (solid : (ParseStack.reductionOrigin job.table machine.stack below token.examinedEnd
      token.lexMode).fragile = false)
    {left right : Node} (pair : ropePair? taken.reverse = some (left, right))
    (joined : Rope.join production.lhs left right = .ok node) :
    job.Recalls ⟨below.stop, node.element⟩ ∧
      job.Strung node.kind target below.stop (ropeBases node.element) := by
  have numbered : job.table.Numbered := sound.table
  obtain ⟨id, acts, found⟩ := reduces.acts
  have productionKnown := Array.mem_of_getElem? (requireAt_ok.mp found)
  obtain ⟨repeats, _, _⟩ := numbered.join production productionKnown joins
  obtain ⟨upper, lower, _, whole, plainUpper, plainLower, leftIs, rightIs, leftPos, rightPos, leftKind, rightKind⟩ :=
    reduces.joining chart sound fits isTerminal joins solid pair
  have follows := fits.follows
  have stackSound := fits.sound
  rw [whole] at follows stackSound known expects
  have lowerKnown := known.tail.here
  have upperKnown := known.here
  have lowerSound := stackSound lower (List.mem_cons_of_mem _ List.mem_cons_self)
  have upperSound := stackSound upper List.mem_cons_self
  have leftRope : left.IsRope job.table := ⟨leftIs ▸ lowerSound, leftPos⟩
  have rightRope : right.IsRope job.table := ⟨rightIs ▸ upperSound, rightPos⟩
  have joinsOn : job.table.JoinsOn upper.state (fresh.toGreen 0).kind := by
    refine ⟨id, production, ?_, found, joins⟩
    have stateIs : machine.stack.state = upper.state := by rw [whole]; rfl
    rw [← stateIs, ← acts, ← stands.kind]
    rfl
  have strung := known.row sound follows stackSound plainUpper plainLower leftIs rightIs leftPos rightPos
    (rightKind.trans leftKind.symm) expects joinsOn
  have goes := lowerKnown.goes follows.tail.rests plainLower leftIs leftPos
  have targetIs : lower.state = target := by
    rw [leftKind] at goes
    exact Option.some.inj (goes.symm.trans reduces.goes)
  have offset : lower.offset = below.stop := follows.tail.rests.offset_eq
  obtain ⟨again, joinedToo, joinedFrom⟩ := join_joined (numbered.lhs production productionKnown).2 leftRope rightRope
  cases joinedToo.symm.trans joined
  rw [leftKind, targetIs, offset, ← joinedFrom.bases] at strung
  have leftRecalls := lowerKnown.recalls
  have rightRecalls := upperKnown.recalls
  rw [leftIs, offset] at leftRecalls
  have place : upper.offset = below.stop + left.textLength := by
    rw [follows.rests.offset_eq, ← offset]
    change lower.offset + lower.element.textLength = _
    rw [leftIs]
    rfl
  rw [rightIs, place, leftRope.textLength_eq] at rightRecalls
  refine ⟨Job.recalls_rope repeats joinedFrom.rope ?_ ?_ ?_, by rw [joinedFrom.kind_eq]; exact strung⟩
  · refine joinedFrom.inherits (Rope.Paired production.lhs)
      ⟨fun _ _ => .pair, fun _ _ _ halved paired => paired.halves halved.splits⟩ ?_ ?_
    · rw [← leftKind]
      exact (Job.recalls_node.mp leftRecalls).1.paired leftPos
    · rw [← rightKind]
      exact (Job.recalls_node.mp rightRecalls).1.paired rightPos
  · refine ⟨target, ⟨below.state, reduces.goes⟩, strung, fun base head _ => Or.inl ?_⟩
    have tells := lowerKnown.tells sound leftIs leftPos
    have begun := tells.preState
    rw [joinedFrom.bases, List.head?_append_of_ne_nil _ leftRope.bases_ne_nil] at head
    rw [head] at begun
    have isBase : base ∈ ropeBases node.element := by
      rw [joinedFrom.bases]
      exact List.mem_append_left _ (List.mem_of_head? head)
    have preState : base.info.preState = left.info.preState := Option.some.inj begun
    rw [(strung.kinds base isBase).1, preState, lowerKnown.begun plainLower left leftIs]
    exact reduces.goes
  · rw [joinedFrom.bases, placed_append]
    intro place member
    rcases List.mem_append.mp member with before | after
    · exact leftRecalls.bases leftRope place before
    · exact rightRecalls.bases rightRope place after

theorem recalls : job.Recalls ⟨below.stop, node.element⟩ ∧
    (0 < node.height → job.Strung node.kind target below.stop (ropeBases node.element)) := by
  rcases buildNode_cases rfl reduces.built with
    ⟨serial, height, made, low, ordinary, apartFrom⟩ | ⟨joins, solid, left, right, pair, joined⟩
  · exact reduces.recalls_made chart sound reports first fits isTerminal known stands expects dues made low ordinary
      apartFrom
  · obtain ⟨recalls, strung⟩ := reduces.recalls_joined chart sound fits isTerminal known stands expects joins
      solid pair joined
    exact ⟨recalls, fun _ => strung⟩

end Completing

end Machine.Reduces

end IncrementalParsing
