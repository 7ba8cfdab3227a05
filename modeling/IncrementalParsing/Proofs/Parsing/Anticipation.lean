import IncrementalParsing.Proofs.Parsing.Completion

/-!
Stacks stay known. After a shift or a reduction, and after a node of an old tree has been pushed, every entry of
the stack is known again, and the stack leads to the token ahead: where something was shifted, that is whatever
the lexer reads next; where something was reduced, it is the token that asked for the reduction.
-/

namespace IncrementalParsing

open Green

namespace ParseStack

variable {job : Job}

/-! ### States between entries -/

theorem Follows.state_over_extras {table : Table} : ∀ (above : List StackEntry) {below : ParseStack},
    Follows table (above ++ below) → plain above = [] → state (above ++ below) = below.state
  | [], _, _, _ => rfl
  | top :: rest, below, follows, extras => by
      have extra : top.extra = true := by
        by_contra plainHere
        rw [plain, List.filter_cons_of_pos (by simpa using plainHere)] at extras
        cases extras
      rw [plain, List.filter_cons_of_neg (by simp [extra])] at extras
      exact (follows.rests.repeats extra).trans (Follows.state_over_extras rest follows.tail extras)

/-- No two repetitions of a kind lead to the state below entries that are not all extras. -/
theorem Known.apart_below : ∀ (above : List StackEntry) {below : ParseStack}, Follows job.table (above ++ below) →
    Known job (above ++ below) → plain above ≠ [] → job.table.Apart below.state
  | [], _, _, _, some_ => absurd rfl some_
  | top :: rest, below, follows, known, some_ => by
      by_cases none : plain rest = []
      · have plainHere : top.extra = false := by
          by_contra extra
          refine some_ ?_
          rw [plain, List.filter_cons_of_neg (by simpa using extra)]
          exact none
        rw [← Follows.state_over_extras rest follows.tail none]
        exact known.here.apart plainHere
      · exact known.tail.apart_below rest follows.tail none

theorem Known.push {stack : ParseStack} (known : Known job stack) {target : StateId} {element : Element}
    (recalls : job.Recalls ⟨stack.stop, element⟩) (apart : job.table.Apart stack.state)
    (begun : ∀ node : Node, element = node.element → node.info.preState = stack.state)
    (lined : ∀ node : Node, element = node.element → 0 < node.height →
      StackEntry.Lined job ⟨target, element, false, stack.stop⟩ stack (ropeBases node.element)) :
    Known job (stack.push target element) :=
  .entry known ⟨recalls, fun impossible => (by cases impossible), fun _ => apart, fun _ => begun, fun _ => lined⟩

theorem Known.pushExtra {stack : ParseStack} (known : Known job stack) {element : Element}
    (recalls : job.Recalls ⟨stack.stop, element⟩) (erroneous : element.hasError = true) :
    Known job (stack.pushExtra element) :=
  .entry known ⟨recalls, fun _ => erroneous, fun impossible => (by cases impossible),
    fun impossible => (by cases impossible), fun impossible => (by cases impossible)⟩

theorem Expects.of_extra {entry : StackEntry} {below : ParseStack} {ahead : Green.Token} (extra : entry.extra = true) :
    Expects job ahead (entry :: below) := by
  intro plainHere
  cases extra.symm.trans plainHere

end ParseStack

/-! ### Reductions -/

theorem Job.Lexes.of_lex {job : Job} (sound : job.Sound) (reports : job.Reports) {position : Nat} {mode : LexMode}
    {token : LexedToken} (inside : position ≤ job.text.size) (lexed : job.lex position mode = .ok token)
    (serial : Nat) : job.Lexes position mode (token.toGreen serial) := by
  have ends := (Job.lex_fits sound inside lexed).stop_eq
  have reaches := Job.stop_le_of_lex reports inside lexed
  refine ⟨token, lexed, rfl, ?_⟩
  change token.examinedEnd ≤ position + token.length + token.lookahead
  unfold LexedToken.lookahead
  omega

theorem ParseStack.Expects.push {job : Job} {stack : ParseStack} {target : StateId} {element : Element}
    {ahead : Green.Token}
    (lexes : job.Lexes (stack.stop + element.textLength)
      (StackEntry.modeAfter job.table ⟨target, element, false, stack.stop⟩) ahead)
    (solid : element.isFragile = false) (expects : stack.Expects job (before ahead element.tokens)) :
    Expects job ahead (stack.push target element) :=
  fun _ => ⟨lexes, fun _ => ⟨solid, expects⟩⟩

/-- The repetitions of a rope that is pushed where it was begun stand in a row there: its first one leads to where the
rope leads, or it was begun after other ones and is joined with them. -/
theorem Job.Recalls.lined {job : Job} (sound : job.Sound) {offset : Nat} {node : Node} {below : ParseStack}
    {target : StateId} (recalls : job.Recalls ⟨offset, node.element⟩) (intact : node.Intact)
    (begun : node.info.preState = below.state) (goes : job.table.goto below.state node.kind = some target)
    (positive : 0 < node.height) :
    StackEntry.Lined job ⟨target, node.element, false, offset⟩ below (ropeBases node.element) := by
  have numbered : job.table.Numbered := sound.table
  obtain ⟨accounts, _⟩ := Job.recalls_node.mp recalls
  obtain ⟨state, led, strung, begins⟩ := accounts.row positive
  have tells := (accounts.paired positive).tells (numbered.ne_error_of_repeat (accounts.repeats.mpr positive))
  have intactBases := tells.intact intact
  obtain ⟨first, rest, bases⟩ := List.exists_cons_of_ne_nil tells.ne_nil
  have head : (ropeBases node.element).head? = some first := by rw [bases]; rfl
  have preState := tells.preState
  rw [head] at preState
  have firstBegun : first.info.preState = below.state := (Option.some.inj preState).trans begun
  have member : first ∈ ropeBases node.element := by rw [bases]; exact List.mem_cons_self
  rcases begins first head (intactBases first member) with reached | joins
  · dsimp only at reached
    rw [firstBegun, (strung.kinds first member).1] at reached
    cases goes.symm.trans reached
    exact Or.inl strung
  · have stateIs : state = below.state := ((joins (intactBases first member)).1.symm.trans firstBegun)
    subst stateIs
    refine Or.inr ⟨led, strung, fun other same => ?_, intact.1⟩
    cases head.symm.trans same
    exact joins

theorem Green.Node.eq_of_element {node other : Node} (same : node.element = other.element) : node = other := by
  obtain ⟨head, children⟩ := node
  obtain ⟨otherHead, others⟩ := other
  cases same
  rfl

namespace Machine.Reduces

variable {job : Job} {machine : Machine} {token : LexedToken} {production : ProductionInfo}
  {taken : List StackEntry} {below : ParseStack} {target : StateId} {node : Node}
  (reduces : machine.Reduces job token production taken below target node)

include reduces

/-- No two repetitions lie on top of each other where a node is pushed. -/
theorem apart (sound : job.Sound) (first : job.table.JoinsFirst) (fits : machine.Fits job)
    (isTerminal : job.table.isTerminal token.kind = true) (known : machine.stack.Known job) :
    job.table.Apart below.state := by
  have numbered : job.table.Numbered := sound.table
  obtain ⟨id, acts, found⟩ := reduces.acts
  have coreFollows : ParseStack.Follows job.table (taken ++ below) := reduces.core ▸ fits.follows.core.1
  have coreKnown : ParseStack.Known job (taken ++ below) := reduces.core ▸ known.core
  by_cases none : ParseStack.plain taken = []
  · have stateIs : below.state = machine.stack.state := by
      rw [← coreFollows.state_over_extras taken none, ← reduces.core, fits.follows.core.2]
    rw [stateIs]
    refine first.apart_of_reduce isTerminal acts found fun joins => ?_
    obtain ⟨_, _, symbols⟩ := numbered.join production (Array.mem_of_getElem? (requireAt_ok.mp found)) joins
    have lengths := congrArg List.length symbols
    have counted := reduces.counted
    rw [none] at counted
    rw [List.length_map] at lengths
    change production.symbols.length = 2 at lengths
    change 0 = production.symbols.length at counted
    omega
  · exact coreKnown.apart_below taken coreFollows none

section Completing

variable {items : StateId → Lalr.Item → Prop} (chart : job.table.Chart items) (sound : job.Sound)
  (reports : job.Reports) (first : job.table.JoinsFirst) (fits : machine.Fits job)
  (isTerminal : job.table.isTerminal token.kind = true) (known : machine.stack.Known job) {fresh : LexedToken}
  (stands : token.StandsFor job machine.position fresh) (expects : machine.stack.Expects job (fresh.toGreen 0))
  (dues : machine.stack.Dues job.table token.lexMode)

include chart sound reports first fits isTerminal known stands expects dues

/-- What a joined rope says of where it was begun and how it goes on is what its halves say. -/
theorem tells_joined (joins : production.kind = .repeatJoin)
    (solid : (ParseStack.reductionOrigin job.table machine.stack below token.examinedEnd
      token.lexMode).fragile = false)
    {left right : Node} (pair : ropePair? taken.reverse = some (left, right))
    (joined : Rope.join production.lhs left right = .ok node) :
    node.info.preState = left.info.preState ∧ node.info.nextLexMode = right.info.nextLexMode ∧
      node.info.fragile = (left.info.fragile || right.info.fragile) := by
  have numbered : job.table.Numbered := sound.table
  obtain ⟨id, acts, found⟩ := reduces.acts
  have productionKnown := Array.mem_of_getElem? (requireAt_ok.mp found)
  obtain ⟨repeats, _, _⟩ := numbered.join production productionKnown joins
  obtain ⟨upper, lower, _, whole, joining⟩ := reduces.joining chart sound fits isTerminal joins solid pair
  obtain ⟨recalls, _⟩ := reduces.recalls chart sound reports first fits isTerminal known stands expects dues
  have stackSound := fits.sound
  rw [whole] at known stackSound
  have leftRope : left.IsRope job.table :=
    ⟨joining.lower_eq ▸ stackSound lower (List.mem_cons_of_mem _ List.mem_cons_self), joining.left_pos⟩
  have rightRope : right.IsRope job.table :=
    ⟨joining.upper_eq ▸ stackSound upper List.mem_cons_self, joining.right_pos⟩
  obtain ⟨again, joinedToo, joinedFrom⟩ := join_joined (numbered.lhs production productionKnown).2 leftRope rightRope
  cases joinedToo.symm.trans joined
  have tells := ((Job.recalls_node.mp recalls).1.paired joinedFrom.rope.height_pos).tells
    (joinedFrom.kind_eq ▸ numbered.ne_error_of_repeat repeats)
  rw [joinedFrom.bases] at tells
  exact (known.tail.here.tells sound joining.lower_eq joining.left_pos).of_append
    (known.here.tells sound joining.upper_eq joining.right_pos) tells

theorem begun : node.info.preState = below.state := by
  rcases buildNode_cases rfl reduces.built with
    ⟨serial, height, made, _⟩ | ⟨joins, solid, left, right, pair, joined⟩
  · rw [made]
    rfl
  · obtain ⟨preState, _⟩ := reduces.tells_joined chart sound reports first fits isTerminal known stands expects
      dues joins solid pair joined
    obtain ⟨upper, lower, _, whole, joining⟩ := reduces.joining chart sound fits isTerminal joins solid pair
    rw [whole] at known
    rw [preState]
    exact known.tail.here.begun joining.plainLower left joining.lower_eq

/-- With no extra above it a node is followed by the token that asked for it, and is not fragile if it has no
error. -/
theorem followed (clear : machine.stack.takeWhile (·.extra) = []) :
    job.Lexes (below.stop + node.textLength) node.info.nextLexMode (fresh.toGreen 0) ∧
      (node.info.hasError = false → node.info.fragile = false ∧
        below.Expects job (before (fresh.toGreen 0) node.element.tokens)) := by
  have whole := reduces.whole clear
  have follows := fits.follows
  have position := fits.stop_eq
  rw [whole] at follows position
  have stop := follows.stop_append taken below
  have place : below.stop + node.textLength = machine.position := by rw [reduces.length_eq, ← stop, position]
  have seen := Job.Lexes.of_lex sound reports fits.inside stands.lexed 0
  have deeper : node.info.hasError = false →
      (∀ entry, entry ∈ taken → entry.element.isFragile = false) ∧
        below.Expects job (before (fresh.toGreen 0) node.element.tokens) := by
    intro clean
    have each := reduces.clean sound known clean
    rw [whole] at expects
    rw [reduces.assembled.tokens_eq]
    exact ParseStack.Expects.clean taken expects each
  rw [place]
  rcases buildNode_cases rfl reduces.built with
    ⟨serial, height, made, _⟩ | ⟨joins, solid, left, right, pair, joined⟩
  · refine ⟨by rw [made]; exact seen, fun clean => ?_⟩
    obtain ⟨solid, rest⟩ := deeper clean
    have takenSound : ParseStack.Sound job.table taken.reverse := fun entry member =>
      fits.sound entry (reduces.among.1 entry (List.mem_reverse.mp member))
    refine ⟨?_, rest⟩
    rw [made]
    refine Bool.or_eq_false_iff.mpr ⟨?_, ?_⟩
    · change (!(machine.stack.takeWhile (·.extra)).isEmpty) = false
      rw [clear]
      rfl
    · exact not_fragile_productionChildren _ _ takenSound fun entry member =>
        solid entry (List.mem_reverse.mp member)
  · obtain ⟨_, mode, fragile⟩ := reduces.tells_joined chart sound reports first fits isTerminal known stands expects
      dues joins solid pair joined
    obtain ⟨upper, lower, takenIs, stackIs, joining⟩ := reduces.joining chart sound fits isTerminal joins solid pair
    rw [mode, fragile]
    constructor
    · have top := position
      rw [stackIs] at expects
      rw [← whole, stackIs] at top
      have lexes := (expects joining.plainUpper).1
      rw [show upper.stop = machine.position from top, StackEntry.modeAfter, joining.upper_eq] at lexes
      exact lexes
    · intro clean
      obtain ⟨others, rest⟩ := deeper clean
      refine ⟨Bool.or_eq_false_iff.mpr ⟨?_, ?_⟩, rest⟩
      · have here := others lower (by rw [takenIs]; simp)
        rw [joining.lower_eq] at here
        exact here
      · have here := others upper (by rw [takenIs]; simp)
        rw [joining.upper_eq] at here
        exact here

theorem known_reduced : (machine.reduced token below target node).stack.Known job := by
  obtain ⟨recalls, strung⟩ := reduces.recalls chart sound reports first fits isTerminal known stands expects dues
  have begun := reduces.begun chart sound reports first fits isTerminal known stands expects dues
  have belowKnown : ParseStack.Known job below :=
    ParseStack.Known.lower taken (reduces.core ▸ known.core)
  have pushed : ParseStack.Known job (below.push target node.element) := by
    refine belowKnown.push recalls (reduces.apart sound first fits isTerminal known) (fun other same => ?_)
      fun other same positive => ?_
    · cases Node.eq_of_element same
      exact begun
    · cases Node.eq_of_element same
      exact Or.inl (strung positive)
  rcases fits.follows.trailing with ⟨none, _⟩ | ⟨top, rest, shape, extra, trailing, _⟩
  · change ParseStack.Known job ((machine.stack.takeWhile (·.extra)).map _ ++ _)
    rw [none]
    exact pushed
  · change ParseStack.Known job ((machine.stack.takeWhile (·.extra)).map _ ++ _)
    rw [trailing]
    have isPlain : ∀ {holds : Prop}, top.extra = false → holds := fun plain => by cases extra.symm.trans plain
    rw [shape] at known
    exact .entry pushed ⟨known.here.recalls, known.here.erroneous, isPlain, isPlain, isPlain⟩

theorem expects_reduced : (machine.reduced token below target node).stack.Expects job (fresh.toGreen 0) := by
  rcases fits.follows.trailing with ⟨none, _⟩ | ⟨top, rest, shape, extra, trailing, _⟩
  · change ParseStack.Expects job _ ((machine.stack.takeWhile (·.extra)).map _ ++ _)
    rw [none]
    exact fun _ => reduces.followed chart sound reports first fits isTerminal known stands expects dues none
  · change ParseStack.Expects job _ ((machine.stack.takeWhile (·.extra)).map _ ++ _)
    rw [trailing]
    exact .of_extra extra

theorem dues_reduced : (machine.reduced token below target node).stack.Dues job.table token.lexMode := by
  rcases fits.follows.trailing with ⟨none, _⟩ | ⟨top, rest, shape, extra, trailing, _⟩
  · change ParseStack.Dues _ _ ((machine.stack.takeWhile (·.extra)).map _ ++ _)
    rw [none]
    have whole := reduces.whole none
    refine fun _ => ⟨?_, fun clean empty => ?_⟩
    · change node.info.nextLexMode = token.lexMode
      rcases buildNode_cases rfl reduces.built with
        ⟨serial, height, made, _⟩ | ⟨joins, solid, left, right, pair, joined⟩
      · rw [made]
        rfl
      · obtain ⟨_, mode, _⟩ := reduces.tells_joined chart sound reports first fits isTerminal known stands expects
          dues joins solid pair joined
        obtain ⟨upper, lower, _, stackIs, joining⟩ := reduces.joining chart sound fits isTerminal joins solid pair
        rw [stackIs] at dues
        have upperMode := (dues joining.plainUpper).1
        rw [StackEntry.modeAfter, joining.upper_eq] at upperMode
        exact mode.trans upperMode
    · have each := reduces.clean sound known clean
      rw [whole] at dues
      exact dues.clean taken each (reduces.assembled.tokens_eq.symm.trans empty)
  · change ParseStack.Dues _ _ ((machine.stack.takeWhile (·.extra)).map _ ++ _)
    rw [trailing]
    exact fun plain => by cases extra.symm.trans plain

end Completing

end Machine.Reduces

end IncrementalParsing
