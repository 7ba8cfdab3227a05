import IncrementalParsing.Proofs.Parsing.Grammatical
import IncrementalParsing.Proofs.Parsing.Replay

/-!
The footprint of a node. What a parser has looked at to build a node is the text of the node and what the
node says was examined past its end. On every text that has the same bytes there, a machine in the state
in which the node was begun builds an equal node by shifts and reductions alone. Hidden nodes that have
given way to their children do not spoil this, since the token that completed them is in the node or is
the one that completed the node itself; and what recovery has had a hand in is known by its errors.
-/

namespace IncrementalParsing

open Green

/-- A machine on a stack builds an equal node by shifts and reductions alone, consumes as many bytes and
looks ahead in the mode in which the token after the node was read. -/
def Job.Rebuilds (job : Job) (base : ParseStack) (mode : LexMode) (serial : Nat) (node : Node) : Prop :=
  ∃ final target rebuilt token, Relation.ReflTransGen (Machine.Advances job) (.upon base mode serial) final ∧
    final.stack = base.push target rebuilt ∧ rebuilt.alike node.element = true ∧
    final.position = base.stop + node.textLength ∧
    final.LooksTo job token ∧ token.lexMode = node.info.nextLexMode

/-- Equal nodes are built wherever a text has the bytes at hand that were examined for this one. -/
def Job.Footprint (job : Job) (offset : Nat) (node : Node) : Prop :=
  0 < node.textLength → node.info.hasError = false → node.info.fragile = false →
  ∃ first, node.element.firstToken? = some first ∧
    ∀ (against : Array UInt8) (base : ParseStack) (serial : Nat), (job.on against).Reports →
      base.stop ≤ against.size → base.state = node.info.preState → base.Opens job.table first.kind →
      Cursor.Agree job.text against offset base.stop (offset + node.textLength + node.info.lookahead) →
      (job.on against).Rebuilds base first.lexMode serial node

/-- A node that is on top of what can be built again leaves its footprint. -/
theorem Job.Replays.footprint {job : Job} {token : LexedToken} {below : ParseStack} {next : StateId}
    {node : Node} {production : ProductionInfo} {origin : Origin} {serial offset : Nat}
    {children : List Child}
    (replays : job.Replays token [⟨next, node.element, false, offset⟩] below)
    (sound : node.element.Sound job.table) (made : node = .make serial production.lhs children origin)
    (preState : origin.preState = below.state) (nextLexMode : origin.nextLexMode = token.lexMode)
    (decisionEnd : origin.decisionEnd = token.examinedEnd - below.stop) :
    job.Footprint below.stop node := by
  intro nonempty _ _
  have length := lengthOfTokens_tokens sound
  have within := reach_tokens_le sound below.stop
  have decided := decisionEnd_le serial production.lhs children origin
  rw [← made, decisionEnd] at decided
  have stateIs : node.info.preState = below.state := by
    rw [made]
    exact preState
  have modeIs : node.info.nextLexMode = token.lexMode := by
    rw [made]
    exact nextLexMode
  have tokensIs : ParseStack.tokens [⟨next, node.element, false, offset⟩] = node.element.tokens := by
    rw [ParseStack.tokens_cons, ParseStack.tokens_nil, List.nil_append]
  change lengthOfTokens node.element.tokens = node.textLength at length
  change reach below.stop node.element.tokens ≤ below.stop + node.textLength + node.info.lookahead at within
  cases tokens : node.element.tokens with
  | nil =>
      rw [tokens, lengthOfTokens_nil] at length
      omega
  | cons first rest =>
      refine ⟨first, by rw [Element.firstToken?_eq, tokens]; rfl, ?_⟩
      intro against base serial' reportsOn begins same opens agree
      obtain ⟨final, steps, repeats⟩ := replays against base serial' reportsOn begins (same.trans stateIs)
        (by rw [tokensIs, tokens]; exact opens) (by rw [tokensIs]; exact agree.shorten (by omega))
      rw [tokensIs, tokens] at steps
      obtain ⟨copy, copied, stackEq⟩ := repeats.stack
      cases copied with
      | @cons _ _ copy rebuilt inner erased =>
          cases inner
          refine ⟨final, next, rebuilt, _, steps, stackEq, (Element.alike_iff _ _).mpr erased, ?_,
            repeats.looks, modeIs.symm⟩
          rw [repeats.position, totalLength_cons, totalLength_nil]
          rfl

/-! ### Stacks -/

structure ParseStack.Traced (holds : Nat → Node → Prop) (stack : ParseStack) : Prop where
  erroneous : ∀ entry, entry ∈ stack → entry.extra = true → entry.element.hasError = true
  ropeNamed : ∀ entry, entry ∈ stack → entry.element.Everywhere Element.RopeNamed
  held : stack.Held holds

namespace ParseStack

variable {holds : Nat → Node → Prop} {stack : ParseStack}

theorem Traced.empty : Traced holds [] :=
  ⟨fun _ none => absurd none List.not_mem_nil, fun _ none => absurd none List.not_mem_nil,
    fun _ none => absurd none List.not_mem_nil⟩

theorem Traced.subset {entries : ParseStack} (traced : Traced holds stack)
    (among : ∀ entry, entry ∈ entries → entry ∈ stack) : Traced holds entries :=
  ⟨fun entry member => traced.erroneous entry (among entry member),
    fun entry member => traced.ropeNamed entry (among entry member),
    fun entry member => traced.held entry (among entry member)⟩

theorem Traced.tail {entry : StackEntry} {below : ParseStack} (traced : Traced holds (entry :: below)) :
    Traced holds below :=
  traced.subset (fun _ member => List.mem_cons_of_mem _ member)

theorem Traced.drop (count : Nat) (traced : Traced holds stack) : Traced holds (stack.drop count) :=
  traced.subset (fun _ member => List.mem_of_mem_drop member)

theorem Traced.cons {entry : StackEntry} (traced : Traced holds stack)
    (erroneous : entry.extra = true → entry.element.hasError = true)
    (ropeNamed : entry.element.Everywhere Element.RopeNamed)
    (held : entry.element.HoldsFrom holds entry.offset) : Traced holds (entry :: stack) := by
  constructor
  · intro other member
    rcases List.mem_cons.mp member with first | rest
    · exact first ▸ erroneous
    · exact traced.erroneous other rest
  · intro other member
    rcases List.mem_cons.mp member with first | rest
    · exact first ▸ ropeNamed
    · exact traced.ropeNamed other rest
  · intro other member
    rcases List.mem_cons.mp member with first | rest
    · exact first ▸ held
    · exact traced.held other rest

def Faulty (stack : ParseStack) : Prop := ∃ first rest, stack = first :: rest ∧ first.element.hasError = true

end ParseStack

namespace Recovery

variable {job : Job} {holds : Nat → Node → Prop}
  (vacuous : ∀ offset (node : Node), node.info.hasError = true → holds offset node)

theorem allHoldFrom_leaves (tokens : List LexedToken) : ∀ serial offset,
    AllHoldFrom holds offset (loose (leaves serial tokens)) := by
  induction tokens with
  | nil => exact fun _ _ => allHoldFrom_nil
  | cons token rest ih =>
      intro serial offset
      have shape : leaves serial (token :: rest) =
          .token (token.toGreen serial) :: leaves (serial + 1) rest := by
        simp [leaves, List.zipIdx_cons]
      rw [shape, loose_cons]
      exact allHoldFrom_cons.mpr ⟨Element.holdsFrom_token _ _, ih _ _⟩

theorem ropeNamed_leaves (serial : Nat) (tokens : List LexedToken) :
    ∀ element, element ∈ leaves serial tokens → element.Everywhere Element.RopeNamed := by
  intro element member
  obtain ⟨entry, _, rfl⟩ := List.mem_map.mp member
  exact .token trivial

include vacuous

theorem pushError_traced (machine : Machine) (elements : List Element) (examinedEnd : Nat)
    (follows : machine.stack.Follows job.table) (stackSound : ParseStack.Sound job.table machine.stack)
    (traced : machine.stack.Traced holds)
    (sound : ∀ element, element ∈ elements → element.Sound job.table)
    (ropeNamed : ∀ element, element ∈ elements → element.Everywhere Element.RopeNamed)
    (held : AllHoldFrom holds machine.stack.stop (loose elements)) :
    (pushError job machine elements examinedEnd).stack.Traced holds ∧
      (pushError job machine elements examinedEnd).stack.Faulty := by
  have pushed : ∀ (all : List Element) (stack : ParseStack) (decisionEnd : Nat), stack.Traced holds →
      (∀ element, element ∈ all → element.Sound job.table) →
      (∀ element, element ∈ all → element.Everywhere Element.RopeNamed) →
      AllHoldFrom holds stack.stop (loose all) →
      let node := ParseStack.errorNode job.table machine.nextSerial all stack.state decisionEnd
      (stack.pushExtra node.element).Traced holds ∧ (stack.pushExtra node.element).Faulty := by
    intro all stack decisionEnd below allSound allNamed allHeld
    refine ⟨below.cons (fun _ => rfl) (.node (fun rope => absurd rfl rope) ?_)
      (Node.holdsFrom_iff.mpr ⟨fun _ => vacuous _ _ rfl, allHoldFrom_errorChildren all _ allSound allHeld⟩),
      _, _, rfl, rfl⟩
    intro child member
    obtain ⟨element, among, inside⟩ := List.mem_flatMap.mp member
    exact everywhere_splicedIntoError (allNamed element among) child inside
  unfold pushError
  cases shape : machine.stack with
  | nil =>
      rw [shape] at traced held
      exact pushed elements [] _ traced sound ropeNamed held
  | cons top below =>
      rw [shape] at follows stackSound traced held
      cases extra : top.extra with
      | true =>
          dsimp only
          rw [if_pos extra]
          refine pushed (top.element :: elements) below _ traced.tail ?_ ?_ ?_
          · intro element member
            rcases List.mem_cons.mp member with first | others
            · exact first ▸ stackSound top List.mem_cons_self
            · exact sound element others
          · intro element member
            rcases List.mem_cons.mp member with first | others
            · exact first ▸ traced.ropeNamed top List.mem_cons_self
            · exact ropeNamed element others
          · have here := traced.held top List.mem_cons_self
            have place := follows.rests.offset_eq
            change AllHoldFrom holds (top.offset + top.element.textLength) _ at held
            rw [place] at here held
            exact allHoldFrom_cons.mpr ⟨here, held⟩
      | false =>
          dsimp only
          rw [if_neg (by rw [extra]; exact Bool.false_ne_true)]
          exact pushed elements (top :: below) _ traced sound ropeNamed held

theorem apply_traced {machine : Machine} (fits : machine.Fits job) (traced : machine.stack.Traced holds)
    {repair : Repair} (here : repair.Fits job machine.position) :
    (apply job machine repair).stack.Traced holds ∧ (apply job machine repair).stack.Faulty := by
  obtain ⟨stop, tile, _⟩ := here.skipped
  obtain ⟨_, leavesSound⟩ := leaves_fit tile machine.nextSerial
  have split : machine.stack.take repair.popped ++ machine.stack.drop repair.popped = machine.stack :=
    List.take_append_drop _ _
  have taken : ∀ element, element ∈ (machine.stack.take repair.popped).reverse.map (·.element) →
      ∃ entry, entry ∈ machine.stack ∧ entry.element = element := by
    intro element member
    obtain ⟨entry, among, same⟩ := List.mem_map.mp member
    exact ⟨entry, List.mem_of_mem_take (List.mem_reverse.mp among), same⟩
  refine pushError_traced vacuous
    { machine with
      stack := machine.stack.drop repair.popped
      position := (repair.skipped.getLast?.map (·.stop)).getD machine.position
      nextSerial := machine.nextSerial + repair.skipped.length }
    _ _ (fits.follows.drop _) (fits.sound.drop _) (traced.drop _) ?_ ?_ ?_
  · intro element member
    rcases List.mem_append.mp member with popped | skipped
    · obtain ⟨entry, among, same⟩ := taken element popped
      exact same ▸ fits.sound entry among
    · exact leavesSound element skipped
  · intro element member
    rcases List.mem_append.mp member with popped | skipped
    · obtain ⟨entry, among, same⟩ := taken element popped
      exact same ▸ traced.ropeNamed entry among
    · exact ropeNamed_leaves _ _ element skipped
  · rw [loose_append, allHoldFrom_append]
    refine ⟨?_, allHoldFrom_leaves _ _ _⟩
    exact ParseStack.Held.contents (machine.stack.take repair.popped)
      (split.symm ▸ fits.follows) (split.symm ▸ traced.held)

theorem giveUp_traced {machine next : Machine} (fits : machine.Fits job)
    (traced : machine.stack.Traced holds) {lookahead : LexedToken}
    (here : lookahead.FitsAt job.table job.text machine.position)
    (done : giveUp job machine lookahead = .inl next) : next.stack.Traced holds ∧ next.stack.Faulty := by
  unfold giveUp at done
  split at done
  · cases done
  · rename_i proper
    cases done
    obtain ⟨_, leavesSound⟩ := leaves_fit (.cons here proper .nil) machine.nextSerial
    exact pushError_traced vacuous
      { machine with position := lookahead.stop, nextSerial := machine.nextSerial + 1 }
      (leaves machine.nextSerial [lookahead]) lookahead.examinedEnd fits.follows fits.sound traced leavesSound
      (ropeNamed_leaves _ _) (allHoldFrom_leaves _ _ _)

end Recovery

/-! ### Steps and runs -/

theorem Job.footprint_of_error {job : Job} (offset : Nat) (node : Node) (error : node.info.hasError = true) :
    job.Footprint offset node := by
  intro _ clean
  rw [error] at clean
  cases clean

/-- What holds of a machine that parses from scratch: the nodes on its stack leave their footprints, and
whatever lies on top of the stack without an error can be built again. -/
structure Machine.Tracked (job : Job) (machine : Machine) : Prop where
  traced : machine.stack.Traced job.Footprint
  replays : ∀ token, machine.LooksTo job token → ∀ top below, machine.stack = top ++ below →
    (∀ entry, entry ∈ top → entry.element.hasError = false) → job.Replays token top below

namespace Machine

variable {job : Job} {machine : Machine}

section Steps

variable (sound : job.Sound) (reports : job.Reports)

include sound reports

/-- With an error on top of the stack there is nothing to be built again. -/
theorem Tracked.of_faulty (fits : machine.Fits job) (traced : machine.stack.Traced job.Footprint)
    (faulty : machine.stack.Faulty) : machine.Tracked job := by
  refine ⟨traced, ?_⟩
  intro token looks top below shape clean
  obtain ⟨first, rest, stack, error⟩ := faulty
  cases top with
  | nil =>
      rw [List.nil_append] at shape
      rw [← shape]
      refine .nil sound reports ?_ ?_
      · rw [fits.stop_eq]
        exact fits.inside
      · rw [fits.stop_eq]
        exact looks.lexed
  | cons entry others =>
      rw [stack] at shape
      cases shape
      have impossible := clean first List.mem_cons_self
      rw [error] at impossible
      cases impossible

theorem start_tracked (serial : Nat) : (start none serial).Tracked job := by
  refine ⟨.empty, ?_⟩
  intro token looks top below shape _
  obtain ⟨rfl, rfl⟩ := List.append_eq_nil_iff.mp shape.symm
  exact .nil sound reports (Nat.zero_le _) looks.lexed

theorem shift_tracked (fits : machine.Fits job) (tracked : machine.Tracked job) {token : LexedToken}
    (looks : machine.LooksTo job token) {target : StateId}
    (acts : job.table.action machine.stack.state token.kind = .shift target)
    (after : ((machine.decidesOn token).shiftToken target token).Fits job) :
    ((machine.decidesOn token).shiftToken target token).Tracked job := by
  refine ⟨tracked.traced.cons (fun impossible => by cases impossible) (.token trivial)
    (Element.holdsFrom_token _ _), ?_⟩
  intro next looksNext top below shape clean
  change machine.stack.push target (.token (token.toGreen machine.nextSerial)) = top ++ below at shape
  cases top with
  | nil =>
      rw [List.nil_append] at shape
      have stop : below.stop = token.stop := by
        rw [← shape]
        exact after.stop_eq
      refine .nil sound reports ?_ ?_
      · rw [stop]
        exact after.inside
      · rw [stop]
        exact looksNext.lexed
  | cons entry top =>
      obtain ⟨rfl, stackIs⟩ := List.cons.inj shape
      have ending : machine.position = below.stop + totalLength top := by
        rw [← fits.stop_eq, stackIs]
        exact ParseStack.Follows.stop_append top below (stackIs ▸ fits.follows)
      have cleanTop := fun other member => clean other (List.mem_cons_of_mem _ member)
      have actsHere : job.table.action (ParseStack.state (top ++ below)) token.kind = .shift target := by
        rw [← show machine.stack = top ++ below from stackIs]
        exact acts
      refine .shift sound reports (tracked.replays token looks top below stackIs cleanTop) ?_ ?_ ?_
        actsHere looksNext.lexed looksNext.due _ _
      · exact fun other member => fits.sound other (by rw [stackIs]; exact List.mem_append_left _ member)
      · rw [← ending]
        exact looks.lexed
      · rw [← ending]
        exact fits.inside

end Steps

/-! ### Reductions -/

namespace Reduces

variable {token : LexedToken} {production : ProductionInfo} {taken : List StackEntry} {below : ParseStack}
  {target : StateId} {node : Node} (reduces : machine.Reduces job token production taken below target node)

include reduces

/-- Where no error lies on top, the new node and what is left above some part of the stack can be built
again. An extra among the entries of the node would be an error in it. -/
theorem replays (sound : job.Sound) (reports : job.Reports) (fits : machine.Fits job)
    (tracked : machine.Tracked job) (looks : machine.LooksTo job token)
    (clear : ParseStack.Clear machine.stack) (clean : node.info.hasError = false)
    {mid : List StackEntry} {bottom : ParseStack} (shape : below = mid ++ bottom)
    (cleanMid : ∀ entry, entry ∈ mid → entry.element.hasError = false) (offset : Nat) :
    job.Replays token (⟨target, node.element, false, offset⟩ :: mid) bottom := by
  obtain ⟨id, acts, found⟩ := reduces.acts
  have whole : machine.stack = taken ++ mid ++ bottom := by
    rw [List.append_assoc, ← shape, ← reduces.core, clear.dropWhile]
  have cleanTaken : ∀ entry, entry ∈ taken → entry.element.hasError = false := by
    rw [reduces.hasError_eq tracked.traced.ropeNamed] at clean
    exact fun entry member => anyError_contents clean entry (List.mem_reverse.mpr member)
  have plain : ∀ entry, entry ∈ taken → entry.extra = false := by
    intro entry member
    cases extra : entry.extra with
    | false => rfl
    | true =>
        have error := tracked.traced.erroneous entry (reduces.among.1 entry member) extra
        rw [cleanTaken entry member] at error
        cases error
  have counted : taken.length = production.length := by
    rw [← reduces.counted]
    unfold ParseStack.plain
    rw [List.filter_eq_self.mpr (fun entry member => by rw [plain entry member]; rfl)]
  have follows : ParseStack.Follows job.table (taken ++ mid ++ bottom) := whole ▸ fits.follows
  have ending : machine.position = bottom.stop + totalLength (taken ++ mid) := by
    rw [← fits.stop_eq, whole]
    exact follows.stop_append _ _
  have stopMid : ParseStack.stop (mid ++ bottom) = bottom.stop + totalLength mid := by
    rw [List.append_assoc] at follows
    exact ParseStack.Follows.stop_append mid bottom (follows.lower taken)
  have cleanTop : ∀ entry, entry ∈ taken ++ mid → entry.element.hasError = false := by
    intro entry member
    rcases List.mem_append.mp member with first | rest
    · exact cleanTaken entry first
    · exact cleanMid entry rest
  have built := reduces.built
  have assembled := reduces.assembled
  have goes := reduces.goes
  rw [shape] at built assembled goes
  rw [whole] at acts built assembled clear
  exact .reduce sound reports (tracked.replays token looks _ _ whole cleanTop) plain clear
    (by rw [← ending]; exact looks.lexed) (by rw [← ending]; exact fits.inside) stopMid acts found counted
    goes rfl built assembled reduces.length_eq offset

/-- The new node leaves its footprint, unless there are extras above it. -/
theorem footprint (sound : job.Sound) (reports : job.Reports) (fits : machine.Fits job)
    (tracked : machine.Tracked job) (looks : machine.LooksTo job token) (ordinary : node.height = 0) :
    job.Footprint below.stop node := by
  obtain ⟨serial, children, made⟩ := reduces.assembled.made ordinary
  intro nonempty clean solid
  have clear : ParseStack.Clear machine.stack := by
    rcases fits.follows.trailing with ⟨none, _⟩ | ⟨top, rest, _, _, trailing, _⟩
    · exact .of_takeWhile none
    · rw [made] at solid
      unfold Node.make ParseStack.reductionOrigin at solid
      rw [trailing] at solid
      cases solid
  have replays := reduces.replays sound reports fits tracked looks clear clean (List.nil_append below).symm
    (fun _ none => absurd none List.not_mem_nil) 0
  exact replays.footprint reduces.sound made rfl rfl rfl nonempty clean solid

end Reduces

section Steps

variable (sound : job.Sound) (reports : job.Reports)

include sound reports

theorem reduce_tracked (fits : machine.Fits job) (tracked : machine.Tracked job) {token : LexedToken}
    (looks : machine.LooksTo job token) {production : ProductionInfo} {taken : List StackEntry}
    {below : ParseStack} {target : StateId} {node : Node}
    (reduces : machine.Reduces job token production taken below target node)
    (after : (machine.reduced token below target node).Fits job) :
    (machine.reduced token below target node).Tracked job := by
  have belowTraced := tracked.traced.subset reduces.among.2
  have takenTraced := tracked.traced.subset reduces.among.1
  have coreFollows : ParseStack.Follows job.table (taken ++ below) := reduces.core ▸ fits.follows.core.1
  have coreHeld : ParseStack.Held job.Footprint (taken ++ below) := by
    intro entry member
    rcases List.mem_append.mp member with first | rest
    · exact takenTraced.held entry first
    · exact belowTraced.held entry rest
  have pushed : ParseStack.Traced job.Footprint (below.push target node.element) :=
    belowTraced.cons (fun impossible => by cases impossible)
      (reduces.assembled.ropeNamed (fun entry member => takenTraced.ropeNamed entry (List.mem_reverse.mp member)))
      (reduces.assembled.holdsFrom _ _ (ParseStack.Held.contents taken coreFollows coreHeld)
        (reduces.footprint sound reports fits tracked looks))
  rcases fits.follows.trailing with ⟨none, _⟩ | ⟨top, rest, shape, extra, trailing, _⟩
  · have stackIs : (machine.reduced token below target node).stack = below.push target node.element := by
      unfold reduced
      rw [none]
      rfl
    refine ⟨stackIs ▸ pushed, ?_⟩
    intro other looksToo top bottom shape clean
    have same : other = token := looksToo.unique (.of_pending rfl rfl looks.lexed)
    subst same
    cases top with
    | nil =>
        rw [List.nil_append] at shape
        rw [← shape]
        refine .nil sound reports ?_ ?_
        · rw [after.stop_eq]
          exact after.inside
        · rw [after.stop_eq]
          exact looksToo.lexed
    | cons entry mid =>
        rw [stackIs] at shape
        obtain ⟨rfl, belowIs⟩ := List.cons.inj shape
        exact reduces.replays sound reports fits tracked looks (.of_takeWhile none)
          (clean _ List.mem_cons_self) belowIs (fun other member => clean other (List.mem_cons_of_mem _ member)) _
  · have stackIs : (machine.reduced token below target node).stack =
        { top with state := target } :: below.push target node.element := by
      unfold reduced
      rw [trailing]
      rfl
    have member : top ∈ machine.stack := by
      rw [shape]
      exact List.mem_cons_self
    have error := tracked.traced.erroneous top member extra
    refine .of_faulty sound reports after ?_ ⟨_, _, stackIs, error⟩
    rw [stackIs]
    exact pushed.cons (fun _ => error) (tracked.traced.ropeNamed top member) (tracked.traced.held top member)

/-- Whatever a machine that parses from scratch does, the nodes on its stack leave their footprints. -/
theorem does_tracked (declared : job.table.Declared) (fits : machine.Fits job)
    (tracked : machine.Tracked job) {token : LexedToken} (looks : machine.LooksTo job token) {next : Machine}
    (does : machine.Does job token (.inl next)) (after : next.Fits job) : next.Tracked job := by
  generalize answerIs : Sum.inl next = answer at does
  cases does with
  | shift acts =>
      cases answerIs
      exact shift_tracked sound reports fits tracked looks acts after
  | reduce acts reduced =>
      cases answerIs
      obtain ⟨production, taken, below, target, node, reduces, rfl⟩ :=
        reduce_reduces sound declared fits acts reduced
      exact reduce_tracked sound reports fits tracked looks reduces after
  | accept => cases answerIs
  | @repair repair here =>
      cases answerIs
      obtain ⟨traced, faulty⟩ :=
        Recovery.apply_traced Job.footprint_of_error (fits.decidesOn token) tracked.traced here
      exact .of_faulty sound reports after traced faulty
  | giveUp =>
      have here : token.FitsAt job.table job.text machine.position :=
        (Job.lex_fits sound fits.inside looks.lexed).at
      obtain ⟨traced, faulty⟩ :=
        Recovery.giveUp_traced Job.footprint_of_error (fits.decidesOn token) tracked.traced here answerIs.symm
      exact .of_faulty sound reports after traced faulty

omit sound reports in
theorem does_root (fits : machine.Fits job) (tracked : machine.Tracked job) {token : LexedToken} {root : Node}
    (does : machine.Does job token (.inr root)) : AllHoldFrom job.Footprint 0 root.children := by
  have lastHolds : ∀ (last : Option Green.Token) (offset : Nat),
      AllHoldFrom job.Footprint offset (ParseStack.endChild last) := by
    intro last offset
    cases last with
    | none => exact allHoldFrom_nil
    | some leaf => exact allHoldFrom_cons.mpr ⟨Element.holdsFrom_token _ _, allHoldFrom_nil⟩
  generalize answerIs : Sum.inr root = answer at does
  cases does with
  | shift => cases answerIs
  | reduce => cases answerIs
  | accept =>
      cases answerIs
      change AllHoldFrom job.Footprint 0 ((gathered machine.stack).2 ++ _)
      exact allHoldFrom_append.mpr
        ⟨allHoldFrom_gathered machine.stack fits.follows fits.sound tracked.traced.held, lastHolds _ _⟩
  | repair => cases answerIs
  | giveUp =>
      unfold Recovery.giveUp at answerIs
      split at answerIs
      · cases answerIs
        change AllHoldFrom job.Footprint 0
          (machine.stack.reverse.flatMap (fun entry => splicedIntoError job.table entry.element) ++ _)
        rw [← List.flatMap_map]
        refine allHoldFrom_append.mpr ⟨?_, lastHolds _ _⟩
        refine allHoldFrom_errorChildren _ _ ?_ ?_
        · intro element member
          obtain ⟨entry, among, same⟩ := List.mem_map.mp member
          exact same ▸ fits.sound entry (List.mem_reverse.mp among)
        · exact ParseStack.Held.contents machine.stack
            ((List.append_nil machine.stack).symm ▸ fits.follows)
            ((List.append_nil machine.stack).symm ▸ tracked.traced.held)
      · cases answerIs

theorem run_footprints (declared : job.table.Declared) (fuel : Nat) {machine : Machine} {root : Node}
    (fits : machine.Fits job) (unaided : machine.Unaided job) (tracked : machine.Tracked job)
    (done : run job fuel machine = .ok root) : AllHoldFrom job.Footprint 0 root.children := by
  refine run_induction (fun machine => machine.Fits job ∧ machine.Unaided job ∧ machine.Tracked job)
    (fun root => AllHoldFrom job.Footprint 0 root.children) ?_ ?_ fuel ⟨fits, unaided, tracked⟩ done
  · rintro machine next ⟨fits, unaided, tracked⟩ stepped
    obtain ⟨token, looks, does⟩ := unaided.does sound fits stepped
    have nextFits := step_fits sound fits stepped
    exact ⟨nextFits, does.unaided unaided looks, does_tracked sound reports declared fits tracked looks does nextFits⟩
  · rintro machine root ⟨fits, unaided, tracked⟩ stepped
    obtain ⟨token, looks, does⟩ := unaided.does sound fits stepped
    exact does_root fits tracked does

end Steps

end Machine

end IncrementalParsing
