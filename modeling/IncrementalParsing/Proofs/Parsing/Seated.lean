import IncrementalParsing.Proofs.Parsing.Grammatical
import IncrementalParsing.Proofs.Parsing.Offers
import Mathlib.Data.List.TakeWhile

/-!
Where nodes may be pushed again. The state in which a node was begun has a way on over the kind of the node, which
is how a tree that is parsed again may push the node there. And a node has no hidden node among its children,
unless it is a rope.
-/

namespace IncrementalParsing

open Green

/-- An element that does not give way to its children in the node around it. -/
def Green.Element.Shown (table : Table) (element : Element) : Prop :=
  element.isToken = true ∨ element.isRope = true ∨ table.isHidden element.kind = false

def Green.Element.Seated (table : Table) : Element → Prop
  | .token _ => True
  | .node head children =>
      (head.info.ropeHeight = 0 → head.kind ≠ .error → (table.goto head.info.preState head.kind).isSome = true) ∧
        ∀ child, child ∈ children → child.element.Shown table

namespace ParseStack

structure Seated (table : Table) (stack : ParseStack) : Prop where
  elements : ∀ entry, entry ∈ stack → entry.element.Everywhere (Element.Seated table)
  extras : ∀ entry, entry ∈ stack → entry.extra = true → entry.element.Shown table

end ParseStack

section Contributions

variable {table : Table}

theorem shown_spliced {element : Element} (seated : element.Everywhere (Element.Seated table))
    (field : Option FieldId) : ∀ child, child ∈ spliced table field element → child.element.Shown table := by
  intro child member
  cases element with
  | token leaf =>
      cases List.mem_singleton.mp member
      exact Or.inl rfl
  | node head children =>
      unfold spliced at member
      dsimp only at member
      split at member
      · obtain ⟨inner, among, rfl⟩ := List.mem_map.mp member
        exact seated.here.2 inner among
      · rename_i stays
        cases List.mem_singleton.mp member
        right
        rw [Bool.and_eq_true, decide_eq_true_eq, not_and_or] at stays
        rcases stays with rope | visible
        · exact Or.inl (bne_iff_ne.mpr rope)
        · exact Or.inr (Bool.eq_false_iff.mpr visible)

theorem shown_splicedIntoError {element : Element} (seated : element.Everywhere (Element.Seated table)) :
    ∀ child, child ∈ splicedIntoError table element → child.element.Shown table := by
  intro child member
  unfold splicedIntoError at member
  split at member
  · obtain ⟨inner, among, rfl⟩ := List.mem_map.mp member
    cases element with
    | token leaf => exact absurd among List.not_mem_nil
    | node head children => exact seated.here.2 inner among
  · exact shown_spliced seated none child member

theorem shown_productionChildren : ∀ (fields : List (Option FieldId)) (entries : List StackEntry),
    (∀ entry, entry ∈ entries → entry.element.Everywhere (Element.Seated table)) →
    ∀ child, child ∈ productionChildren table fields entries → child.element.Shown table
  | _, [], _, _, member => nomatch member
  | fields, entry :: rest, seated, child, member => by
      have here := seated entry List.mem_cons_self
      have others : ∀ other, other ∈ rest → other.element.Everywhere (Element.Seated table) :=
        fun other among => seated other (List.mem_cons_of_mem _ among)
      unfold productionChildren at member
      split at member
      · rcases List.mem_append.mp member with first | later
        · exact shown_spliced here _ child first
        · exact shown_productionChildren _ rest others child later
      · rcases List.mem_append.mp member with first | later
        · exact shown_spliced here _ child first
        · exact shown_productionChildren _ rest others child later

theorem inherited_seated (kind : KindId) : Rope.Inherited kind fun node =>
    0 < node.height ∧ node.element.Everywhere (Element.Seated table) where
  pair first second ofFirst ofSecond := by
    have rope : ∀ node : Node, 0 < node.height → node.element.isRope = true :=
      fun node high => bne_iff_ne.mpr (Nat.ne_of_gt high)
    refine ⟨height_pair_pos _ _ _, .node ⟨fun low => (nomatch low), ?_⟩ ?_⟩
    · intro child member
      rcases List.mem_cons.mp member with rfl | rest
      · exact Or.inr (Or.inl (rope first ofFirst.1))
      · cases List.mem_singleton.mp rest
        exact Or.inr (Or.inl (rope second ofSecond.1))
    · intro child member
      rcases List.mem_cons.mp member with rfl | rest
      · exact ofFirst.2
      · cases List.mem_singleton.mp rest
        exact ofSecond.2
  halves whole first second halved ofWhole := by
    have children : whole.element.children = [⟨none, first.element⟩, ⟨none, second.element⟩] := by
      rw [halved.pair]
      rfl
    have inside := ofWhole.2.inside
    rw [children] at inside
    exact ⟨⟨halved.left_pos, inside _ List.mem_cons_self⟩,
      ⟨halved.right_pos, inside _ (List.mem_cons_of_mem _ List.mem_cons_self)⟩⟩

theorem buildNode_seated {production : ProductionInfo} {entries : List StackEntry} {origin : Origin} {serial : Nat}
    {node : Node} (known : table.HasKind production.lhs) (sound : ParseStack.Sound table entries)
    (goes : (table.goto origin.preState production.lhs).isSome = true)
    (seated : ∀ entry, entry ∈ entries → entry.element.Everywhere (Element.Seated table))
    (built : buildNode table serial production entries origin = .ok node) :
    node.element.Everywhere (Element.Seated table) := by
  have made : ∀ (serial : Nat) (other : Origin), other.preState = origin.preState →
      (Node.make serial production.lhs (productionChildren table production.fields entries) other).element.Everywhere
        (Element.Seated table) := by
    intro serial other same
    refine .node ⟨fun _ _ => ?_, shown_productionChildren _ _ seated⟩ (everywhere_productionChildren _ _ seated)
    change (table.goto other.preState production.lhs).isSome = true
    rw [same]
    exact goes
  have base := made 0 { origin with ropeHeight := 1 } rfl
  cases buildNode_builtBy known sound built with
  | plain => exact made serial origin rfl
  | base => exact base
  | @join first second left right _ _ shape firstIs secondIs leftRope rightRope joined =>
      have firstMember : first ∈ entries := by
        rw [shape]
        exact List.mem_cons_self
      have secondMember : second ∈ entries := by
        rw [shape]
        exact List.mem_cons_of_mem _ List.mem_cons_self
      have inherits := joined.inherits _ (inherited_seated production.lhs)
        ⟨leftRope.height_pos, firstIs ▸ seated first firstMember⟩
        ⟨rightRope.height_pos, secondIs ▸ seated second secondMember⟩
      exact inherits.2

end Contributions

/-! ### Stacks -/

namespace ParseStack

variable {table : Table} {stack : ParseStack}

theorem Seated.subset {entries : ParseStack} (seated : Seated table stack)
    (among : ∀ entry, entry ∈ entries → entry ∈ stack) : Seated table entries :=
  ⟨fun entry member => seated.elements entry (among entry member),
    fun entry member => seated.extras entry (among entry member)⟩

theorem Seated.tail {entry : StackEntry} {below : ParseStack} (seated : Seated table (entry :: below)) :
    Seated table below :=
  seated.subset fun _ member => List.mem_cons_of_mem _ member

theorem Seated.cons {entry : StackEntry} (seated : Seated table stack)
    (here : entry.element.Everywhere (Element.Seated table)) (extra : entry.extra = true → entry.element.Shown table) :
    Seated table (entry :: stack) := by
  constructor
  · intro other member
    rcases List.mem_cons.mp member with rfl | rest
    · exact here
    · exact seated.elements other rest
  · intro other member
    rcases List.mem_cons.mp member with rfl | rest
    · exact extra
    · exact seated.extras other rest

theorem Seated.push {element : Element} (seated : Seated table stack) (state : StateId)
    (here : element.Everywhere (Element.Seated table)) : Seated table (stack.push state element) :=
  seated.cons here fun impossible => by cases impossible

theorem Seated.reduce {production : ProductionInfo} {serial examinedEnd : Nat} {mode : LexMode}
    {reduced : ParseStack} (known : table.HasKind production.lhs) (sound : Sound table stack)
    (follows : Follows table stack) (seated : Seated table stack)
    (done : stack.reduce table serial production examinedEnd mode = .ok reduced) : Seated table reduced := by
  obtain ⟨entries, below, next, node, popped, goes, built, rfl⟩ := reduce_ok.mp done
  obtain ⟨taken, shape, order, _⟩ := popEntries_ok popped
  rw [List.append_nil] at order
  have core : ∀ entry, entry ∈ taken ++ below → entry ∈ stack := by
    intro entry member
    rw [← shape] at member
    exact (List.dropWhile_sublist _).subset member
  have taken_seated : ∀ entry, entry ∈ entries → entry.element.Everywhere (Element.Seated table) := by
    intro entry member
    rw [order] at member
    exact seated.elements entry (core entry (List.mem_append_left _ (List.mem_reverse.mp member)))
  have entriesSound := (follows.core.1.popped sound.core popped).2.2.1
  have here := buildNode_seated known entriesSound (Option.isSome_iff_exists.mpr ⟨next, goes⟩) taken_seated built
  have lower := seated.subset fun entry member => core entry (List.mem_append_right _ member)
  have pushed := lower.push next here
  constructor
  · intro entry member
    rcases List.mem_append.mp member with above | rest
    · obtain ⟨extra, among, rfl⟩ := List.mem_map.mp above
      exact seated.elements extra ((List.takeWhile_sublist _).subset among)
    · exact pushed.elements entry rest
  · intro entry member
    rcases List.mem_append.mp member with above | rest
    · obtain ⟨extra, among, rfl⟩ := List.mem_map.mp above
      exact seated.extras extra ((List.takeWhile_sublist _).subset among)
    · exact pushed.extras entry rest

end ParseStack

/-! ### Steps and runs -/

namespace Recovery

variable {job : Job} (declared : job.table.Declared)

theorem leaves_seated {table : Table} (serial : Nat) (tokens : List LexedToken) :
    ∀ element, element ∈ leaves serial tokens → element.Everywhere (Element.Seated table) := by
  intro element member
  obtain ⟨entry, _, rfl⟩ := List.mem_map.mp member
  exact .token trivial

include declared

theorem pushError_seated (machine : Machine) (elements : List Element) (examinedEnd : Nat)
    (seated : machine.stack.Seated job.table)
    (each : ∀ element, element ∈ elements → element.Everywhere (Element.Seated job.table)) :
    (pushError job machine elements examinedEnd).stack.Seated job.table := by
  have pushed : ∀ (all : List Element) (stack : ParseStack) (decisionEnd : Nat), stack.Seated job.table →
      (∀ element, element ∈ all → element.Everywhere (Element.Seated job.table)) →
      (stack.pushExtra (ParseStack.errorNode job.table machine.nextSerial all stack.state
        decisionEnd).element).Seated job.table := by
    intro all stack decisionEnd below allSeated
    refine below.cons (.node ⟨fun _ other => absurd rfl other, ?_⟩ ?_)
      (fun _ => Or.inr (Or.inr declared.error_visible))
    · intro child member
      obtain ⟨element, among, inside⟩ := List.mem_flatMap.mp member
      exact shown_splicedIntoError (allSeated element among) child inside
    · intro child member
      obtain ⟨element, among, inside⟩ := List.mem_flatMap.mp member
      exact everywhere_splicedIntoError (allSeated element among) child inside
  unfold pushError
  cases shape : machine.stack with
  | nil =>
      rw [shape] at seated
      exact pushed elements [] _ seated each
  | cons top below =>
      rw [shape] at seated
      cases extra : top.extra with
      | true =>
          dsimp only
          rw [if_pos extra]
          refine pushed (top.element :: elements) below _ seated.tail ?_
          intro element member
          rcases List.mem_cons.mp member with rfl | rest
          · exact seated.elements top List.mem_cons_self
          · exact each element rest
      | false =>
          dsimp only
          rw [if_neg (by rw [extra]; exact Bool.false_ne_true)]
          exact pushed elements (top :: below) _ seated each

theorem recover_seated {machine next : Machine} (seated : machine.stack.Seated job.table) {token : LexedToken}
    (done : recover job machine token = .ok (.inl next)) : next.stack.Seated job.table := by
  cases recover_answers done with
  | @resumes repair =>
      refine pushError_seated declared
        { machine with
          stack := machine.stack.drop repair.popped
          position := (repair.skipped.getLast?.map (·.stop)).getD machine.position
          nextSerial := machine.nextSerial + repair.skipped.length } _ _ ?_ ?_
      · exact seated.subset fun _ member => List.mem_of_mem_drop member
      · intro element member
        rcases List.mem_append.mp member with popped | skipped
        · obtain ⟨entry, among, rfl⟩ := List.mem_map.mp popped
          exact seated.elements entry (List.mem_of_mem_take (List.mem_reverse.mp among))
        · exact leaves_seated _ _ element skipped
  | skips =>
      exact pushError_seated declared { machine with position := token.stop, nextSerial := machine.nextSerial + 1 }
        _ _ seated (leaves_seated _ _)

end Recovery

structure Machine.Seated (table : Table) (machine : Machine) : Prop where
  stack : machine.stack.Seated table
  offers : machine.Offers (Element.Seated table)

namespace Machine

variable {job : Job} {machine : Machine}

theorem start_seated {table : Table} {reuse : Option ReuseCursor} (serial : Nat)
    (seated : ∀ cursor, reuse = some cursor → cursor.Everywhere (Element.Seated table)) :
    (start reuse serial).Seated table where
  stack := ⟨fun _ none => absurd none List.not_mem_nil, fun _ none => absurd none List.not_mem_nil⟩
  offers := ⟨fun _ _ none => (by cases none), seated⟩

section Steps

variable (sound : job.Sound) (declared : job.table.Declared)

include sound declared

theorem step_seated (fits : machine.Fits job) (seated : machine.Seated job.table) {next : Machine}
    (done : machine.step job = .ok (.inl next)) : next.Seated job.table := by
  refine ⟨?_, seated.offers.step done⟩
  obtain ⟨lookahead, ahead, looked, responds⟩ := step_responds done
  have looks := lookahead_fits job sound fits looked
  have here := (seated.offers.lookahead looked).1
  have stack : ahead.stack.Seated job.table := looks.stack_eq.symm ▸ seated.stack
  have leaf : ∀ (target : StateId) (leaf : Green.Token), (ahead.stack.push target (.token leaf)).Seated job.table :=
    fun target leaf => stack.push target (.token trivial)
  cases responds with
  | reduce _ reduces =>
      obtain ⟨production, after, found, stackReduced, rfl⟩ := reduce_ok.mp reduces
      have known := (sound.table.lhs production (Array.mem_of_getElem? (requireAt_ok.mp found))).2
      exact stack.reduce known looks.fits.sound looks.fits.follows stackReduced
  | shift => exact leaf _ _
  | shiftReused => exact leaf _ _
  | push => exact stack.push _ (here _ _ rfl)
  | enter => exact stack
  | lex => exact stack
  | recover _ done => exact Recovery.recover_seated declared stack done

end Steps

/-! ### Roots -/

theorem shown_gathered {table : Table} : ∀ stack : ParseStack, stack.Seated table →
    ∀ child, child ∈ (gathered stack).2 → child.element.Shown table
  | [], _, _, member => absurd member List.not_mem_nil
  | entry :: below, seated, child, member => by
      have lower := shown_gathered below seated.tail
      have here := seated.elements entry List.mem_cons_self
      rw [gathered_cons] at member
      split at member
      · rename_i head inner plain shape
        rw [shape] at here
        rcases List.mem_append.mp member with old | new
        · exact lower child old
        · exact here.here.2 child new
      · rename_i other
        rcases List.mem_append.mp member with old | new
        · exact lower child old
        · cases List.mem_singleton.mp new
          cases extra : entry.extra with
          | true => exact seated.extras entry List.mem_cons_self extra
          | false =>
              cases shape : entry.element with
              | token leaf => exact Or.inl rfl
              | node head inner => exact (other head inner extra shape).elim

theorem kind_gathered_append (stack : ParseStack) : ∀ above : ParseStack,
    (∀ entry, entry ∈ above → entry.extra = true) → (gathered (above ++ stack)).1 = (gathered stack).1
  | [], _ => rfl
  | entry :: rest, extras => by
      rw [List.cons_append, gathered_cons, extras entry List.mem_cons_self]
      exact kind_gathered_append stack rest fun other member => extras other (List.mem_cons_of_mem _ member)

end Machine

theorem ParseStack.Follows.state_of_extras {table : Table} {stack : ParseStack} (follows : stack.Follows table)
    (extras : ∀ entry, entry ∈ stack → entry.extra = true) : stack.state = .start := by
  induction follows with
  | empty => rfl
  | entry _ rests ih =>
      exact (rests.repeats (extras _ List.mem_cons_self)).trans
        (ih fun other member => extras other (List.mem_cons_of_mem _ member))

theorem ParseStack.Accepted.goes {table : Table} (numbered : table.Numbered) {stack above below : ParseStack}
    {entry : StackEntry} (accepted : Accepted table stack above entry below) (follows : stack.Follows table) :
    below.state = .start ∧ (table.goto .start table.startKind).isSome = true := by
  have lower := Follows.lower above (accepted.shape ▸ follows)
  have start := lower.tail.state_of_extras accepted.below
  refine ⟨start, ?_⟩
  have pushed := lower.rests.pushed accepted.plain
  rw [start, accepted.start] at pushed
  unfold Table.successor at pushed
  rw [Machine.isTerminal_startKind numbered] at pushed
  exact Option.isSome_iff_exists.mpr ⟨_, pushed⟩

namespace Machine

variable {job : Job} {machine : Machine}

theorem everywhere_endChild {holds : Element → Prop} (leaves : ∀ leaf, holds (.token leaf))
    (last : Option Green.Token) : ∀ child, child ∈ ParseStack.endChild last → child.element.Everywhere holds := by
  intro child member
  obtain ⟨token, _, rfl⟩ := List.mem_map.mp member
  exact .token (leaves token)

theorem isToken_endChild (last : Option Green.Token) :
    ∀ child, child ∈ ParseStack.endChild last → child.element.isToken = true := by
  intro child member
  obtain ⟨token, _, rfl⟩ := List.mem_map.mp member
  rfl

theorem kind_gathered {table : Table} (numbered : table.Numbered) {stack above below : ParseStack}
    {entry : StackEntry} (accepted : ParseStack.Accepted table stack above entry below)
    (sound : ParseStack.Sound table stack) : (gathered stack).1 = table.startKind := by
  rw [accepted.shape, kind_gathered_append _ _ accepted.above, gathered_cons, accepted.plain]
  have start := accepted.start
  cases shape : entry.element with
  | node head inner =>
      rw [shape] at start
      exact start
  | token leaf =>
      have member : entry ∈ stack := by
        rw [accepted.shape]
        exact List.mem_append_right _ List.mem_cons_self
      have terminal := (shape ▸ sound entry member).here.2.1
      rw [shape] at start
      change leaf.kind = table.startKind at start
      rw [start, isTerminal_startKind numbered] at terminal
      cases terminal

theorem toRoot_seated {table : Table} (numbered : table.Numbered) {stack above below : ParseStack}
    {entry : StackEntry} (accepted : ParseStack.Accepted table stack above entry below)
    (follows : stack.Follows table) (sound : ParseStack.Sound table stack) (seated : stack.Seated table) (serial : Nat)
    (last : Option Green.Token) : (stack.toRoot table serial last).element.Everywhere (Element.Seated table) := by
  have goes := (accepted.goes numbered follows).2
  refine .node ⟨fun _ _ => ?_, ?_⟩ ?_
  · change (table.goto .start (gathered stack).1).isSome = true
    rw [kind_gathered numbered accepted sound]
    exact goes
  · intro child member
    rcases List.mem_append.mp member with inside | final
    · exact shown_gathered stack seated child inside
    · exact Or.inl (isToken_endChild last child final)
  · intro child member
    rcases List.mem_append.mp member with inside | final
    · exact everywhere_gathered stack seated.elements child inside
    · exact everywhere_endChild (fun _ => trivial) last child final

theorem toErrorRoot_seated {table : Table} {stack : ParseStack} (seated : stack.Seated table) (serial : Nat)
    (last : Option Green.Token) : (stack.toErrorRoot table serial last).element.Everywhere (Element.Seated table) := by
  refine .node ⟨fun _ other => absurd rfl other, ?_⟩ ?_
  · intro child member
    rcases List.mem_append.mp member with inside | final
    · obtain ⟨entry, among, below⟩ := List.mem_flatMap.mp inside
      exact shown_splicedIntoError (seated.elements entry (List.mem_reverse.mp among)) child below
    · exact Or.inl (isToken_endChild last child final)
  · intro child member
    rcases List.mem_append.mp member with inside | final
    · obtain ⟨entry, among, below⟩ := List.mem_flatMap.mp inside
      exact everywhere_splicedIntoError (seated.elements entry (List.mem_reverse.mp among)) child below
    · exact everywhere_endChild (fun _ => trivial) last child final

/-- How a run ends: a text is accepted, or there is no way on from its last error. -/
inductive EndsWith (job : Job) (machine : Machine) (root : Node) : Prop
  | accepted {above below : ParseStack} {entry : StackEntry} {serial : Nat} {last : Option Green.Token} :
      ParseStack.Accepted job.table machine.stack above entry below →
      root = machine.stack.toRoot job.table serial last → EndsWith job machine root
  | gaveUp {serial : Nat} {last : Option Green.Token} :
      root = machine.stack.toErrorRoot job.table serial last → EndsWith job machine root

section Ends

variable {items : StateId → Lalr.Item → Prop} (sound : job.Sound) (accepting : job.table.AcceptsStart)
  (chart : job.table.Chart items)

include sound accepting chart

theorem step_endsWith (fits : machine.Fits job) {root : Node} (done : machine.step job = .ok (.inr root)) :
    machine.EndsWith job root := by
  obtain ⟨lookahead, ahead, looked, responds⟩ := step_responds done
  have looks := lookahead_fits job sound fits looked
  have same := looks.stack_eq
  cases responds with
  | accept acts =>
      obtain ⟨above, entry, below, accepted⟩ := looks.fits.follows.accepted sound.table chart accepting
        (looks.lookahead.terminal sound) looks.fits.sound acts
      rw [same] at accepted ⊢
      exact .accepted accepted rfl
  | recover _ done =>
      cases Recovery.recover_answers done with
      | ends =>
          rw [same]
          exact .gaveUp rfl

theorem run_seated (declared : job.table.Declared) (fuel : Nat) {machine : Machine} {root : Node}
    (fits : machine.Fits job) (seated : machine.Seated job.table) (done : run job fuel machine = .ok root) :
    root.element.Everywhere (Element.Seated job.table) := by
  refine run_induction (fun machine => machine.Fits job ∧ machine.Seated job.table)
    (fun root => root.element.Everywhere (Element.Seated job.table)) ?_ ?_ fuel ⟨fits, seated⟩ done
  · rintro machine next ⟨fits, seated⟩ stepped
    exact ⟨step_fits sound fits stepped, step_seated sound declared fits seated stepped⟩
  · rintro machine root ⟨fits, seated⟩ stepped
    cases step_endsWith sound accepting chart fits stepped with
    | accepted accepted same =>
        rw [same]
        exact toRoot_seated sound.table accepted fits.follows fits.sound seated.stack _ _
    | gaveUp same =>
        rw [same]
        exact toErrorRoot_seated seated.stack _ _

end Ends

end Machine

/-! ### Trees -/

theorem Language.Sound.seated {left right : Language} (leftSound : left.Sound) (rightSound : right.Sound)
    (same : left.id = right.id) {element : Element} (seated : element.Seated left.table) :
    element.Seated right.table := by
  have agrees := leftSound.agrees rightSound same
  have kinds := (leftSound.same_counts rightSound same).2
  have gotos : left.table.gotos = right.table.gotos :=
    congrArg Fingerprint.gotos (congrArg LanguageId.fingerprint same)
  have goes : ∀ state kind, left.table.goto state kind = right.table.goto state kind := by
    intro state kind
    unfold Table.goto Table.isTerminal Table.nonterminalCount
    rw [agrees.terminals, kinds, gotos]
  cases element with
  | token leaf => exact trivial
  | node head children =>
      refine ⟨fun low other => goes _ _ ▸ seated.1 low other, fun child member => ?_⟩
      have shown := seated.2 child member
      unfold Element.Shown at shown ⊢
      rwa [← agrees.hidden]

theorem ParsedTree.Produced.seated {tree : ParsedTree} (produced : tree.Produced) :
    ∀ {language : Language}, language.Sound → language.table.Small → tree.language = language.id →
      tree.root.element.Everywhere (Element.Seated language.table) := by
  have ends : ∀ {parser : Parser} {limit : Nat} {text : Array UInt8} {tree : ParsedTree} {machine : Machine}
      {language : Language}, parser.language.Accepted → language.Sound → language.table.Small →
      tree.language = language.id → machine.Fits (parser.job limit text) →
      (parser.language.table.Small → machine.Seated parser.language.table) →
      parser.runFrom limit text machine = .ok tree →
      tree.root.element.Everywhere (Element.Seated language.table) := by
    intro parser limit text tree machine language accepted sound small same fits seated done
    obtain ⟨root, ran, rootEq, _, _, identity⟩ := Parser.runFrom_ok done
    have one : parser.language.id = language.id := identity.symm.trans same
    have parserSmall := (accepted.sound.agrees sound one).symm.small small
    obtain ⟨items, chart⟩ := accepted.sound.chart parserSmall
    rw [rootEq]
    exact (@Machine.run_seated (parser.job limit text) items accepted.sound accepted.acceptsStart chart
      accepted.declared limit _ root fits (seated parserSmall) ran).mono
        fun _ here => accepted.sound.seated sound one here
  induction produced with
  | @parsed parser limit text tree accepted done =>
      intro language sound small same
      exact ends accepted sound small same (Machine.start_fits 0 fun _ none => by cases none)
        (fun _ => Machine.start_seated 0 fun _ none => by cases none) done
  | @reparsed parser limit old edit text tree accepted oldProduced done ih =>
      intro language sound small same
      obtain ⟨compatible, valid, ⟨_, rfl⟩ | ⟨_, done⟩⟩ := Parser.reparseWithin_ok done
      · exact ih sound small same
      · have begins : parser.Begins text (.start
            (some (ReuseCursor.start old.root (Change.narrow edit old.text text))) old.serialBound) :=
          .again oldProduced compatible valid
        refine ends accepted sound small same (begins.fits accepted.sound limit) (fun parserSmall => ?_) done
        refine Machine.start_seated _ fun cursor same => ?_
        cases same
        exact ReuseCursor.everywhere_start _ (ih accepted.sound parserSmall compatible)

end IncrementalParsing
