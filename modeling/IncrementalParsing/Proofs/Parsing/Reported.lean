import IncrementalParsing.Proofs.Parsing.Grammatical
import IncrementalParsing.Proofs.Parsing.Reachable
import IncrementalParsing.Proofs.Parsing.Unaided
import IncrementalParsing.Proofs.Tree.ErrorNodes

/-!
Errors are reported exactly when recovery ran. There is no error on a stack until a machine recovers for the
first time, since only what the grammar knows is shifted and only its nonterminals are reduced to. From then on
there is one: recovery leaves an error node on the stack, reductions take it into their nodes, and further
recovery takes it into error nodes. So the root has an error, and then there is an error node to report.
-/

namespace IncrementalParsing

open Green

/-! ### Errors on a stack -/

namespace ParseStack

def hasError (entries : List StackEntry) : Bool := entries.any (·.element.hasError)

def Tells (entries : List StackEntry) : Prop :=
  ∀ entry, entry ∈ entries → entry.element.Everywhere Element.Tells ∧ ¬ entry.element.IsStray

theorem anyError_contents_eq (entries : List StackEntry) : anyError (contents entries) = hasError entries := by
  induction entries with
  | nil => rfl
  | cons entry rest ih => rw [contents_cons, anyError_cons, ih, hasError, hasError, List.any_cons]

theorem hasError_append (left right : List StackEntry) :
    hasError (left ++ right) = (hasError left || hasError right) := List.any_append

theorem Tells.named {entries : List StackEntry} (tells : Tells entries) :
    ∀ entry, entry ∈ entries → entry.element.Everywhere Element.RopeNamed :=
  fun entry member => (tells entry member).1.mono (fun _ here => here.ropeNamed)

theorem Tells.subset {entries others : List StackEntry} (tells : Tells entries)
    (among : ∀ entry, entry ∈ others → entry ∈ entries) : Tells others :=
  fun entry member => tells entry (among entry member)

theorem Tells.cons {entry : StackEntry} {below : ParseStack} (tells : Tells below)
    (here : entry.element.Everywhere Element.Tells) (plain : ¬ entry.element.IsStray) : Tells (entry :: below) := by
  intro other member
  rcases List.mem_cons.mp member with rfl | rest
  · exact ⟨here, plain⟩
  · exact tells other rest

theorem Follows.ne_error {table : Table} (numbered : table.Numbered) (ends : table.EndsOnce) :
    ∀ {stack : ParseStack}, Follows table stack →
    ∀ entry, entry ∈ stack → entry.extra = false → entry.element.kind ≠ .error
  | [], _, _, member, _ => absurd member List.not_mem_nil
  | top :: below, follows, found, member, plain => by
      rcases List.mem_cons.mp member with rfl | rest
      · intro error
        have pushed := follows.rests.pushed plain
        have terminal : table.isTerminal .error = true :=
          decide_eq_true (Nat.lt_of_lt_of_le (by decide) numbered.reserved)
        rw [error] at pushed
        unfold Table.successor at pushed
        rw [terminal, if_pos rfl] at pushed
        split at pushed
        · rename_i target shifts
          exact ends.ne_error terminal shifts rfl
        · cases pushed
      · exact Follows.ne_error numbered ends follows.tail found rest plain

end ParseStack

namespace Recovery

variable {job : Job}

theorem leaves_tell (serial : Nat) (tokens : List LexedToken) :
    ∀ element, element ∈ leaves serial tokens → element.Everywhere Element.Tells := by
  intro element member
  obtain ⟨entry, _, rfl⟩ := List.mem_map.mp member
  exact .token trivial

theorem pushError_tells (machine : Machine) (elements : List Element) (examinedEnd : Nat)
    (tells : ParseStack.Tells machine.stack)
    (each : ∀ element, element ∈ elements → element.Everywhere Element.Tells) :
    ParseStack.Tells (pushError job machine elements examinedEnd).stack ∧
      ParseStack.hasError (pushError job machine elements examinedEnd).stack = true := by
  have pushed : ∀ (all : List Element) (stack : ParseStack) (decisionEnd : Nat), ParseStack.Tells stack →
      (∀ element, element ∈ all → element.Everywhere Element.Tells) →
      let node := ParseStack.errorNode job.table machine.nextSerial all stack.state decisionEnd
      ParseStack.Tells (stack.pushExtra node.element) ∧
        ParseStack.hasError (stack.pushExtra node.element) = true := by
    intro all stack decisionEnd below allTell
    refine ⟨below.cons (Node.tells_make (Or.inl ⟨rfl, rfl⟩) ?_) (Element.not_stray_node _ _), rfl⟩
    intro child member
    obtain ⟨element, among, inside⟩ := List.mem_flatMap.mp member
    exact everywhere_splicedIntoError (allTell element among) child inside
  unfold pushError
  cases shape : machine.stack with
  | nil => exact pushed elements [] _ (shape ▸ tells) each
  | cons top below =>
      rw [shape] at tells
      cases extra : top.extra with
      | true =>
          dsimp only
          rw [if_pos extra]
          refine pushed (top.element :: elements) below _
            (tells.subset (fun _ member => List.mem_cons_of_mem _ member)) ?_
          intro element member
          rcases List.mem_cons.mp member with rfl | others
          · exact (tells top List.mem_cons_self).1
          · exact each element others
      | false =>
          dsimp only
          rw [if_neg (by rw [extra]; exact Bool.false_ne_true)]
          exact pushed elements (top :: below) _ tells each

end Recovery

/-! ### Roots -/

namespace Machine

variable {job : Job} {machine : Machine}

section Gathered

variable {table : Table}

theorem gathered_ne_error (numbered : table.Numbered) (accepting : table.AcceptsStart) {terminal : KindId}
    (isTerminal : table.isTerminal terminal = true) (begun : table.action .start terminal ≠ .accept) :
    ∀ {stack : ParseStack}, stack.Follows table → ParseStack.Sound table stack →
    table.action stack.state terminal = .accept → (gathered stack).1 ≠ .error
  | [], _, _, accepts => absurd accepts begun
  | top :: below, follows, sound, accepts => by
      change table.action top.state terminal = .accept at accepts
      rw [gathered_cons]
      cases extra : top.extra with
      | true =>
          rw [follows.rests.repeats extra] at accepts
          exact gathered_ne_error numbered accepting isTerminal begun follows.tail sound.tail accepts
      | false =>
          have here := sound top List.mem_cons_self
          obtain ⟨start, _⟩ := accepting _ _ _ _ (ParseStack.hasKind_of_sound numbered here)
            (follows.rests.pushed extra) isTerminal accepts
          have nonterminal := isTerminal_startKind numbered
          rw [← start] at nonterminal
          cases shape : top.element with
          | token leaf =>
              rw [shape] at here nonterminal
              exact absurd (here.here.2.1.symm.trans nonterminal) (by decide)
          | node head inner =>
              rw [shape] at nonterminal
              exact numbered.ne_error nonterminal

theorem anyError_gathered : ∀ stack : ParseStack, ParseStack.Sound table stack →
    (∀ entry, entry ∈ stack → entry.extra = false → entry.element.kind ≠ .error) →
    anyError (gathered stack).2 = ParseStack.hasError stack
  | [], _, _ => rfl
  | entry :: below, sound, others => by
      have rest := anyError_gathered below sound.tail
        (fun other member => others other (List.mem_cons_of_mem _ member))
      have here := sound entry List.mem_cons_self
      have other := others entry List.mem_cons_self
      rw [gathered_cons, ParseStack.hasError, List.any_cons, Bool.or_comm, ← ParseStack.hasError, ← rest]
      split
      · rename_i head inner plain shape
        rw [shape] at here other ⊢
        have made : head.info.hasError = (head.kind == .error || anyError inner) := here.here.1.hasError_eq
        rw [beq_eq_false_iff_ne.mpr (show head.kind ≠ .error from other plain), Bool.false_or] at made
        rw [anyError_append]
        exact congrArg _ made.symm
      · rw [anyError_append, anyError_cons, anyError_nil, Bool.or_false]

theorem not_stray_gathered : ∀ stack : ParseStack, ParseStack.Tells stack →
    (∀ entry, entry ∈ stack → entry.extra = false → entry.element.kind ≠ .error) →
    ∀ child, child ∈ (gathered stack).2 → ¬ child.element.IsStray
  | [], _, _, _, member => absurd member List.not_mem_nil
  | entry :: below, tells, others, child, member => by
      have rest := not_stray_gathered below (tells.subset (fun _ among => List.mem_cons_of_mem _ among))
        (fun other among => others other (List.mem_cons_of_mem _ among))
      obtain ⟨here, plain⟩ := tells entry List.mem_cons_self
      have other := others entry List.mem_cons_self
      rw [gathered_cons] at member
      split at member
      · rename_i head inner notExtra shape
        rw [shape] at here other
        rcases List.mem_append.mp member with old | new
        · exact rest child old
        · exact here.here.not_stray (other notExtra) child new
      · rcases List.mem_append.mp member with old | new
        · exact rest child old
        · exact List.mem_singleton.mp new ▸ plain

end Gathered

theorem endChild_tells {token : LexedToken} (serial : Nat) (ended : token.kind = .endOfInput) :
    ∀ child, child ∈ ParseStack.endChild (endToken token serial) →
      child.element.Everywhere Element.Tells ∧ ¬ child.element.IsStray ∧ child.element.hasError = false := by
  intro child member
  unfold endToken at member
  split at member
  · exact absurd member List.not_mem_nil
  · cases List.mem_singleton.mp member
    have plain : ¬ (Element.token (token.toGreen serial)).IsStray :=
      fun stray => absurd (ended.symm.trans stray.2) (by decide)
    exact ⟨.token trivial, plain, Element.hasError_token plain⟩

def EndsTelling (errors : Bool) : Machine ⊕ Node → Prop
  | .inl next => ParseStack.Tells next.stack ∧ ParseStack.hasError next.stack = errors
  | .inr root => root.element.Everywhere Element.Tells ∧ root.info.hasError = errors

theorem toRoot_tells (sound : job.Sound) (accepting : job.table.AcceptsStart) (fits : machine.Fits job)
    (tells : ParseStack.Tells machine.stack) {token : LexedToken} (serial : Nat)
    (isTerminal : job.table.isTerminal token.kind = true)
    (begun : job.table.action .start token.kind ≠ .accept)
    (accepts : job.table.action machine.stack.state token.kind = .accept) :
    EndsTelling (ParseStack.hasError machine.stack)
      (.inr (machine.stack.toRoot job.table (serial + 1) (endToken token serial))) := by
  have numbered : job.table.Numbered := sound.table
  have others := fits.follows.ne_error numbered sound.ends
  have kind := gathered_ne_error numbered accepting isTerminal begun fits.follows fits.sound accepts
  have last := endChild_tells serial (sound.ends.accepts _ _ isTerminal accepts)
  constructor
  · refine Node.tells_make (Or.inr ⟨kind, ?_⟩) ?_
    · intro child member
      rcases List.mem_append.mp member with inside | final
      · exact not_stray_gathered machine.stack tells others child inside
      · exact (last child final).2.1
    · intro child member
      rcases List.mem_append.mp member with inside | final
      · exact everywhere_gathered machine.stack (fun entry among => (tells entry among).1) child inside
      · exact (last child final).1
  · change ((gathered machine.stack).1 == .error ||
      anyError ((gathered machine.stack).2 ++ ParseStack.endChild (endToken token serial))) = _
    have clean : anyError (ParseStack.endChild (endToken token serial)) = false :=
      List.any_eq_false.mpr (fun child member => Bool.eq_false_iff.mp (last child member).2.2)
    rw [beq_eq_false_iff_ne.mpr kind, Bool.false_or, anyError_append, clean, Bool.or_false,
      anyError_gathered machine.stack fits.sound others]

theorem toErrorRoot_tells (tells : ParseStack.Tells machine.stack) {token : LexedToken} (serial : Nat)
    (ended : token.kind = .endOfInput) :
    EndsTelling true (.inr (machine.stack.toErrorRoot job.table (serial + 1) (endToken token serial))) := by
  refine ⟨Node.tells_make (Or.inl ⟨rfl, rfl⟩) ?_, rfl⟩
  intro child member
  rcases List.mem_append.mp member with inside | final
  · obtain ⟨entry, among, below⟩ := List.mem_flatMap.mp inside
    exact everywhere_splicedIntoError (tells entry (List.mem_reverse.mp among)).1 child below
  · exact (endChild_tells serial ended child final).1

/-! ### Steps and runs -/

def Recovers (job : Job) (machine : Machine) : Prop :=
  ∃ token next, machine.lookahead job = .ok (.lexed token, next) ∧
    job.table.action next.stack.state token.kind = .error

theorem recover_tells (tells : ParseStack.Tells machine.stack) {lookahead : LexedToken}
    {answer : Machine ⊕ Node} (done : Recovery.recover job machine lookahead = .ok answer) :
    EndsTelling true answer := by
  cases Recovery.recover_answers done with
  | resumes =>
      refine Recovery.pushError_tells _ _ _ (tells.subset (fun _ member => List.mem_of_mem_drop member)) ?_
      intro element member
      rcases List.mem_append.mp member with popped | skipped
      · obtain ⟨entry, among, rfl⟩ := List.mem_map.mp popped
        exact (tells entry (List.mem_of_mem_take (List.mem_reverse.mp among))).1
      · exact Recovery.leaves_tell _ _ element skipped
  | skips => exact Recovery.pushError_tells _ _ _ tells (Recovery.leaves_tell _ _)
  | ends _ ended => exact toErrorRoot_tells tells _ ended

structure Candid (job : Job) (machine : Machine) : Prop where
  fits : machine.Fits job
  unaided : machine.Unaided job
  tells : ParseStack.Tells machine.stack

section Steps

variable (sound : job.Sound) (declared : job.table.Declared)

include sound

theorem shiftToken_tells (candid : machine.Candid job) {token : LexedToken} (looks : machine.LooksTo job token)
    {target : StateId} (acts : job.table.action machine.stack.state token.kind = .shift target) :
    EndsTelling (ParseStack.hasError machine.stack)
      (.inl ((machine.decidesOn token).shiftToken target token)) := by
  have isTerminal := (Job.lex_fits sound candid.fits.inside looks.lexed).terminal
  have plain : ¬ (Element.token (token.toGreen machine.nextSerial)).IsStray := by
    rintro ⟨_, error⟩
    exact sound.ends.ne_error isTerminal acts error
  refine ⟨candid.tells.cons (.token trivial) plain, ?_⟩
  exact (congrArg (· || _) (Element.hasError_token plain)).trans (Bool.false_or _)

include declared

/-- A reduction takes the errors of the entries into the node. -/
theorem reduce_tells (candid : machine.Candid job) {token : LexedToken} {id : ProductionId}
    (acts : job.table.action machine.stack.state token.kind = .reduce id) {next : Machine}
    (done : (machine.decidesOn token).reduce job id (.lexed token) = .ok next) :
    EndsTelling (ParseStack.hasError machine.stack) (.inl next) := by
  obtain ⟨production, taken, below, target, node, reduces, rfl⟩ :=
    reduce_reduces sound declared candid.fits acts done
  have tells := candid.tells
  obtain ⟨takenAmong, belowAmong⟩ := reduces.among
  have nodeTells : node.element.Everywhere Element.Tells :=
    reduces.assembled.tells (fun entry member => tells entry (takenAmong entry (List.mem_reverse.mp member)))
  have nodeError : node.element.hasError = ParseStack.hasError taken := by
    change node.info.hasError = _
    rw [reduces.hasError_eq tells.named, ParseStack.anyError_contents_eq]
    exact List.any_reverse
  constructor
  · intro entry member
    rcases List.mem_append.mp member with above | rest
    · obtain ⟨extra, among, rfl⟩ := List.mem_map.mp above
      exact tells extra ((List.takeWhile_sublist _).subset among)
    · exact (tells.subset belowAmong).cons nodeTells (Element.not_stray_node _ _) entry rest
  · have whole : machine.stack.takeWhile (·.extra) ++ (taken ++ below) = machine.stack := by
      rw [← reduces.core, List.takeWhile_append_dropWhile]
    have renumbered : ∀ extras : List StackEntry, ParseStack.hasError
        (extras.map (fun entry => { entry with state := target })) = ParseStack.hasError extras := by
      intro extras
      unfold ParseStack.hasError
      rw [List.any_map]
      rfl
    have pushed : ParseStack.hasError (below.push target node.element) =
        (ParseStack.hasError taken || ParseStack.hasError below) := congrArg (· || _) nodeError
    change ParseStack.hasError (_ ++ _) = _
    rw [ParseStack.hasError_append, renumbered, pushed, ← ParseStack.hasError_append,
      ← ParseStack.hasError_append, whole]

variable (accepting : job.table.AcceptsStart)
  (begun : ∀ terminal, job.table.isTerminal terminal = true → job.table.action .start terminal ≠ .accept)

include accepting begun

theorem step_tells (candid : machine.Candid job) {answer : Machine ⊕ Node}
    (done : machine.step job = .ok answer) :
    machine.Recovers job ∧ EndsTelling true answer ∨
      ¬ machine.Recovers job ∧ EndsTelling (ParseStack.hasError machine.stack) answer := by
  obtain ⟨token, looks, _⟩ := candid.unaided.does sound candid.fits done
  rw [step_of_looked looks.lookahead] at done
  have calm : ∀ {action : Action}, job.table.action machine.stack.state token.kind = action →
      action ≠ .error → ¬ machine.Recovers job := by
    rintro action same other ⟨found, next, looked, error⟩
    cases looks.lookahead.symm.trans looked
    exact other (same.symm.trans error)
  have at_ : ∀ {action : Action}, job.table.action machine.stack.state token.kind = action →
      job.table.action (machine.decidesOn token).stack.state token.kind = action := id
  cases acts : job.table.action machine.stack.state token.kind with
  | error =>
      rw [at_ acts] at done
      have decided : ParseStack.Tells (machine.decidesOn token).stack := candid.tells
      exact Or.inl ⟨⟨token, _, looks.lookahead, acts⟩, recover_tells decided done⟩
  | shift target =>
      rw [at_ acts] at done
      cases done
      exact Or.inr ⟨calm acts (by simp), shiftToken_tells sound candid looks acts⟩
  | reduce id =>
      rw [at_ acts] at done
      obtain ⟨next, reduced, done⟩ := bind_ok.mp done
      cases pure_ok.mp done
      exact Or.inr ⟨calm acts (by simp), reduce_tells sound declared candid acts reduced⟩
  | accept =>
      rw [at_ acts] at done
      cases done
      have isTerminal := (Job.lex_fits sound candid.fits.inside looks.lexed).terminal
      exact Or.inr ⟨calm acts (by simp), toRoot_tells sound accepting candid.fits candid.tells _ isTerminal
        (begun _ isTerminal) acts⟩

theorem Candid.next (candid : machine.Candid job) {next : Machine}
    (done : machine.step job = .ok (.inl next)) : next.Candid job := by
  obtain ⟨token, looks, does⟩ := candid.unaided.does sound candid.fits done
  refine ⟨step_fits sound candid.fits done, does.unaided candid.unaided looks, ?_⟩
  rcases step_tells sound declared accepting begun candid done with ⟨_, tells, _⟩ | ⟨_, tells, _⟩
  · exact tells
  · exact tells

theorem run_tells : ∀ (fuel : Nat) {machine : Machine} {root : Node}, machine.Candid job →
    run job fuel machine = .ok root → root.element.Everywhere Element.Tells ∧
      (root.info.hasError = true ↔ ParseStack.hasError machine.stack = true ∨
        ∃ later, Reaches job machine later ∧ later.Recovers job)
  | 0, _, _, _, done => by
      unfold run at done
      cases done
  | fuel + 1, machine, root, candid, done => by
      unfold run at done
      obtain ⟨answer, stepped, done⟩ := bind_ok.mp done
      have step := step_tells sound declared accepting begun candid stepped
      cases answer with
      | inr final =>
          cases pure_ok.mp done
          rcases step with ⟨recovers, tells, error⟩ | ⟨calm, tells, error⟩
          · exact ⟨tells, iff_of_true error (Or.inr ⟨machine, .refl, recovers⟩)⟩
          · refine ⟨tells, ?_⟩
            rw [error]
            refine ⟨Or.inl, ?_⟩
            rintro (before | ⟨later, reached, recovers⟩)
            · exact before
            · rcases reached.cases_head with rfl | ⟨second, impossible, _⟩
              · exact absurd recovers calm
              · cases stepped.symm.trans impossible
      | inl next =>
          obtain ⟨tells, further⟩ := run_tells fuel (candid.next sound declared accepting begun stepped) done
          refine ⟨tells, ?_⟩
          rw [further]
          rcases step with ⟨recovers, _, error⟩ | ⟨calm, _, error⟩
          · exact iff_of_true (Or.inl error) (Or.inr ⟨machine, .refl, recovers⟩)
          · rw [error]
            refine or_congr Iff.rfl ⟨?_, ?_⟩
            · rintro ⟨later, reached, recovers⟩
              exact ⟨later, reached.head stepped, recovers⟩
            · rintro ⟨later, reached, recovers⟩
              rcases reached.cases_head with rfl | ⟨second, same, between⟩
              · exact absurd recovers calm
              · cases stepped.symm.trans same
                exact ⟨later, between, recovers⟩

end Steps

end Machine

/-! ### Trees -/

theorem ParsedTree.Produced.reports {tree : ParsedTree} (produced : tree.Produced) :
    ∃ diagnostics, tree.toTree.Reports diagnostics := by
  obtain ⟨language, accepted, identity, kinds⟩ := produced.exists_language
  exact collect_reports (produced.isRoot accepted.sound identity) accepted.sound.table kinds

/-- Parsing a text calls recovery at some step. -/
def Parser.Recovers (parser : Parser) (limit : Nat) (text : Array UInt8) : Prop :=
  ∃ machine, Machine.Reaches (parser.job limit text) (.start none 0) machine ∧
    machine.Recovers (parser.job limit text)

/-- Whatever the text and the options, recovery was never called if and only if the root has no error, and if
and only if there is nothing to report. And of every tree, also of one that was made by parsing again, one
diagnostic is reported for each error node that lies in no other, with a range within that of the node, and
their ranges follow one another. -/
theorem Parser.errors_reported {parser : Parser} (accepted : parser.language.Accepted) (limit : Nat)
    (text : Array UInt8) :
    (∀ tree, parser.parseWithin limit text = .ok tree →
      (¬ parser.Recovers limit text ↔ tree.root.info.hasError = false) ∧
      (tree.root.info.hasError = false ↔ Diagnostic.collect tree.toTree = .ok [])) ∧
    ∀ tree : ParsedTree, tree.Produced → ∃ diagnostics, tree.toTree.Reports diagnostics := by
  refine ⟨?_, fun tree produced => produced.reports⟩
  intro tree parsed
  have produced : tree.Produced := .parsed accepted parsed
  obtain ⟨root, ran, rootEq, textEq, kinds, identity⟩ := runFrom_ok parsed
  have candid : (Machine.start none 0).Candid (parser.job limit text) :=
    ⟨Parser.Begins.fresh.fits accepted.sound limit, ⟨rfl, fun _ none => by cases none⟩,
      fun _ none => absurd none List.not_mem_nil⟩
  obtain ⟨tells, errors⟩ := @Machine.run_tells (parser.job limit text) accepted.sound accepted.declared
    accepted.acceptsStart (fun _ isTerminal => accepted.start_ne_accept isTerminal) limit _ root candid ran
  rw [← rootEq] at tells errors
  constructor
  · rw [← Bool.not_eq_true, errors]
    exact not_congr ⟨Or.inr, fun recovered => recovered.resolve_left Bool.false_ne_true⟩
  · rw [collect_eq_nil (produced.isRoot accepted.sound identity) accepted.sound.table kinds]
    exact (Diagnostic.errorNodesAt_eq_nil tree.placedRoot [] tells (Element.not_stray_node _ _)).symm

namespace Pairs

theorem parses_longer : (parser.parseWithin 100 longer).toOption.isSome = true := by
  rw [parser_eq]
  decide +kernel

def brokenTree : ParsedTree := (parser.parseWithin 100 longer).toOption.get parses_longer

end Pairs

theorem Parser.errors_reported_pairs :
    (¬ Pairs.parser.Recovers 100 Pairs.text ∧ Diagnostic.collect Pairs.tree.toTree = .ok []) ∧
    Pairs.parser.Recovers 100 Pairs.longer ∧
    ∃ diagnostics, Pairs.brokenTree.toTree.Reports diagnostics ∧ diagnostics ≠ [] := by
  have parsed : Pairs.parser.parseWithin 100 Pairs.longer = .ok Pairs.brokenTree := eq_ok_get Pairs.parses_longer
  have error : Pairs.brokenTree.root.info.hasError ≠ false := by
    simp only [Pairs.brokenTree, Pairs.parser_eq]
    decide +kernel
  have solid : Pairs.tree.root.info.hasError = false := by
    rw [Pairs.tree_eq]
    decide +kernel
  obtain ⟨quiet, empty⟩ := (@Parser.errors_reported Pairs.parser Pairs.accepted 100 Pairs.text).1 _ Pairs.parse_eq
  obtain ⟨each, reports⟩ := @Parser.errors_reported Pairs.parser Pairs.accepted 100 Pairs.longer
  obtain ⟨never, nothing⟩ := each _ parsed
  obtain ⟨diagnostics, reported⟩ := reports _ (@ParsedTree.Produced.parsed Pairs.parser _ _ _ Pairs.accepted parsed)
  refine ⟨⟨quiet.mpr solid, empty.mp solid⟩, ?_, diagnostics, reported, ?_⟩
  · exact Classical.not_not.mp (fun calm => error (never.mp calm))
  · rintro rfl
    exact error (nothing.mpr reported.collected)

end IncrementalParsing
