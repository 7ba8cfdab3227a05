import IncrementalParsing.Proofs.Parsing.Reachable
import IncrementalParsing.Proofs.Parsing.Termination

/-!
When parsing returns. A table may reduce forever without consuming anything, as it does for a hidden
rule that is its own first alternative: the chain of reductions then stays above one state. Where no
chain does that, parsing returns a tree for every text.
-/

namespace IncrementalParsing

open Green

/-- Where a language, a scanner and a limit on skipped tokens are given, chains of reductions end on
every path of the automaton if and only if they end above the pairs of states on top of paths. If they
do, so does every simulation of the automaton on a path, and parsing returns a tree for every text whose
extents are offsets, as long as the costs of repairs are sizes. -/
theorem Parser.parse_returns {declaration : Declaration} {scanner : Scanner} {parser : Parser}
    (through : scanner.ThroughCursor) (answers : scanner.Answers)
    (compiled : Language.compile declaration scanner = .ok parser.language)
    (small : parser.language.table.Small) :
    (parser.language.table.Settling ↔ ∀ states terminal, parser.language.table.Path states →
      parser.language.table.isTerminal terminal = true →
      ∃ last, parser.language.table.Settles terminal states last) ∧
    (parser.language.table.Settling → ∀ states terminal, parser.language.table.Path states →
      parser.language.table.isTerminal terminal = true →
      ∃ answer, Eventually
        (fun limit => Recovery.canContinueFrom parser.language.table terminal limit states) answer) ∧
    (parser.language.table.Settling → ∀ text, parser.Measures text → (Machine.start none 0).Roomy parser text →
      ∃ tree, Eventually (fun limit => parser.parseWithin limit text) tree) := by
  have sound := Language.compile_sound through compiled
  obtain ⟨items, chart⟩ := sound.chart small
  refine ⟨Table.settling_iff sound.table chart, ?_, ?_⟩
  · intro settling states terminal path isTerminal
    obtain ⟨last, settles⟩ := settling.settles sound.table chart isTerminal _ states (Nat.le_refl _) path
    obtain ⟨answer, least, answered, _⟩ :=
      Recovery.canContinueFrom_settles sound.table chart isTerminal path settles
    exact ⟨answer, least, answered⟩
  · intro settling text measures roomy
    have ready : parser.Ready text :=
      ⟨sound, Language.compile_complete answers compiled, small, settling, measures⟩
    have fits : (Machine.start none 0).Fits (parser.job 0 text) :=
      Machine.start_fits 0 (fun _ none => by cases none)
    have plain : (Machine.start none 0).Plain parser text :=
      ⟨fits, rfl, (fun _ none => by cases none), (fun _ none => by cases none)⟩
    obtain ⟨root, least, runs⟩ := plain.returns ready _ _ (Nat.le_refl _) roomy
    have isRoot := Machine.run_fits (parser.job least text) sound least
      (Parser.Begins.fits .fresh sound least) (runs least least (Nat.le_refl _) (Nat.le_refl _))
    refine ⟨⟨⟨root, text, parser.language.table.kinds⟩, parser.language.id, root.head.serial + 1⟩, least,
      fun limit enough => ?_⟩
    exact bind_ok.mpr ⟨root, runs limit limit enough enough,
      bind_ok.mpr ⟨⟨root, text, parser.language.table.kinds⟩, if_pos ⟨isRoot.length_eq, measures.small⟩, rfl⟩⟩

namespace Machine

/-- Whether a machine comes to a root within some number of steps, the highest cost of a repair being a size at
every step. -/
def endsRoomy (job : Job) : Nat → Machine → Bool
  | 0, _ => false
  | fuel + 1, machine =>
      decide (job.maxSkipped + machine.stack.length < sizeLimit) &&
        match machine.step job with
        | .ok (.inl next) => endsRoomy job fuel next
        | .ok (.inr _) => true
        | .error _ => false

theorem Reaches.room {job : Job} {limit : Nat} (le : job.stepLimit ≤ limit) : ∀ {fuel : Nat} {first last : Machine},
    first.endsRoomy job fuel = true → Reaches (job.within limit) first last →
    job.maxSkipped + last.stack.length < sizeLimit
  | 0, _, _, ends, _ => by cases ends
  | fuel + 1, first, last, ends, reached => by
      unfold endsRoomy at ends
      obtain ⟨room, ends⟩ := Bool.and_eq_true_iff.mp ends
      rcases reached.cases_head with rfl | ⟨second, stepped, further⟩
      · exact of_decide_eq_true room
      · split at ends
        · rename_i next here
          have same := (step_carries le first _ here).symm.trans stepped
          cases same
          exact further.room le ends
        · rename_i root here
          have same := (step_carries le first _ here).symm.trans stepped
          cases same
        · cases ends

theorem roomy_of_endsRoomy {parser : Parser} {text : Array UInt8} {first : Machine} {limit fuel : Nat}
    (ends : first.endsRoomy (parser.job limit text) fuel = true) : first.Roomy parser text := by
  intro other later reached
  have longer : Reaches (parser.job (max other limit) text) first later := reached.within (Nat.le_max_left other limit)
  exact Reaches.room (Nat.le_max_right other limit) ends longer

end Machine

namespace Pairs

theorem measures {text : Array UInt8} (short : text.size + 2 < offsetLimit) : parser.Measures text :=
  ClassScanner.measures (eq_ok_get compiles) short

theorem settling : parser.language.table.Settling := by
  refine Table.settling_of_within accepted.sound.framed 8 ?_
  rw [parser_eq]
  decide +kernel

theorem roomy : (Machine.start none 0).Roomy parser longer := by
  have ends : (Machine.start none 0).endsRoomy (parser.job 100 longer) 100 = true := by
    rw [parser_eq]
    decide +kernel
  exact Machine.roomy_of_endsRoomy ends

end Pairs

theorem Parser.parse_returns_pairs :
    Pairs.parser.language.table.Settling ∧ Pairs.parser.Measures Pairs.longer ∧
      (Machine.start none 0).Roomy Pairs.parser Pairs.longer ∧
      ∃ tree, Eventually (fun limit => Pairs.parser.parseWithin limit Pairs.longer) tree :=
  ⟨Pairs.settling, Pairs.measures (by decide), Pairs.roomy,
    (Parser.parse_returns (ClassScanner.toScanner_throughCursor _) (ClassScanner.toScanner_answers _)
      (eq_ok_get Pairs.compiles) Pairs.small).2.2 Pairs.settling Pairs.longer (Pairs.measures (by decide)) Pairs.roomy⟩

/-! ### An endless chain -/

namespace Machine

def isCalm (job : Job) (machine : Machine) : Bool :=
  match machine.lookahead job with
  | .ok (.lexed token, next) => job.table.action next.stack.state token.kind != .error
  | _ => false

theorem step_of_isCalm {parser : Parser} {text : Array UInt8} {machine : Machine}
    (calm : machine.isCalm (parser.job 0 text) = true) (limit : Nat) :
    machine.step (parser.job limit text) = machine.step (parser.job 0 text) := by
  unfold isCalm at calm
  split at calm
  · rename_i token next looked
    have same : machine.lookahead (parser.job limit text) = .ok (.lexed token, next) := looked
    rw [step_of_looked looked, step_of_looked same]
    have alike : (parser.job limit text).table = (parser.job 0 text).table := rfl
    rw [alike]
    cases action : (parser.job 0 text).table.action next.stack.state token.kind with
    | error =>
        rw [action] at calm
        cases calm
    | reduce id => rfl
    | shift target => rfl
    | accept => rfl
  · cases calm

end Machine

/-! A hidden rule that is its own first alternative. -/

namespace Cycle

def declaration : Declaration :=
  { Declaration.empty "cycle" with
    rules := #[("s", .symbol "u"), ("_t", .choice [.symbol "_t", .literal "a"]), ("u", .symbol "_t")] }

theorem compiles : (Language.compile declaration Pairs.scanner).toOption.isSome = true := by
  decide +kernel

def parser : Parser := .ofLanguage ((Language.compile declaration Pairs.scanner).toOption.get compiles)

def text : Array UInt8 := #[97]

def production : ProductionInfo := ⟨⟨4⟩, [.nonterminal ⟨1⟩], [none], .plain⟩

def turning : StateId := ⟨3⟩

theorem turns_back : parser.language.table.action turning .endOfInput = .reduce ⟨1⟩ ∧
    parser.language.table.productions[1]? = some production ∧
    parser.language.table.goto .start production.lhs = some turning := by
  decide +kernel

theorem reduces : parser.language.table.action turning .endOfInput = .reduce ⟨1⟩ := turns_back.1

theorem production_eq : parser.language.table.production ⟨1⟩ = .ok production :=
  requireAt_ok.mpr turns_back.2.1

theorem goes : parser.language.table.goto .start production.lhs = some turning := turns_back.2.2

/-- A machine that is about to reduce the hidden rule to itself at the end of the input. -/
structure Turns (machine : Machine) : Prop where
  stack : ∃ element offset, machine.stack = [⟨turning, element, false, offset⟩]
  pending : ∃ token, machine.pending = some (.lexed token) ∧ token.kind = .endOfInput

theorem Turns.step {machine : Machine} (turns : Turns machine) (limit : Nat) :
    ∃ next, machine.step (parser.job limit text) = .ok (.inl next) ∧ Turns next := by
  obtain ⟨element, offset, shape⟩ := turns.stack
  obtain ⟨token, waiting, ended⟩ := turns.pending
  have reduced : ∃ node : Node, machine.stack.reduce parser.language.table machine.nextSerial production
      ((Lookahead.lexed token).examinedEnd machine.position) token.lexMode =
        .ok [⟨turning, node.element, false, 0⟩] := by
    rw [shape]
    exact ⟨_, ParseStack.reduce_ok.mpr ⟨[⟨turning, element, false, offset⟩], [], turning, _, rfl, goes, rfl, rfl⟩⟩
  obtain ⟨node, reduced⟩ := reduced
  have acts : parser.language.table.action machine.stack.state token.kind = .reduce ⟨1⟩ := by
    rw [shape, ended]
    exact reduces
  exact ⟨_, Machine.step_of_reduce waiting acts production_eq reduced, ⟨_, _, rfl⟩, ⟨token, rfl, ended⟩⟩

theorem Turns.run (limit : Nat) : ∀ (fuel : Nat) {machine : Machine}, Turns machine →
    machine.run (parser.job limit text) fuel = .error .outOfFuel
  | 0, _, _ => rfl
  | fuel + 1, _, turns => by
      obtain ⟨next, stepped, again⟩ := turns.step limit
      unfold Machine.run
      rw [stepped]
      exact Turns.run limit fuel again

/-- Whether a machine is about to reduce the hidden rule to itself. -/
def turnsNow (machine : Machine) : Bool :=
  match machine.stack, machine.pending with
  | [entry], some (.lexed token) =>
      entry.state == turning && !entry.extra && token.kind == .endOfInput
  | _, _ => false

theorem turns_of_turnsNow {machine : Machine} (now : turnsNow machine = true) : Turns machine := by
  unfold turnsNow at now
  split at now
  · rename_i entry token shape waiting
    rw [Bool.and_eq_true, Bool.and_eq_true, beq_iff_eq, beq_iff_eq, Bool.not_eq_true'] at now
    obtain ⟨⟨state, plain⟩, ended⟩ := now
    exact ⟨⟨entry.element, entry.offset, by rw [shape, ← state, ← plain]⟩, ⟨token, waiting, ended⟩⟩
  · cases now

theorem begins_turning : (match Machine.step (parser.job 0 text) (.start none 0) with
    | .ok (.inl first) => Machine.isCalm (parser.job 0 text) (.start none 0) &&
        match first.step (parser.job 0 text) with
        | .ok (.inl second) => first.isCalm (parser.job 0 text) && turnsNow second
        | _ => false
    | _ => false) = true := by
  simp only [parser, Language.compile, Lexer.make, ← List.toArray_range, List.map_toArray]
  decide +kernel

theorem run_start (limit fuel : Nat) :
    Machine.run (parser.job limit text) fuel (.start none 0) = .error .outOfFuel := by
  have begins := begins_turning
  split at begins
  · rename_i first firstStep
    rw [Bool.and_eq_true] at begins
    obtain ⟨calm, begins⟩ := begins
    split at begins
    · rename_i second secondStep
      rw [Bool.and_eq_true] at begins
      have one := (Machine.step_of_isCalm calm limit).trans firstStep
      have two := (Machine.step_of_isCalm begins.1 limit).trans secondStep
      match fuel with
      | 0 => rfl
      | 1 =>
          unfold Machine.run
          rw [one]
          rfl
      | fuel + 2 =>
          unfold Machine.run
          rw [one]
          change Machine.run (parser.job limit text) (fuel + 1) first = _
          unfold Machine.run
          rw [two]
          exact (turns_of_turnsNow begins.2).run limit fuel
    · cases begins
  · cases begins

end Cycle

/-- An accepted language and a text for which parsing does not return, however many steps it takes. -/
theorem Parser.parse_endless : ∃ declaration scanner parser, Scanner.ThroughCursor scanner ∧
    Scanner.Answers scanner ∧ Language.compile declaration scanner = .ok (Parser.language parser) ∧
    parser.language.table.Small ∧
    ∃ text, ∀ limit, parser.parseWithin limit text = .error .outOfFuel := by
  refine ⟨Cycle.declaration, Pairs.scanner, Cycle.parser, ClassScanner.toScanner_throughCursor _,
    ClassScanner.toScanner_answers _, eq_ok_get Cycle.compiles, ?_, Cycle.text, ?_⟩
  · unfold Table.Small
    decide +kernel
  · intro limit
    unfold Parser.parseWithin Parser.runFrom
    rw [Cycle.run_start]
    rfl

end IncrementalParsing
