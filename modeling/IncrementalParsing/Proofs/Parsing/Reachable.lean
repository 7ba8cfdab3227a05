import IncrementalParsing.Proofs.Parsing.Produced

/-!
Machines that runs come to. At every step the stack follows the table and ends where the machine
stands, so that whatever the table reduces can be reduced.
-/

namespace IncrementalParsing

/-- The machines that a run comes to. -/
inductive Machine.Reaches (job : Job) (first : Machine) : Machine → Prop
  | refl : Reaches job first first
  | step {machine next : Machine} : Reaches job first machine → machine.step job = .ok (.inl next) →
      Reaches job first next

/-- The machine after some steps, none of which ends the run. -/
def Machine.after (job : Job) : Nat → Machine → Option Machine
  | 0, machine => some machine
  | count + 1, machine =>
      match machine.step job with
      | .ok (.inl next) => after job count next
      | _ => none

theorem Machine.Reaches.head {job : Job} {first second last : Machine}
    (stepped : first.step job = .ok (.inl second)) (reached : Reaches job second last) :
    Reaches job first last := by
  induction reached with
  | refl => exact .step .refl stepped
  | step _ further ih => exact .step ih further

theorem Machine.Reaches.cases_head {job : Job} {first last : Machine} (reached : Reaches job first last) :
    last = first ∨ ∃ second, first.step job = .ok (.inl second) ∧ Reaches job second last := by
  induction reached with
  | refl => exact Or.inl rfl
  | step _ stepped ih =>
      rcases ih with rfl | ⟨second, started, between⟩
      · exact Or.inr ⟨_, stepped, .refl⟩
      · exact Or.inr ⟨second, started, .step between stepped⟩

theorem Machine.Reaches.after {job : Job} {first : Machine} : ∀ (count : Nat) {machine last : Machine},
    Reaches job first machine → Machine.after job count machine = some last → Reaches job first last
  | 0, _, _, reached, found => by
      cases found
      exact reached
  | count + 1, _, _, reached, found => by
      unfold Machine.after at found
      split at found
      · rename_i next stepped
        exact (reached.step stepped).after count found
      · cases found

theorem Machine.Reaches.ahead_or_behind {job : Job} {other : Machine} : ∀ {count : Nat} {machine last : Machine},
    Machine.after job count machine = some last → Reaches job machine other →
    Reaches job last other ∨ ∃ fewer, fewer ≤ count ∧ Machine.after job fewer other = some last
  | 0, _, _, found, reached => by
      cases found
      exact Or.inl reached
  | count + 1, machine, last, found, reached => by
      rcases reached.cases_head with rfl | ⟨second, stepped, further⟩
      · exact Or.inr ⟨count + 1, Nat.le_refl _, found⟩
      · unfold Machine.after at found
        rw [stepped] at found
        rcases ahead_or_behind found further with ahead | ⟨fewer, le, behind⟩
        · exact Or.inl ahead
        · exact Or.inr ⟨fewer, Nat.le_succ_of_le le, behind⟩

theorem Machine.after_cons {job : Job} {first second last : Machine} {count : Nat}
    (stepped : first.step job = .ok (.inl second)) (found : Machine.after job count second = some last) :
    Machine.after job (count + 1) first = some last := by
  unfold Machine.after
  rw [stepped]
  exact found

theorem Machine.Reaches.exists_after {job : Job} {first last : Machine} (reached : Reaches job first last) :
    ∃ count, Machine.after job count first = some last := by
  have path : ∀ {middle : Machine}, Reaches job first middle → ∀ {count : Nat},
      Machine.after job count middle = some last → ∃ count, Machine.after job count first = some last := by
    intro middle reached
    induction reached with
    | refl => exact fun found => ⟨_, found⟩
    | step _ stepped ih => exact fun found => ih (after_cons stepped found)
  exact path reached (show Machine.after job 0 last = some last from rfl)

theorem Machine.Reaches.fits {job : Job} (sound : job.Sound) {first machine : Machine}
    (reached : Reaches job first machine) (fits : first.Fits job) : machine.Fits job := by
  induction reached with
  | refl => exact fits
  | step _ stepped ih => exact step_fits sound ih stepped

theorem Machine.Reaches.trans {job : Job} {first second third : Machine} (before : Reaches job first second)
    (after : Reaches job second third) : Reaches job first third := by
  induction after with
  | refl => exact before
  | step _ stepped ih => exact .step ih stepped

theorem Machine.Reaches.run {job : Job} {first machine : Machine} (reached : Reaches job first machine) {fuel : Nat}
    {root : Green.Node} (done : Machine.run job fuel first = .ok root) :
    ∃ rest, Machine.run job rest machine = .ok root := by
  induction reached with
  | refl => exact ⟨fuel, done⟩
  | step _ stepped ih =>
      obtain ⟨rest, done⟩ := ih
      cases rest with
      | zero =>
          unfold Machine.run at done
          cases done
      | succ rest =>
          unfold Machine.run at done
          rw [stepped] at done
          exact ⟨rest, done⟩

/-- Whatever a text, an old tree and an edit, in every configuration that a run comes to the stack
follows the table and ends at the position; when the table reduces a production on the lookahead, its
right-hand side is on top of the stack, popping it does not underflow, and there is a state to go to. -/
theorem Parser.stack_follows_table {parser : Parser} (accepted : parser.language.Accepted)
    (small : parser.language.table.Small) {limit : Nat} {text : Array UInt8} {first machine : Machine}
    (begins : parser.Begins text first)
    (reached : Machine.Reaches (parser.job limit text) first machine) :
    machine.stack.Follows parser.language.table ∧ machine.stack.stop = machine.position ∧
      ∀ lookahead next id, machine.lookahead (parser.job limit text) = .ok (lookahead, next) →
        parser.language.table.action next.stack.state lookahead.kind = .reduce id →
        next.stack = machine.stack ∧
        ∃ production, parser.language.table.production id = .ok production ∧
          machine.stack.Reducible parser.language.table production ∧
          ∃ reduced, next.reduce (parser.job limit text) id lookahead = .ok reduced := by
  have sound := accepted.sound
  obtain ⟨items, chart⟩ := sound.chart small
  have fits := reached.fits sound (begins.fits sound limit)
  refine ⟨fits.follows, fits.stop_eq, ?_⟩
  intro lookahead next id looked reduces
  have ahead := Machine.lookahead_fits (parser.job limit text) sound fits looked
  have terminal := ahead.lookahead.terminal sound
  obtain ⟨production, found, reducible⟩ := ahead.fits.follows.reducible sound.table chart
    ahead.fits.sound terminal reduces
  have known := sound.table.lhs production (Array.mem_of_getElem? (requireAt_ok.mp found))
  obtain ⟨stack, reduced⟩ := reducible.reduces known.2 ahead.fits.follows ahead.fits.sound
    next.nextSerial (lookahead.examinedEnd next.position) lookahead.lexMode
  refine ⟨ahead.stack_eq, production, found, ahead.stack_eq ▸ reducible, ?_⟩
  exact ⟨_, bind_ok.mpr ⟨production, found, bind_ok.mpr ⟨stack, reduced, rfl⟩⟩⟩

namespace Pairs

def insertion : InputEdit := .ofOffsets 3 3 5

def again : Machine :=
  .start (some (ReuseCursor.start tree.root (Change.narrow insertion tree.text longer))) tree.serialBound

theorem insertion_valid : insertion.validate tree.text.size longer.size = .ok () :=
  eq_ok_of_toOption (by rw [tree_eq]; decide +kernel)

theorem goes_on : (Machine.after (parser.job 100 longer) 6 again).isSome = true := by
  simp only [again, tree_eq, parser_eq]
  decide +kernel

end Pairs

/-- A run over an edited text, some steps after its beginning. -/
theorem Parser.stack_follows_table_pairs :
    let machine := (Machine.after (Pairs.parser.job 100 Pairs.longer) 6 Pairs.again).get Pairs.goes_on
    machine.stack.Follows Pairs.language.table ∧ machine.stack.stop = machine.position := by
  have begins : Pairs.parser.Begins Pairs.longer Pairs.again :=
    .again Pairs.produced Pairs.compatible Pairs.insertion_valid
  have reached := Machine.Reaches.refl.after 6 (Option.some_get Pairs.goes_on).symm
  obtain ⟨follows, stop, _⟩ := Parser.stack_follows_table Pairs.accepted Pairs.small begins reached
  exact ⟨follows, stop⟩

end IncrementalParsing
