import IncrementalParsing.Proofs.Parsing.Recovery
import IncrementalParsing.Proofs.Parsing.Responses

/-!
What every step of a machine keeps. The stack follows the table, holds sound elements and ends where
the machine stands; the pending lookahead fits there; and the cursor over the old tree stays within it.
A machine that ends does so with a root over the whole text.
-/

namespace IncrementalParsing

open Green

def Lookahead.Fits (job : Job) (position : Nat) : Lookahead → Prop
  | .lexed token => token.FitsAt job.table job.text position
  | .reused element _ => element.Sound job.table ∧ position + element.textLength ≤ job.text.size

structure Machine.Fits (job : Job) (machine : Machine) : Prop where
  follows : machine.stack.Follows job.table
  sound : ParseStack.Sound job.table machine.stack
  stop_eq : machine.stack.stop = machine.position
  inside : machine.position ≤ job.text.size
  pending : ∀ lookahead, machine.pending = some lookahead → lookahead.Fits job machine.position
  reuse : ∀ cursor, machine.reuse = some cursor →
    ∃ oldSize, cursor.Fits job.table oldSize job.text.size

theorem Lookahead.Fits.terminal {job : Job} (sound : job.Sound) {position : Nat} {lookahead : Lookahead}
    (fits : lookahead.Fits job position) : job.table.isTerminal lookahead.kind = true := by
  cases lookahead with
  | lexed token => exact LexedToken.Fits.terminal fits
  | reused element mode =>
      change job.table.isTerminal ((element.firstToken?.map (·.kind)).getD .error) = true
      cases first : element.firstToken? with
      | none => exact decide_eq_true sound.table.reserved
      | some leaf => exact (firstToken?_sound fits.1 first).here.2.1

theorem Table.successor_of_goto {table : Table} {state target : StateId} {kind : KindId}
    (goes : table.goto state kind = some target) : table.successor state kind = some target := by
  unfold Table.successor
  split
  · rename_i terminal
    unfold Table.goto at goes
    rw [if_pos terminal] at goes
    cases goes
  · exact goes

namespace Machine

variable {job : Job} {machine : Machine}

theorem start_fits {reuse : Option ReuseCursor} (serial : Nat)
    (fits : ∀ cursor, reuse = some cursor → ∃ oldSize, cursor.Fits job.table oldSize job.text.size) :
    (start reuse serial).Fits job where
  follows := .empty
  sound := fun _ none => absurd none List.not_mem_nil
  stop_eq := rfl
  inside := Nat.zero_le _
  pending := fun _ none => by cases none
  reuse := fits

/-- The old element on offer is sound and lies within the text, and the machine stays where it is. -/
theorem offer_fits (fits : machine.Fits job) (idle : machine.pending = none) :
    machine.offer.2.Fits job ∧ machine.offer.2.stack = machine.stack ∧
      machine.offer.2.position = machine.position ∧ machine.offer.2.pending = none ∧
      ∀ element, machine.offer.1 = some element →
        element.Sound job.table ∧ machine.position + element.textLength ≤ job.text.size := by
  unfold offer
  split
  · exact ⟨fits, rfl, rfl, idle, fun _ none => by cases none⟩
  · rename_i cursor here
    obtain ⟨oldSize, cursorFits⟩ := fits.reuse cursor here
    obtain ⟨kept, found⟩ := ReuseCursor.candidate_fits cursorFits machine.position
    refine ⟨⟨fits.follows, fits.sound, fits.stop_eq, fits.inside, fits.pending, ?_⟩, rfl, rfl, idle, ?_⟩
    · intro other same
      cases same
      exact ⟨oldSize, kept⟩
    · intro element offered
      obtain ⟨sound, _, within⟩ := found element offered
      exact ⟨sound, within⟩

structure LooksAhead (job : Job) (machine : Machine) (lookahead : Lookahead) (next : Machine) : Prop where
  fits : next.Fits job
  lookahead : lookahead.Fits job next.position
  stack_eq : next.stack = machine.stack
  position_eq : next.position = machine.position
  idle : next.pending = none

theorem lookahead_fits (job : Job) (sound : job.Sound) (fits : machine.Fits job) {lookahead : Lookahead}
    {next : Machine} (done : machine.lookahead job = .ok (lookahead, next)) :
    LooksAhead job machine lookahead next := by
  have moded : ({ machine with mode := some (machine.dueMode job.table) } : Machine).Fits job :=
    ⟨fits.follows, fits.sound, fits.stop_eq, fits.inside, fits.pending, fits.reuse⟩
  cases lookahead_sees done with
  | waiting here =>
      exact ⟨⟨fits.follows, fits.sound, fits.stop_eq, fits.inside, (fun _ none => by cases none), fits.reuse⟩,
        fits.pending lookahead here, rfl, rfl, rfl⟩
  | offered idle here =>
      obtain ⟨offerFits, stackEq, positionEq, stillIdle, offered⟩ := offer_fits moded idle
      exact ⟨offerFits, by rw [positionEq]; exact offered _ here, stackEq, positionEq, stillIdle⟩
  | lexed idle lexed =>
      obtain ⟨offerFits, stackEq, positionEq, stillIdle, _⟩ := offer_fits moded idle
      exact ⟨offerFits, by rw [positionEq]; exact (Job.lex_fits sound fits.inside lexed).at, stackEq, positionEq,
        stillIdle⟩

theorem descend_fits (fits : machine.Fits job) : machine.descend.Fits job := by
  refine ⟨fits.follows, fits.sound, fits.stop_eq, fits.inside, fits.pending, ?_⟩
  intro cursor here
  obtain ⟨before, found, same⟩ := Option.map_eq_some_iff.mp here
  obtain ⟨oldSize, cursorFits⟩ := fits.reuse before found
  exact ⟨oldSize, same ▸ ReuseCursor.descend_fits cursorFits⟩

theorem reduce_fits (sound : job.Sound) (fits : machine.Fits job) {id : ProductionId}
    {lookahead : Lookahead} {next : Machine} (here : lookahead.Fits job machine.position)
    (done : machine.reduce job id lookahead = .ok next) : next.Fits job := by
  obtain ⟨production, stack, found, reduced, rfl⟩ := reduce_ok.mp done
  have known := Array.mem_of_getElem? (requireAt_ok.mp found)
  have kept := ParseStack.reduce_reducedFrom reduced (sound.table.lhs production known) fits.follows
    fits.sound
  refine ⟨kept.follows, kept.sound, kept.stop_eq.trans fits.stop_eq, fits.inside, ?_, fits.reuse⟩
  intro other same
  cases same
  exact here

theorem push_fits (fits : machine.Fits job) (element : Element) {target : StateId} (mode : Option LexMode)
    (serial : Nat) (sound : element.Sound job.table)
    (within : machine.position + element.textLength ≤ job.text.size) (idle : machine.pending = none)
    (reached : job.table.successor machine.stack.state element.kind = some target) :
    Machine.Fits job { machine with
      stack := machine.stack.push target element
      position := machine.position + element.textLength
      mode
      nextSerial := serial } where
  follows := fits.follows.push reached
  sound := ParseStack.sound_cons sound fits.sound
  stop_eq := congrArg (· + element.textLength) fits.stop_eq
  inside := within
  pending := fun _ none => by rw [idle] at none; cases none
  reuse := fits.reuse

theorem successor_of_shift {table : Table} {state target : StateId} {terminal : KindId}
    (isTerminal : table.isTerminal terminal = true)
    (shifts : table.action state terminal = .shift target) :
    table.successor state terminal = some target := by
  unfold Table.successor
  rw [isTerminal, shifts]
  rfl

theorem shiftToken_fits (sound : job.Sound) (fits : machine.Fits job) (idle : machine.pending = none)
    {token : LexedToken} {target : StateId}
    (here : token.FitsAt job.table job.text machine.position)
    (shifts : job.table.action machine.stack.state token.kind = .shift target) :
    (machine.shiftToken target token).Fits job := by
  have proper := sound.ends.ne_endOfInput here.terminal shifts
  have stop := here.stop_eq
  have pushed := push_fits fits (.token (token.toGreen machine.nextSerial)) none
    (machine.nextSerial + 1) (here.sound proper _) (stop ▸ here.stop_le) idle
    (successor_of_shift here.terminal shifts)
  unfold shiftToken
  rw [stop]
  exact pushed

theorem shiftReused_fits (fits : machine.Fits job) (idle : machine.pending = none) {leaf : Token}
    {target : StateId} (sound : (Element.token leaf).Sound job.table)
    (within : machine.position + leaf.textLength ≤ job.text.size)
    (shifts : job.table.action machine.stack.state leaf.kind = .shift target) :
    (machine.shiftReused target leaf).Fits job :=
  push_fits fits (.token leaf) none machine.nextSerial sound within idle
    (successor_of_shift sound.here.2.1 shifts)

/-! ### Recovery -/

theorem apply_fits (sound : job.Sound) (fits : machine.Fits job) {repair : Recovery.Repair}
    (here : repair.Fits job machine.position) : (Recovery.apply job machine repair).Fits job := by
  obtain ⟨stop, tile, resume, _⟩ := here.skipped
  obtain ⟨length, leavesSound⟩ := Recovery.leaves_fit tile machine.nextSerial
  have stopEq := tile.stop_eq
  have split : machine.stack.take repair.popped ++ machine.stack.drop repair.popped = machine.stack :=
    List.take_append_drop _ _
  have ending := ParseStack.Follows.stop_append (machine.stack.take repair.popped)
    (machine.stack.drop repair.popped) (split.symm ▸ fits.follows)
  rw [split, fits.stop_eq] at ending
  have poppedSound : ∀ element, element ∈ (machine.stack.take repair.popped).reverse.map (·.element) →
      element.Sound job.table := by
    intro element member
    obtain ⟨entry, among, same⟩ := List.mem_map.mp member
    exact same ▸ fits.sound entry (List.mem_of_mem_take (List.mem_reverse.mp among))
  obtain ⟨follows, stackSound, newStop⟩ := Recovery.pushError_fits sound
    { machine with
      stack := machine.stack.drop repair.popped
      position := (repair.skipped.getLast?.map (·.stop)).getD machine.position
      nextSerial := machine.nextSerial + repair.skipped.length }
    ((machine.stack.take repair.popped).reverse.map (·.element) ++
      Recovery.leaves machine.nextSerial repair.skipped)
    repair.resume.examinedEnd (fits.follows.drop _) (fits.sound.drop _) (by
      intro element member
      rcases List.mem_append.mp member with popped | skipped
      · exact poppedSound element popped
      · exact leavesSound element skipped)
  rw [Recovery.lengthOfElements_append, Recovery.lengthOfElements_entries, totalLength_reverse] at newStop
  refine ⟨follows, stackSound, ?_, ?_, ?_, fits.reuse⟩
  · refine newStop.trans ?_
    change ParseStack.stop (machine.stack.drop repair.popped) + _ =
      (repair.skipped.getLast?.map (·.stop)).getD machine.position
    rw [← stopEq]
    omega
  · change (repair.skipped.getLast?.map (·.stop)).getD machine.position ≤ _
    rw [← stopEq]
    exact tile.bounds.2 fits.inside
  · intro lookahead same
    cases same
    change repair.resume.FitsAt _ _ ((repair.skipped.getLast?.map (·.stop)).getD machine.position)
    rw [← stopEq]
    exact resume

theorem wrap_fits (sound : job.Sound) (fits : machine.Fits job) (idle : machine.pending = none)
    {lookahead : LexedToken} (here : lookahead.FitsAt job.table job.text machine.position)
    (proper : lookahead.kind ≠ .endOfInput) {next : Machine}
    (done : Recovery.giveUp job machine lookahead = .inl next) : next.Fits job := by
  unfold Recovery.giveUp at done
  rw [if_neg proper] at done
  cases done
  obtain ⟨length, leavesSound⟩ :=
    Recovery.leaves_fit (.cons here proper .nil) machine.nextSerial
  obtain ⟨follows, stackSound, newStop⟩ := Recovery.pushError_fits sound
    { machine with position := lookahead.stop, nextSerial := machine.nextSerial + 1 }
    (Recovery.leaves machine.nextSerial [lookahead]) lookahead.examinedEnd fits.follows fits.sound leavesSound
  refine ⟨follows, stackSound, ?_, here.stop_le, ?_, fits.reuse⟩
  · refine newStop.trans ?_
    change _ = lookahead.stop
    rw [← length, ← fits.stop_eq]
  · intro other same
    change machine.pending = some other at same
    rw [idle] at same
    cases same

/-! ### Roots -/

theorem endChild_fits {position : Nat} {token : LexedToken} (serial : Nat)
    (here : token.FitsAt job.table job.text position) (ended : token.kind = .endOfInput) :
    (ParseStack.endChild (endToken token serial) = [] ∨
      ∃ child, ParseStack.endChild (endToken token serial) = [child] ∧ child.element.IsEnd) ∧
      position + lengthOf (ParseStack.endChild (endToken token serial)) = job.text.size := by
  have stop := here.stop_eq
  rw [here.stop_end ended] at stop
  unfold endToken
  split
  · rename_i empty
    exact ⟨Or.inl rfl, by rw [stop, empty]; rfl⟩
  · rename_i long
    refine ⟨Or.inr ⟨_, rfl, here.isEnd ended long serial⟩, ?_⟩
    rw [stop]
    rfl

theorem stop_whole (fits : machine.Fits job) : totalLength machine.stack = machine.position := by
  have whole := ParseStack.Follows.stop_append machine.stack []
    ((List.append_nil machine.stack).symm ▸ fits.follows)
  rw [List.append_nil, fits.stop_eq] at whole
  exact (whole.trans (Nat.zero_add _)).symm

theorem errorRoot_fits (fits : machine.Fits job) {token : LexedToken} {serial : Nat}
    (here : token.FitsAt job.table job.text machine.position) (ended : token.kind = .endOfInput) :
    (machine.stack.toErrorRoot job.table (serial + 1) (endToken token serial)).IsRoot job.table
      job.text.size := by
  obtain ⟨ending, length⟩ := endChild_fits serial here ended
  have each : ∀ entries : List StackEntry, ParseStack.Sound job.table entries →
      lengthOf (entries.flatMap (fun entry => splicedIntoError job.table entry.element)) =
        totalLength entries := by
    intro entries entriesSound
    induction entries with
    | nil => rfl
    | cons entry rest ih =>
        rw [List.flatMap_cons, lengthOf_append, totalLength_cons, ih entriesSound.tail,
          lengthOf_splicedIntoError (entriesSound entry List.mem_cons_self)]
  have reversed : ParseStack.Sound job.table machine.stack.reverse :=
    fun entry member => fits.sound entry (List.mem_reverse.mp member)
  refine ⟨Node.isMade_make _ _ _ _, ⟨_, _, rfl, ?_, ending⟩, ?_⟩
  · intro child member
    obtain ⟨entry, among, inside⟩ := List.mem_flatMap.mp member
    exact everywhere_splicedIntoError (reversed entry among) child inside
  · change lengthOf (_ ++ _) = _
    rw [lengthOf_append, each _ reversed, totalLength_reverse, stop_whole fits, length]

def gathered (stack : ParseStack) : KindId × List Child :=
  stack.foldr
    (fun entry (kind, children) =>
      match entry.extra, entry.element with
      | false, .node head inner => (head.kind, children ++ inner)
      | _, element => (kind, children ++ [⟨none, element⟩]))
    (KindId.error, [])

theorem gathered_cons (entry : StackEntry) (below : ParseStack) :
    gathered (entry :: below) =
      match entry.extra, entry.element with
      | false, .node head inner => (head.kind, (gathered below).2 ++ inner)
      | _, element => ((gathered below).1, (gathered below).2 ++ [⟨none, element⟩]) := rfl

theorem lengthOf_gathered {table : Table} : ∀ stack : ParseStack, ParseStack.Sound table stack →
    lengthOf (gathered stack).2 = totalLength stack
  | [], _ => rfl
  | entry :: below, sound => by
      have length := lengthOf_gathered below sound.tail
      have here := sound entry List.mem_cons_self
      rw [gathered_cons, totalLength_cons]
      split
      · rename_i head inner extra shape
        rw [shape] at here ⊢
        rw [lengthOf_append, length, ← textLength_of_sound here, Nat.add_comm]
        rfl
      · rw [lengthOf_append, length, lengthOf_cons, lengthOf_nil, Nat.add_comm]
        rfl

theorem everywhere_gathered {holds : Element → Prop} : ∀ stack : ParseStack,
    (∀ entry, entry ∈ stack → entry.element.Everywhere holds) →
    ∀ child, child ∈ (gathered stack).2 → child.element.Everywhere holds
  | [], _, _, member => absurd member List.not_mem_nil
  | entry :: below, everywhere, child, member => by
      have here := everywhere entry List.mem_cons_self
      have belowHolds := everywhere_gathered below
        (fun other among => everywhere other (List.mem_cons_of_mem _ among))
      rw [gathered_cons] at member
      split at member
      · rename_i head inner extra shape
        rw [shape] at here
        rcases List.mem_append.mp member with old | new
        · exact belowHolds child old
        · exact here.inside child new
      · rcases List.mem_append.mp member with old | new
        · exact belowHolds child old
        · exact List.mem_singleton.mp new ▸ here

theorem root_fits (fits : machine.Fits job) {token : LexedToken} {serial : Nat}
    (here : token.FitsAt job.table job.text machine.position) (ended : token.kind = .endOfInput) :
    (machine.stack.toRoot job.table (serial + 1) (endToken token serial)).IsRoot job.table
      job.text.size := by
  obtain ⟨ending, length⟩ := endChild_fits serial here ended
  refine ⟨Node.isMade_make _ _ _ _, ⟨_, _, rfl, everywhere_gathered machine.stack fits.sound, ending⟩, ?_⟩
  change lengthOf (_ ++ _) = _
  rw [lengthOf_append, length.symm, ← stop_whole fits]
  exact congrArg (· + _) (lengthOf_gathered machine.stack fits.sound)

/-! ### Steps and runs -/

/-- What a step leads to: a machine of which the same holds, or a root over the whole text. -/
def Ends (job : Job) : Machine ⊕ Node → Prop
  | .inl next => next.Fits job
  | .inr root => root.IsRoot job.table job.text.size

theorem recover_fits (sound : job.Sound) (fits : machine.Fits job) (idle : machine.pending = none)
    {lookahead : LexedToken} (here : lookahead.FitsAt job.table job.text machine.position)
    {answer : Machine ⊕ Node} (done : Recovery.recover job machine lookahead = .ok answer) :
    Ends job answer := by
  cases Recovery.recover_answers done with
  | resumes searched => exact apply_fits sound fits (Recovery.cheapest?_fits sound fits.inside here searched)
  | skips _ proper => exact wrap_fits sound fits idle here proper (if_neg proper)
  | ends _ ended => exact errorRoot_fits fits here ended

theorem step_fits (sound : job.Sound) (fits : machine.Fits job) {answer : Machine ⊕ Node}
    (done : machine.step job = .ok answer) : Ends job answer := by
  obtain ⟨lookahead, next, looked, responds⟩ := step_responds done
  have ahead := lookahead_fits job sound fits looked
  have here := ahead.lookahead
  cases responds with
  | reduce _ reduces => exact reduce_fits sound ahead.fits here reduces
  | shift acts => exact shiftToken_fits sound ahead.fits ahead.idle here acts
  | shiftReused acts => exact shiftReused_fits ahead.fits ahead.idle here.1 here.2 acts
  | @push node _ _ _ _ _ goes =>
      exact push_fits ahead.fits node.element _ _ here.1 here.2 ahead.idle (Table.successor_of_goto goes)
  | enter => exact descend_fits ahead.fits
  | lex lexed =>
      have kept := ahead.fits
      refine ⟨kept.follows, kept.sound, kept.stop_eq, kept.inside, ?_, kept.reuse⟩
      intro other same
      cases same
      exact (Job.lex_fits sound kept.inside lexed).at
  | accept acts => exact root_fits ahead.fits here (sound.ends.accepts _ _ (LexedToken.Fits.terminal here) acts)
  | recover _ done => exact recover_fits sound ahead.fits ahead.idle here done

/-- What every step keeps until it makes a root, and what it makes of the root, hold to the end of a run. -/
theorem run_induction {job : Job} (keeps : Machine → Prop) (ends : Node → Prop)
    (onward : ∀ machine next, keeps machine → machine.step job = .ok (.inl next) → keeps next)
    (final : ∀ machine root, keeps machine → machine.step job = .ok (.inr root) → ends root) :
    ∀ (fuel : Nat) {machine : Machine} {root : Node}, keeps machine → run job fuel machine = .ok root → ends root
  | 0, _, _, _, done => by
      unfold run at done
      cases done
  | fuel + 1, machine, root, kept, done => by
      unfold run at done
      obtain ⟨answer, stepped, done⟩ := bind_ok.mp done
      cases answer with
      | inl next => exact run_induction keeps ends onward final fuel (onward machine next kept stepped) done
      | inr last =>
          cases pure_ok.mp done
          exact final machine root kept stepped

theorem run_fits (job : Job) (sound : job.Sound) (fuel : Nat) {machine : Machine} {root : Node}
    (fits : machine.Fits job) (done : run job fuel machine = .ok root) : root.IsRoot job.table job.text.size :=
  run_induction (Machine.Fits job) (Node.IsRoot job.table job.text.size)
    (fun _ _ fits stepped => step_fits sound fits stepped) (fun _ _ fits stepped => step_fits sound fits stepped)
    fuel fits done

end Machine

end IncrementalParsing
