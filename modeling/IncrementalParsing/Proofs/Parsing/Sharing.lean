import IncrementalParsing.Proofs.Parsing.Heeding
import IncrementalParsing.Proofs.Parsing.Kept

/-!
Which nodes of the old tree are in the new one. Where a run comes to the place of a node, the node is on offer, or a
larger element that begins with it, and the lookahead is its first token all the same. Reductions keep the lookahead.
When the token is shifted, either a larger element is pushed with the node in it, or the machine enters that element
and has the next smaller one on offer, down to the node itself. Whatever is pushed stays.
-/

namespace IncrementalParsing

open Green

/-! ### The way of a node onto the stack -/

structure OldElement.Spared (root : Node) (change : Change) (old : OldElement) (head : Head) (children : List Child)
    (first : Token) : Prop where
  isNode : old.element = .node head children
  inside : ∃ child, child ∈ OldElement.children ⟨0, root.element⟩ ∧ child.Below old
  plain : head.info.ropeHeight = 0
  reusable : old.Reusable change
  begins : old.element.firstToken? = some first

/-- A machine that stands where an old element begins, has not entered the element and asks for the first
token in a mode, or has it already. -/
structure Machine.Awaits (root : Node) (change : Change) (table : Table) (old : OldElement) (mode : LexMode)
    (machine : Machine) : Prop where
  heeds : ∃ entered, machine.Heeds root change entered ∧ old ∉ entered
  place : change.toOld machine.position = some old.start
  due : machine.dueMode table = mode
  waits : ∀ lookahead, machine.pending = some lookahead → machine.mode = some mode ∧
    ∃ element, lookahead = .reused element mode ∧ OldElement.Below ⟨old.start, element⟩ old

theorem Lookahead.kind_reused {element : Element} {first : Token} (begins : element.firstToken? = some first)
    (mode : LexMode) : (Lookahead.reused element mode).kind = first.kind := by
  change ((element.firstToken?.map (·.kind)).getD .error) = first.kind
  rw [begins]
  rfl

namespace Machine

/-- Machines that another one comes to by reductions before a terminal. -/
inductive ReducesTo (job : Job) (terminal : KindId) (first : Machine) : Machine → Prop
  | refl : ReducesTo job terminal first first
  | step {machine next : Machine} {id : ProductionId} : ReducesTo job terminal first machine →
      job.table.action machine.stack.state terminal = .reduce id → machine.step job = .ok (.inl next) →
      ReducesTo job terminal first next

theorem ReducesTo.reaches {job : Job} {terminal : KindId} {first machine : Machine}
    (reduces : ReducesTo job terminal first machine) : Reaches job first machine := by
  induction reduces with
  | refl => exact .refl
  | step _ _ stepped ih => exact .step ih stepped

theorem Arrives.reaches {job : Job} {first machine : Machine} (arrives : Arrives job first machine) :
    Reaches job first machine := by
  cases arrives with
  | start => exact .refl
  | step reached stepped _ => exact .step reached stepped

theorem Reaches.seated {job : Job} (sound : job.Sound) (declared : job.table.Declared) {first machine : Machine}
    (reached : Reaches job first machine) (fits : first.Fits job) (seated : first.Seated job.table) :
    machine.Seated job.table := by
  induction reached with
  | refl => exact seated
  | step reached stepped ih => exact step_seated sound declared (reached.fits sound fits) ih stepped

section Sharing

variable {job : Job} {root : Node} {change : Change} {old : OldElement} {head : Head} {children : List Child}
  {first : Token} (sound : job.Sound) (whole : root.element.Everywhere Element.Spans) {oldSize newSize : Nat}
  (between : change.Between oldSize newSize) (spared : old.Spared root change head children first)

include sound whole between spared

theorem Awaits.lookahead {machine next : Machine} (fits : machine.Fits job)
    (awaits : machine.Awaits root change job.table old first.lexMode) {lookahead : Lookahead}
    (done : machine.lookahead job = .ok (lookahead, next)) :
    ∃ element, lookahead = .reused element first.lexMode ∧ OldElement.Below ⟨old.start, element⟩ old ∧
      element.firstToken? = some first ∧ next.mode = some first.lexMode := by
  obtain ⟨entered, heeds, fresh⟩ := awaits.heeds
  have begins : ∀ element : Element, element.Sound job.table → OldElement.Below ⟨old.start, element⟩ old →
      element.firstToken? = some first :=
    fun element proper below => (below.firstToken?_eq proper rfl spared.reusable.positive).trans spared.begins
  have looks := lookahead_fits job sound fits done
  unfold Machine.lookahead at done
  split at done
  · rename_i waiting here
    obtain ⟨mode, element, same, below⟩ := awaits.waits waiting here
    cases done
    subst same
    exact ⟨element, rfl, below, begins element looks.lookahead.1 below, mode⟩
  · rename_i idle
    let asking : Machine := { machine with mode := some (machine.dueMode job.table) }
    have asks : asking.Heeds root change entered :=
      heeds.moved rfl (Nat.le_refl _) fun _ _ waiting => by cases idle.symm.trans waiting
    have askingFits : asking.Fits job :=
      ⟨fits.follows, fits.sound, fits.stop_eq, fits.inside, fits.pending, fits.reuse⟩
    obtain ⟨_, _, _, _, proper⟩ := offer_fits askingFits idle
    obtain ⟨outermost, misses⟩ := (asks.offer whole between idle).2.2 old.start awaits.place
    obtain ⟨child, member, inside⟩ := spared.inside
    have available : old.Available root change entered old.start :=
      ⟨(OldElement.Below.child (.refl _) member).trans inside, rfl, spared.reusable, fresh⟩
    cases found : asking.offer.1 with
    | none => exact absurd available (misses found old)
    | some element =>
        have below := outermost element found old available
        have starts := begins element (proper element found).1 below
        have mode : asking.offer.2.mode = some (machine.dueMode job.table) := by
          unfold Machine.offer
          split <;> rfl
        unfold nextLookahead at done
        dsimp only at done
        rw [show ({ machine with mode := some (machine.dueMode job.table) } : Machine).offer.1 =
          some element from found] at done
        dsimp only [Option.bind] at done
        rw [starts] at done
        dsimp only at done
        rw [if_pos awaits.due.symm] at done
        cases pure_ok.mp done
        exact ⟨element, by rw [awaits.due], below, starts, by rw [mode, awaits.due]⟩

theorem Awaits.reduce {machine next : Machine} (fits : machine.Fits job)
    (awaits : machine.Awaits root change job.table old first.lexMode) {id : ProductionId}
    (acts : job.table.action machine.stack.state first.kind = .reduce id)
    (done : machine.step job = .ok (.inl next)) : next.Awaits root change job.table old first.lexMode := by
  obtain ⟨entered, heeds, fresh⟩ := awaits.heeds
  unfold step at done
  obtain ⟨⟨lookahead, ahead⟩, looked, done⟩ := bind_ok.mp done
  obtain ⟨element, same, below, starts, mode⟩ := awaits.lookahead sound whole between spared fits looked
  obtain ⟨kept, presents⟩ := heeds.lookahead whole between looked
  have looks := lookahead_fits job sound fits looked
  have kind : lookahead.kind = first.kind := same ▸ Lookahead.kind_reused starts _
  dsimp only at done
  rw [looks.stack_eq, kind, acts] at done
  obtain ⟨reduced, reduces, done⟩ := bind_ok.mp done
  cases pure_ok.mp done
  obtain ⟨production, stack, _, _, rfl⟩ := reduce_ok.mp reduces
  refine ⟨⟨entered, kept.moved rfl (Nat.le_refl _) ?_, fresh⟩, ?_, ?_, ?_⟩
  · intro other otherMode waiting
    cases waiting
    exact presents other otherMode rfl
  · change change.toOld ahead.position = some old.start
    rw [looks.position_eq]
    exact awaits.place
  · unfold dueMode
    rw [mode]
    rfl
  · intro waiting isWaiting
    cases isWaiting
    exact ⟨mode, element, same, below⟩

theorem Awaits.reducesTo {machine shifting : Machine} (fits : machine.Fits job)
    (awaits : machine.Awaits root change job.table old first.lexMode)
    (reduces : ReducesTo job first.kind machine shifting) :
    shifting.Awaits root change job.table old first.lexMode := by
  induction reduces with
  | refl => exact awaits
  | step reduced acts stepped ih =>
      exact ih.reduce sound whole between spared (reduced.reaches.fits sound fits) acts stepped

omit sound whole between spared in
theorem Heeds.awaits_descend {machine : Machine} {entered : List OldElement}
    (heeds : machine.Heeds root change entered) (fresh : old ∉ entered) (idle : machine.pending = none)
    (place : change.toOld machine.position = some old.start) (mode : machine.mode = some first.lexMode)
    {element : Element} (presents : machine.Presents change element)
    (larger : (⟨old.start, element⟩ : OldElement) ≠ old) :
    machine.descend.Awaits root change job.table old first.lexMode := by
  obtain ⟨found, only, after⟩ := heeds.descend idle place presents
  refine ⟨⟨_, after, fun member => ?_⟩, place, ?_, fun _ waiting => by cases idle.symm.trans waiting⟩
  · rcases List.mem_append.mp member with here | seen
    · exact larger (only old here).symm
    · exact fresh seen
  · change machine.mode.getD _ = _
    rw [mode]
    rfl

/-- Where the first token of a node is shifted in the state in which the node was begun, an element that
contains the node is pushed, or the machine enters one that is larger and awaits the node still. -/
theorem Awaits.shift {machine : Machine} (fits : machine.Fits job)
    (awaits : machine.Awaits root change job.table old first.lexMode)
    (offers : machine.Offers (Element.Seated job.table)) (known : head.kind ≠ .error)
    (state : machine.stack.state = head.info.preState) {target : StateId}
    (acts : job.table.action head.info.preState first.kind = .shift target) {answer : Machine ⊕ Node}
    (done : machine.step job = .ok answer) : ∃ next, answer = .inl next ∧ (next.stack.Keeps old.element ∨
      next.Awaits root change job.table old first.lexMode ∧ next.stack.state = head.info.preState) := by
  obtain ⟨entered, heeds, fresh⟩ := awaits.heeds
  unfold step at done
  obtain ⟨⟨lookahead, ahead⟩, looked, done⟩ := bind_ok.mp done
  obtain ⟨element, same, below, starts, mode⟩ := awaits.lookahead sound whole between spared fits looked
  obtain ⟨kept, presents⟩ := heeds.lookahead whole between looked
  have looks := lookahead_fits job sound fits looked
  have kind : lookahead.kind = first.kind := same ▸ Lookahead.kind_reused starts _
  have stands : ahead.stack.state = head.info.preState := looks.stack_eq.symm ▸ state
  have place : change.toOld ahead.position = some old.start := looks.position_eq.symm ▸ awaits.place
  dsimp only at done
  rw [stands, kind, acts, same] at done
  cases element with
  | token leaf =>
      have contains := below.contains
      rw [spared.isNode] at contains
      cases Element.contains_token.mp contains
  | node outer inner =>
      have seated := ((offers.lookahead looked).1 _ _ same).here.1
      have enters := @Heeds.awaits_descend job root change old first ahead entered kept fresh looks.idle place mode _
        (presents _ _ same)
      have itself : (⟨old.start, .node outer inner⟩ : OldElement) = old → outer = head := by
        intro one
        have shape := spared.isNode
        rw [← one] at shape
        cases shape
        rfl
      refine ⟨_, (pure_ok.mp done).symm, ?_⟩
      unfold pushReused
      dsimp only
      split
      · split
        · exact Or.inl ⟨_, List.mem_cons_self, below.contains⟩
        · rename_i nowhere
          refine Or.inr ⟨enters fun one => ?_, stands⟩
          rw [itself one] at seated nowhere
          rw [stands] at nowhere
          rw [nowhere] at seated
          cases seated spared.plain known
      · rename_i other
        refine Or.inr ⟨enters fun one => other ?_, stands⟩
        rw [itself one, stands]

theorem Awaits.run {items : StateId → Lalr.Item → Prop} (declared : job.table.Declared)
    (accepting : job.table.AcceptsStart) (chart : job.table.Chart items) (known : head.kind ≠ .error)
    (entire : old.element.Whole job.table) {target : StateId}
    (acts : job.table.action head.info.preState first.kind = .shift target) (fuel : Nat) {machine : Machine}
    {final : Node} (fits : machine.Fits job) (seated : machine.Seated job.table)
    (awaits : machine.Awaits root change job.table old first.lexMode)
    (state : machine.stack.state = head.info.preState) (done : Machine.run job fuel machine = .ok final) :
    final.Shares old.element := by
  refine run_induction (fun machine => machine.Fits job ∧ machine.Seated job.table ∧ (machine.stack.Keeps old.element ∨
      machine.Awaits root change job.table old first.lexMode ∧ machine.stack.state = head.info.preState))
    (fun final => final.Shares old.element) ?_ ?_ fuel ⟨fits, seated, Or.inr ⟨awaits, state⟩⟩ done
  · rintro machine next ⟨fits, seated, holds⟩ stepped
    refine ⟨step_fits sound fits stepped, step_seated sound declared fits seated stepped, ?_⟩
    rcases holds with keeps | ⟨awaits, state⟩
    · exact Or.inl (step_keeps sound entire fits keeps stepped)
    · obtain ⟨_, same, goesOn⟩ :=
        awaits.shift sound whole between spared fits seated.offers known state acts stepped
      cases same
      exact goesOn
  · rintro machine final ⟨fits, seated, keeps | ⟨awaits, state⟩⟩ stepped
    · exact step_shares sound accepting chart entire fits keeps stepped
    · obtain ⟨_, impossible, _⟩ :=
        awaits.shift sound whole between spared fits seated.offers known state acts stepped
      cases impossible

end Sharing

end Machine

/-! ### Sharing -/

theorem OldElement.shown_of_below {table : Table} {outer child inner : OldElement}
    (seated : outer.element.Everywhere (Element.Seated table)) (member : child ∈ outer.children)
    (below : child.Below inner) : inner.element.Shown table := by
  have child_shown : ∀ {outer child : OldElement}, outer.element.Everywhere (Element.Seated table) →
      child ∈ outer.children → child.element.Shown table := by
    intro outer child seated member
    obtain ⟨labelled, among, same⟩ := exists_of_mem_ofChildren _ _ _ member
    cases shape : outer.element with
    | token leaf =>
        rw [shape] at among
        exact absurd among List.not_mem_nil
    | node head children =>
        rw [shape] at among seated
        exact same ▸ seated.here.2 labelled among
  cases below with
  | refl => exact child_shown seated member
  | @child middle _ between last =>
      exact child_shown (seated.contains ((Below.child (.refl outer) member).trans between).contains) last

section Spared

variable {root : Node} {change : Change} {old : OldElement} {head : Head} {children : List Child} {first : Token}
  (spared : old.Spared root change head children first)

include spared

theorem OldElement.Spared.sound {table : Table} {size : Nat} (isRoot : root.IsRoot table size) :
    old.element.Sound table := by
  obtain ⟨labelled, last, shape, sound, ending⟩ := isRoot.children
  obtain ⟨child, member, below⟩ := spared.inside
  obtain ⟨inner, among, same⟩ := exists_of_mem_ofChildren _ _ _ member
  have contains : inner.element.Contains old.element := same ▸ below.contains
  change inner ∈ root.children at among
  rw [shape] at among
  rcases List.mem_append.mp among with inside | final
  · exact (sound inner inside).contains contains
  · rcases ending with none | ⟨only, isOnly, leaf, isToken, _⟩
    · rw [none] at final
      exact absurd final List.not_mem_nil
    · rw [isOnly] at final
      cases List.mem_singleton.mp final
      rw [isToken, spared.isNode] at contains
      cases Element.contains_token.mp contains

theorem OldElement.Spared.ne_error {table : Table} (sound : old.element.Sound table) : head.kind ≠ .error := by
  intro isError
  have clean := spared.reusable.clean
  rw [spared.isNode] at clean sound
  have error := sound.here.1.hasError_eq.trans (Bool.or_eq_true_iff.mpr (Or.inl (beq_iff_eq.mpr isError)))
  cases clean.symm.trans error

/-- Whatever is made of a spared node's surroundings, the node is not taken apart. -/
theorem OldElement.Spared.whole {table : Table} (seated : root.element.Everywhere (Element.Seated table))
    (known : head.kind ≠ .error) : old.element.Whole table := by
  obtain ⟨child, member, below⟩ := spared.inside
  refine ⟨?_, shown_of_below seated member below, fun _ => ?_⟩
  · rw [spared.isNode]
    exact bne_eq_false_iff_eq.mpr spared.plain
  · rw [spared.isNode]
    exact known

end Spared

/-- A run comes to the place of an old node, asks for a token there in the mode of the node's first token, and shifts
that token in the state in which the node was begun. -/
structure Machine.Meets (job : Job) (change : Change) (begins : Machine) (old : OldElement) (head : Head)
    (first : Token) (arrival shifting : Machine) : Prop where
  arrives : Arrives job begins arrival
  idle : arrival.pending = none
  place : change.toOld arrival.position = some old.start
  due : arrival.dueMode job.table = first.lexMode
  reduces : ReducesTo job first.kind arrival shifting
  state : shifting.stack.state = head.info.preState
  shifts : ∃ target, job.table.action head.info.preState first.kind = .shift target

theorem Machine.Meets.awaits {job : Job} (sound : job.Sound) {root : Node} {change : Change} {serial : Nat}
    {old : OldElement} {head : Head} {children : List Child} {first : Token} {arrival shifting : Machine}
    (whole : root.element.Everywhere Element.Spans) {oldSize newSize : Nat}
    (between : change.Between oldSize newSize) (spared : old.Spared root change head children first)
    (fits : (start (some (ReuseCursor.start root change)) serial).Fits job)
    (meets : Meets job change (start (some (ReuseCursor.start root change)) serial) old head first arrival shifting) :
    shifting.Awaits root change job.table old first.lexMode := by
  obtain ⟨entered, heeds, seen⟩ := meets.arrives.heeds whole between sound fits (start_heeds serial)
  have fresh : old ∉ entered := by
    intro among
    rcases seen old among with isRoot | ⟨position, before, same⟩
    · obtain ⟨child, member, below⟩ := spared.inside
      subst isRoot
      exact OldElement.not_below_of_mem_children member below
    · exact Change.toOld_injective between before same meets.place
  have awaits : arrival.Awaits root change job.table old first.lexMode :=
    ⟨⟨entered, heeds, fresh⟩, meets.place, meets.due, fun _ waiting => by cases meets.idle.symm.trans waiting⟩
  exact awaits.reducesTo sound whole between spared (meets.arrives.reaches.fits sound fits) meets.reduces

section Runs

variable {parser : Parser} (accepted : parser.language.Accepted) (small : parser.language.table.Small) {limit : Nat}
  {old : ParsedTree} (produced : old.Produced) (compatible : old.language = parser.language.id) {edit : InputEdit}
  {text : Array UInt8} (valid : edit.validate old.text.size text.size = .ok ()) {place : OldElement} {head : Head}
  {children : List Child} {first : Token}
  (spared : place.Spared old.root (Change.narrow edit old.text text) head children first) {fuel : Nat} {final : Node}
  (done : Machine.run (parser.job limit text) fuel (.start (some (ReuseCursor.start old.root
    (Change.narrow edit old.text text))) old.serialBound) = .ok final)

include accepted small produced compatible valid spared done

theorem OldElement.Spared.kept {machine : Machine}
    (reached : Machine.Reaches (parser.job limit text) (.start (some (ReuseCursor.start old.root
      (Change.narrow edit old.text text))) old.serialBound) machine)
    (keeps : machine.stack.Keeps place.element) : final.Shares place.element := by
  have sound := accepted.sound
  obtain ⟨items, chart⟩ := sound.chart small
  have isRoot := produced.isRoot sound compatible
  have entire : place.element.Whole (parser.job limit text).table :=
    spared.whole (produced.seated sound small compatible) (spared.ne_error (spared.sound isRoot))
  have begins : parser.Begins text _ := .again produced compatible valid
  have accepting : (parser.job limit text).table.AcceptsStart := accepted.acceptsStart
  have fits := reached.fits sound (begins.fits sound limit)
  obtain ⟨fuel, ran⟩ := reached.run done
  refine Machine.run_induction
    (fun machine => machine.Fits (parser.job limit text) ∧ machine.stack.Keeps place.element)
    (fun final => final.Shares place.element) ?_ ?_ fuel ⟨fits, keeps⟩ ran
  · rintro machine next ⟨fits, keeps⟩ stepped
    exact ⟨Machine.step_fits sound fits stepped, Machine.step_keeps sound entire fits keeps stepped⟩
  · rintro machine final ⟨fits, keeps⟩ stepped
    exact Machine.step_shares sound accepting chart entire fits keeps stepped

/-- A run over an old tree has a node in its root that it meets. A node that is met and accepted as the whole text has
become the root. -/
theorem Machine.Meets.shares {arrival shifting : Machine}
    (meets : Machine.Meets (parser.job limit text) (Change.narrow edit old.text text)
      (.start (some (ReuseCursor.start old.root (Change.narrow edit old.text text))) old.serialBound)
      place head first arrival shifting) : final.Shares place.element := by
  have sound := accepted.sound
  obtain ⟨items, chart⟩ := sound.chart small
  have isRoot := produced.isRoot sound compatible
  have seated := produced.seated sound small compatible
  have between := Change.narrow_between valid
  have begins : parser.Begins text _ := .again produced compatible valid
  have fits := begins.fits sound limit
  have startSeated : (Machine.start (some (ReuseCursor.start old.root (Change.narrow edit old.text text)))
      old.serialBound).Seated parser.language.table := by
    refine Machine.start_seated _ fun cursor same => ?_
    cases same
    exact ReuseCursor.everywhere_start _ seated
  have declared : (parser.job limit text).table.Declared := accepted.declared
  have accepting : (parser.job limit text).table.AcceptsStart := accepted.acceptsStart
  have known : head.kind ≠ .error := spared.ne_error (spared.sound isRoot)
  have awaits := meets.awaits sound isRoot.spans between spared fits
  have reached := meets.arrives.reaches.trans meets.reduces.reaches
  obtain ⟨fuel, ran⟩ := reached.run done
  obtain ⟨target, acts⟩ := meets.shifts
  exact Machine.Awaits.run sound isRoot.spans between spared declared accepting chart known (spared.whole seated known)
    acts fuel (reached.fits sound fits) (reached.seated sound declared fits startSeated) awaits meets.state ran

end Runs

end IncrementalParsing
