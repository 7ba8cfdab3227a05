import IncrementalParsing.Proofs.Green.Containing
import IncrementalParsing.Proofs.Parsing.Offered
import IncrementalParsing.Proofs.Parsing.Reachable
import IncrementalParsing.Proofs.Parsing.Resumption

/-!
What a machine enters of the old tree. The cursor is asked where the machine stands, and an element is only entered
where the machine stands. So when a run comes to a new place, nothing that begins there or further on was entered,
and the cursor has all of it still to come.
-/

namespace IncrementalParsing

open Green

/-! ### First tokens -/

namespace Green

variable {table : Table}

theorem firstToken?_eq_none_iff {element : Element} (sound : element.Sound table) :
    element.firstToken? = none ↔ element.textLength = 0 := by
  rw [← lengthOfTokens_tokens sound, Element.firstToken?_eq]
  cases shape : element.tokens with
  | nil => simp
  | cons leaf rest =>
      have first : element.firstToken? = some leaf := by rw [Element.firstToken?_eq, shape]; rfl
      have wide := (firstToken?_sound sound first).here.1
      rw [lengthOfTokens_cons]
      constructor
      · intro none
        cases none
      · intro empty
        omega

end Green

namespace OldElement

variable {table : Table}

theorem firstTokenOf?_of_mem : ∀ (children : List Child) (start : Nat),
    (∀ child, child ∈ children → child.element.Sound table) →
    ∀ old, old ∈ ofChildren start children → old.start = start → 0 < old.element.textLength →
      firstTokenOf? children = old.element.firstToken?
  | child :: rest, start, sound, old, member, here, positive => by
      have first := firstToken?_eq_none_iff (sound child List.mem_cons_self)
      unfold firstTokenOf?
      rcases List.mem_cons.mp member with rfl | later
      · cases found : child.element.firstToken? with
        | some leaf => rfl
        | none => exact absurd (first.mp found) (Nat.ne_of_gt positive)
      · have beyond := (stop_le_of_mem_ofChildren rest _ old later).1
        have empty : child.element.textLength = 0 := by omega
        rw [first.mpr empty]
        refine firstTokenOf?_of_mem rest _ (fun other among => sound other (List.mem_cons_of_mem _ among)) old later ?_
          positive
        omega

theorem exists_of_mem_ofChildren : ∀ (children : List Child) (start : Nat),
    ∀ old, old ∈ ofChildren start children → ∃ child, child ∈ children ∧ child.element = old.element
  | child :: rest, start, old, member => by
      rcases List.mem_cons.mp member with rfl | later
      · exact ⟨child, List.mem_cons_self, rfl⟩
      · obtain ⟨other, among, same⟩ := exists_of_mem_ofChildren rest _ old later
        exact ⟨other, List.mem_cons_of_mem _ among, same⟩

theorem Below.contains {outer inner : OldElement} (below : Below outer inner) :
    outer.element.Contains inner.element := by
  induction below with
  | refl => exact .refl _
  | child _ member ih =>
      obtain ⟨child, among, same⟩ := exists_of_mem_ofChildren _ _ _ member
      exact ih.trans (.child among (same ▸ .refl _))

theorem Below.firstToken?_eq {outer inner : OldElement} (sound : outer.element.Sound table)
    (below : Below outer inner) (here : inner.start = outer.start) (positive : 0 < inner.element.textLength) :
    outer.element.firstToken? = inner.element.firstToken? := by
  induction below with
  | refl => rfl
  | @child middle final between member ih =>
      obtain ⟨spans, low, _⟩ := between.within sound.spans
      obtain ⟨first, last⟩ := within_of_mem_children spans.here member
      have middleSound : middle.element.Sound table := sound.contains between.contains
      have wide : 0 < middle.element.textLength := by
        unfold stop at last
        omega
      have start : final.start = middle.start := by omega
      refine (ih (by omega) wide).trans ?_
      cases shape : middle.element with
      | token leaf =>
          unfold children at member
          rw [shape] at member
          exact absurd member List.not_mem_nil
      | node head inner =>
          unfold children at member
          rw [shape] at member middleSound
          exact firstTokenOf?_of_mem inner _ (fun child among => middleSound.inside child among) final member
            start positive

end OldElement

/-! ### What is entered -/

namespace Machine

inductive Arrives (job : Job) (first : Machine) : Machine → Prop
  | start : Arrives job first first
  | step {machine next : Machine} : Reaches job first machine → machine.step job = .ok (.inl next) →
      machine.position < next.position → Arrives job first next

/-- The element on offer comes next, begins where the machine stands, and may be kept. -/
def Presents (change : Change) (machine : Machine) (element : Element) : Prop :=
  ∃ cursor target, machine.reuse = some cursor ∧ change.toOld machine.position = some target ∧
    cursor.pending.head? = some ⟨target, element⟩ ∧ OldElement.Reusable change ⟨target, element⟩

/-- What holds of a machine that parses again. Its cursor was asked where the machine has been, and whatever was
entered was entered where the machine stood. -/
structure Heeds (root : Node) (change : Change) (entered : List OldElement) (machine : Machine) : Prop where
  requested : ∃ cursor last, machine.reuse = some cursor ∧ last ≤ machine.position ∧
    ReuseCursor.Requested root change cursor last entered
  behind : ∀ old, old ∈ entered → old = ⟨0, root.element⟩ ∨
    ∃ position, position ≤ machine.position ∧ change.toOld position = some old.start
  pending : ∀ element mode, machine.pending = some (.reused element mode) → machine.Presents change element

variable {job : Job} {root : Node} {change : Change} {entered : List OldElement} {machine next : Machine}

theorem start_heeds (serial : Nat) :
    (start (some (ReuseCursor.start root change)) serial).Heeds root change [⟨0, root.element⟩] where
  requested := ⟨_, 0, rfl, Nat.le_refl 0, .start⟩
  behind := fun _ member => Or.inl (List.mem_singleton.mp member)
  pending := fun _ _ none => by cases none

theorem Heeds.moved (heeds : machine.Heeds root change entered) (reuse : next.reuse = machine.reuse)
    (order : machine.position ≤ next.position)
    (pending : ∀ element mode, next.pending = some (.reused element mode) → next.Presents change element) :
    next.Heeds root change entered where
  requested := by
    obtain ⟨cursor, last, here, before, requested⟩ := heeds.requested
    exact ⟨cursor, last, reuse.trans here, Nat.le_trans before order, requested⟩
  behind := by
    intro old member
    rcases heeds.behind old member with isRoot | ⟨position, before, place⟩
    · exact Or.inl isRoot
    · exact Or.inr ⟨position, Nat.le_trans before order, place⟩
  pending := pending

theorem Heeds.descend (heeds : machine.Heeds root change entered) {element : Element} {target : Nat}
    (idle : machine.pending = none) (place : change.toOld machine.position = some target)
    (presents : machine.Presents change element) : ∃ fresh : List OldElement,
      (∀ old, old ∈ fresh → old = ⟨target, element⟩) ∧ machine.descend.Heeds root change (fresh ++ entered) := by
  obtain ⟨cursor, last, here, before, requested⟩ := heeds.requested
  obtain ⟨other, offset, same, found, first, _⟩ := presents
  cases here.symm.trans same
  cases place.symm.trans found
  have only : ∀ old, old ∈ cursor.entering → old = ⟨target, element⟩ := by
    intro old member
    unfold ReuseCursor.entering at member
    split at member
    · rename_i shape
      rw [shape] at first
      exact (List.mem_singleton.mp member).trans (Option.some.inj first)
    · exact absurd member List.not_mem_nil
  refine ⟨cursor.entering, only, ⟨cursor.descend, last, ?_, before, .descend requested⟩, ?_, ?_⟩
  · exact congrArg (Option.map ReuseCursor.descend) here
  · intro old member
    rcases List.mem_append.mp member with fresh | seen
    · exact Or.inr ⟨machine.position, Nat.le_refl _, (only old fresh).symm ▸ place⟩
    · exact heeds.behind old seen
  · intro _ _ waiting
    cases idle.symm.trans waiting

theorem reuse_of_recover {token : LexedToken} (idle : machine.pending = none)
    (done : Recovery.recover job machine token = .ok (.inl next)) :
    next.reuse = machine.reuse ∧ ∀ element mode, next.pending ≠ some (.reused element mode) := by
  cases Recovery.recover_answers done with
  | resumes => exact ⟨rfl, fun _ _ same => by cases same⟩
  | skips => exact ⟨rfl, fun element mode waiting => by cases idle.symm.trans waiting⟩

section Offers

variable (whole : root.element.Everywhere Element.Spans) {oldSize newSize : Nat}
  (between : change.Between oldSize newSize)

include whole between

theorem Heeds.offer (heeds : machine.Heeds root change entered) (idle : machine.pending = none) :
    machine.offer.2.Heeds root change entered ∧
      (∀ element, machine.offer.1 = some element → machine.offer.2.Presents change element) ∧
      ∀ target, change.toOld machine.position = some target →
        (∀ element, machine.offer.1 = some element → ∀ old : OldElement,
          old.Available root change entered target → OldElement.Below ⟨target, element⟩ old) ∧
        (machine.offer.1 = none → ∀ old : OldElement, ¬ old.Available root change entered target) := by
  obtain ⟨cursor, last, here, before, requested⟩ := heeds.requested
  have stands := requested.stands whole between
  unfold Machine.offer
  rw [here]
  refine ⟨⟨⟨_, machine.position, rfl, Nat.le_refl _, .candidate machine.position requested before⟩, heeds.behind, ?_⟩,
    ?_, ?_⟩
  · intro _ _ waiting
    cases idle.symm.trans waiting
  · intro element found
    cases place : change.toOld machine.position with
    | none =>
        dsimp only at found
        unfold ReuseCursor.candidate at found
        rw [stands.change_eq, place] at found
        cases found
    | some target =>
        obtain ⟨available, first, _⟩ := (stands.answers whole before place).1 element found
        exact ⟨_, target, rfl, place, first, available.reusable⟩
  · intro target place
    obtain ⟨offers, misses⟩ := stands.answers whole before place
    exact ⟨fun element found => (offers element found).2.2, misses⟩

theorem Heeds.place (heeds : machine.Heeds root change entered) {element : Element}
    (presents : machine.Presents change element) : ∃ start, change.toOld machine.position = some start ∧
      OldElement.Below ⟨0, root.element⟩ ⟨start, element⟩ ∧ OldElement.Reusable change ⟨start, element⟩ := by
  obtain ⟨cursor, _, here, _, requested⟩ := heeds.requested
  obtain ⟨other, start, same, place, first, reusable⟩ := presents
  cases here.symm.trans same
  exact ⟨start, place, (requested.stands whole between).among _ (List.mem_of_mem_head? first), reusable⟩

theorem Heeds.lookahead (heeds : machine.Heeds root change entered) {lookahead : Lookahead}
    (done : machine.lookahead job = .ok (lookahead, next)) : next.Heeds root change entered ∧
      ∀ element mode, lookahead = .reused element mode → next.Presents change element := by
  have moded (idle : machine.pending = none) :
      ({ machine with mode := some (machine.dueMode job.table) } : Machine).Heeds root change entered :=
    heeds.moved rfl (Nat.le_refl _) fun _ _ waiting => by cases idle.symm.trans waiting
  cases lookahead_sees done with
  | waiting here =>
      exact ⟨heeds.moved rfl (Nat.le_refl _) fun _ _ none => (by cases none),
        fun element mode same => heeds.pending element mode (same ▸ here)⟩
  | offered idle here =>
      obtain ⟨kept, presents, _⟩ := (moded idle).offer whole between idle
      refine ⟨kept, fun other mode same => ?_⟩
      cases same
      exact presents _ here
  | lexed idle =>
      obtain ⟨kept, _⟩ := (moded idle).offer whole between idle
      exact ⟨kept, fun _ _ same => (by cases same)⟩

theorem Heeds.step (sound : job.Sound) (fits : machine.Fits job) (heeds : machine.Heeds root change entered)
    (done : machine.step job = .ok (.inl next)) : ∃ fresh : List OldElement,
      (∀ old, old ∈ fresh → change.toOld machine.position = some old.start) ∧
        next.Heeds root change (fresh ++ entered) := by
  have order := position_le_of_step sound fits done
  obtain ⟨lookahead, ahead, looked, responds⟩ := step_responds done
  obtain ⟨kept, presents⟩ := heeds.lookahead whole between looked
  have looks := lookahead_fits job sound fits looked
  rw [← looks.position_eq] at order ⊢
  have stays : next.reuse = ahead.reuse →
      (∀ element mode, next.pending = some (.reused element mode) → next.Presents change element) →
      ∃ fresh : List OldElement, (∀ old, old ∈ fresh → change.toOld ahead.position = some old.start) ∧
        next.Heeds root change (fresh ++ entered) :=
    fun reuse pending => ⟨[], fun _ none => absurd none List.not_mem_nil, kept.moved reuse order pending⟩
  have idle : ∀ element mode, ahead.pending = some (.reused element mode) → next.Presents change element := by
    intro _ _ waiting
    cases looks.idle.symm.trans waiting
  have enters : ∀ element, ahead.Presents change element → next = ahead.descend →
      ∃ fresh : List OldElement, (∀ old, old ∈ fresh → change.toOld ahead.position = some old.start) ∧
        next.Heeds root change (fresh ++ entered) := by
    rintro element presents rfl
    have found := presents
    obtain ⟨_, target, _, place, _⟩ := found
    obtain ⟨fresh, only, after⟩ := kept.descend looks.idle place presents
    exact ⟨fresh, fun old member => (only old member).symm ▸ place, after⟩
  cases responds with
  | reduce _ reduces =>
      obtain ⟨production, stack, _, _, rfl⟩ := reduce_ok.mp reduces
      refine stays rfl fun element mode same => ?_
      cases same
      exact presents element mode rfl
  | shift => exact stays rfl idle
  | shiftReused => exact stays rfl idle
  | push => exact stays rfl idle
  | enter => exact enters _ (presents _ _ rfl) rfl
  | lex => exact stays rfl fun _ _ same => by cases same
  | recover _ done =>
      obtain ⟨same, lexed⟩ := reuse_of_recover looks.idle done
      exact stays same fun element mode waiting => absurd waiting (lexed element mode)

/-- A run that comes to a place has entered nothing that begins there or further on. -/
theorem Arrives.heeds (sound : job.Sound) {first : Machine} (fits : first.Fits job)
    (begins : first.Heeds root change [⟨0, root.element⟩]) (arrives : Arrives job first machine) :
    ∃ entered, machine.Heeds root change entered ∧ ∀ old, old ∈ entered → old = ⟨0, root.element⟩ ∨
      ∃ position, position < machine.position ∧ change.toOld position = some old.start := by
  cases arrives with
  | start => exact ⟨_, begins, fun old member => Or.inl (List.mem_singleton.mp member)⟩
  | @step before _ reached done further =>
      have run : ∃ entered, before.Heeds root change entered := by
        clear done further
        induction reached with
        | refl => exact ⟨_, begins⟩
        | step reached stepped ih =>
            obtain ⟨entered, heeds⟩ := ih
            obtain ⟨fresh, _, after⟩ := heeds.step whole between sound (reached.fits sound fits) stepped
            exact ⟨_, after⟩
      obtain ⟨entered, heeds⟩ := run
      obtain ⟨fresh, places, after⟩ := heeds.step whole between sound (reached.fits sound fits) done
      refine ⟨_, after, ?_⟩
      intro old member
      rcases List.mem_append.mp member with here | seen
      · exact Or.inr ⟨before.position, further, places old here⟩
      · rcases heeds.behind old seen with isRoot | ⟨position, earlier, place⟩
        · exact Or.inl isRoot
        · exact Or.inr ⟨position, Nat.lt_of_le_of_lt earlier further, place⟩

end Offers

end Machine

theorem Change.toOld_injective {change : Change} {oldSize newSize : Nat} (between : change.Between oldSize newSize)
    {earlier later target : Nat} (order : earlier < later) (first : change.toOld earlier = some target) :
    change.toOld later ≠ some target := by
  intro second
  have oldOrder := between.start_le_old
  unfold toOld at first second
  split at first
  · cases first
    split at second
    · cases second
      omega
    · split at second
      · have same := Option.some.inj second
        omega
      · cases second
  · split at first
    · have one := Option.some.inj first
      rw [if_neg (by omega), if_pos (by omega)] at second
      have other := Option.some.inj second
      omega
    · cases first

end IncrementalParsing
