import IncrementalParsing.Proofs.Parsing.Edit

/-!
Edits and what is left of them. Replacing a range of a text answers an edit that holds between the two
texts. Narrowing an edit stops at the first and at the last byte that differ, so nothing is left of it
exactly if the texts are equal; and offsets of the new text outside of the change have an offset in the
old text with the same byte, in the same order.
-/

namespace IncrementalParsing

namespace InputEdit

theorem size_spliced (old insert : Array UInt8) {start oldEnd : Nat} (order : start ≤ oldEnd)
    (inside : oldEnd ≤ old.size) :
    (spliced old start oldEnd insert).size = start + insert.size + (old.size - oldEnd) := by
  unfold spliced
  simp only [Array.size_append, Array.size_extract]
  omega

theorem spliced_before (old insert : Array UInt8) {start oldEnd : Nat} (order : start ≤ oldEnd)
    (inside : oldEnd ≤ old.size) {index : Nat} (low : index < start) :
    (spliced old start oldEnd insert)[index]? = old[index]? := by
  have place : index < (old.extract 0 start).size := by
    rw [Array.size_extract]
    omega
  unfold spliced
  rw [Array.append_assoc, Array.getElem?_append_left place, Array.getElem?_extract, if_pos (by omega), Nat.zero_add]

theorem spliced_after (old insert : Array UInt8) {start oldEnd : Nat} (order : start ≤ oldEnd)
    (inside : oldEnd ≤ old.size) (index : Nat) :
    (spliced old start oldEnd insert)[start + insert.size + index]? = old[oldEnd + index]? := by
  have front : (old.extract 0 start ++ insert).size = start + insert.size := by
    rw [Array.size_append, Array.size_extract]
    omega
  unfold spliced
  rw [Array.getElem?_append_right (by omega), front, Nat.add_sub_cancel_left]
  rw [Array.getElem?_extract]
  split
  · rfl
  · rw [Array.getElem?_eq_none (by omega)]

theorem replace_ok_iff {old insert text : Array UInt8} {start oldEnd : Nat} {edit : InputEdit} :
    replace old start oldEnd insert = .ok (edit, text) ↔
      (start ≤ oldEnd ∧ oldEnd ≤ old.size) ∧ text = spliced old start oldEnd insert ∧
        edit = (ofOffsets start oldEnd (start + insert.size)).withPoints (.ofText old) (.ofText text) := by
  unfold replace
  split
  · rename_i disordered
    refine iff_of_false (fun done => by cases done) (fun given => ?_)
    omega
  · split
    · rename_i outside
      refine iff_of_false (fun done => by cases done) (fun given => ?_)
      omega
    · constructor
      · intro done
        cases done
        exact ⟨by omega, rfl, rfl⟩
      · rintro ⟨_, rfl, rfl⟩
        rfl

theorem validate_of_sizes {edit : InputEdit} {oldLength newLength : Nat} (startOld : edit.start ≤ edit.oldEnd)
    (startNew : edit.start ≤ edit.newEnd) (oldIn : edit.oldEnd ≤ oldLength)
    (sizes : oldLength - edit.oldEnd + edit.newEnd = newLength) (short : newLength < offsetLimit) :
    edit.validate oldLength newLength = .ok () := by
  unfold validate
  rw [if_neg (by omega), if_neg (by omega), if_neg (by omega), if_neg (by omega), sizes]
  unfold checkedOffset
  rw [if_pos short]
  dsimp only [liftM, monadLift, MonadLift.monadLift, bind, Except.bind, pure, Except.pure]
  rw [if_neg (fun other => other rfl)]

theorem replace_describes {old insert text : Array UInt8} {start oldEnd : Nat} {edit : InputEdit}
    (done : replace old start oldEnd insert = .ok (edit, text)) :
    edit.Describes old text ∧ (text.size < offsetLimit → edit.validate old.size text.size = .ok ()) := by
  obtain ⟨⟨order, inside⟩, rfl, rfl⟩ := replace_ok_iff.mp done
  refine ⟨⟨fun index low => (spliced_before old insert order inside low).symm,
    fun index => (spliced_after old insert order inside index).symm⟩, fun short => ?_⟩
  refine validate_of_sizes order (Nat.le_add_right _ _) inside ?_ short
  rw [size_spliced old insert order inside]
  exact Nat.add_comm _ _

end InputEdit

namespace Change

variable {old new : Array UInt8}

theorem commonForward_stops (old new : Array UInt8) (count : Nat) : ∀ start,
    commonForward old new start count < count →
    (old[start + commonForward old new start count]? : Option UInt8) ≠
      new[start + commonForward old new start count]? := by
  induction count with
  | zero => exact fun _ impossible => absurd impossible (Nat.not_lt_zero _)
  | succ count ih =>
      intro start early
      unfold commonForward at early ⊢
      split
      · rename_i same
        rw [if_pos same] at early
        have later := ih (start + 1) (Nat.lt_of_succ_lt_succ early)
        rw [Nat.add_right_comm] at later
        exact later
      · rename_i differ
        exact differ

theorem commonBackward_stops (old new : Array UInt8) (count : Nat) : ∀ oldEnd newEnd,
    commonBackward old new oldEnd newEnd count < count →
    (old[oldEnd - commonBackward old new oldEnd newEnd count - 1]? : Option UInt8) ≠
      new[newEnd - commonBackward old new oldEnd newEnd count - 1]? := by
  induction count with
  | zero => exact fun _ _ impossible => absurd impossible (Nat.not_lt_zero _)
  | succ count ih =>
      intro oldEnd newEnd early
      unfold commonBackward at early ⊢
      split
      · rename_i same
        rw [if_pos same] at early
        have later := ih (oldEnd - 1) (newEnd - 1) (Nat.lt_of_succ_lt_succ early)
        rw [Nat.sub_sub oldEnd, Nat.sub_sub newEnd, Nat.add_comm 1] at later
        exact later
      · rename_i differ
        exact differ

theorem isEmpty_iff {change : Change} :
    change.isEmpty = true ↔ change.start = change.oldEnd ∧ change.start = change.newEnd := by
  unfold isEmpty
  rw [Bool.and_eq_true, beq_iff_eq, beq_iff_eq]

/-- What is left of an edit when its ranges begin and end with bytes that differ. -/
structure Narrows (change : Change) (edit : InputEdit) (old new : Array UInt8) : Prop where
  start_le_old : change.start ≤ change.oldEnd
  start_le_new : change.start ≤ change.newEnd
  start_le : edit.start ≤ change.start
  old_le : change.oldEnd ≤ edit.oldEnd
  new_le : change.newEnd ≤ edit.newEnd
  describes : change.Describes old new
  isEmpty_iff : change.isEmpty = true ↔ old = new
  first_ne : change.start < change.oldEnd → change.start < change.newEnd →
    (old[change.start]? : Option UInt8) ≠ new[change.start]?
  last_ne : change.start < change.oldEnd → change.start < change.newEnd →
    (old[change.oldEnd - 1]? : Option UInt8) ≠ new[change.newEnd - 1]?

/-- Texts that are equal are not told apart by an edit that explains their lengths: bytes are left out up
to the end of the edit. -/
theorem isEmpty_narrow_self {edit : InputEdit} {text : Array UInt8}
    (valid : edit.validate text.size text.size = .ok ()) : (narrow edit text text).isEmpty = true := by
  obtain ⟨startOld, startNew, oldIn, _, sizes⟩ := InputEdit.validate_ok valid
  have ends : edit.newEnd = edit.oldEnd := by omega
  have whole : commonForward text text edit.start (edit.oldEnd - edit.start) = edit.oldEnd - edit.start := by
    rcases Nat.lt_or_ge (commonForward text text edit.start (edit.oldEnd - edit.start))
      (edit.oldEnd - edit.start) with early | all
    · exact absurd rfl (commonForward_stops text text _ _ early)
    · exact Nat.le_antisymm (commonForward_le text text _ _) all
  rw [isEmpty_iff]
  unfold narrow
  dsimp only
  rw [ends, Nat.min_self, whole, Nat.add_sub_cancel' startOld, Nat.sub_self]
  exact ⟨rfl, rfl⟩

theorem narrow_narrows {edit : InputEdit} (valid : edit.validate old.size new.size = .ok ())
    (describes : edit.Describes old new) : (narrow edit old new).Narrows edit old new := by
  have between := narrow_between valid
  have kept := narrow_describes valid describes
  obtain ⟨startOld, startNew, _, _, _⟩ := InputEdit.validate_ok valid
  refine ⟨between.start_le_old, between.start_le_new, Nat.le_add_right _ _, Nat.sub_le _ _, Nat.sub_le _ _,
    kept, ⟨kept.eq_of_isEmpty, ?_⟩, ?_, ?_⟩
  · rintro rfl
    exact isEmpty_narrow_self valid
  · -- If all bytes were equal that both ranges have, one of them would be empty.
    intro oldLeft newLeft
    refine commonForward_stops old new _ _ ?_
    unfold narrow at oldLeft newLeft
    dsimp only at oldLeft newLeft
    omega
  · intro oldLeft newLeft
    refine commonBackward_stops old new _ _ _ ?_
    unfold narrow at oldLeft newLeft
    dsimp only at oldLeft newLeft
    omega

/-- How offsets of the new text correspond to offsets of the old one. -/
structure Relates (change : Change) (old new : Array UInt8) : Prop where
  increasing : ∀ earlier later target other, earlier < later → change.toOld earlier = some target →
    change.toOld later = some other → target < other
  none_iff : ∀ offset, change.toOld offset = none ↔ change.start ≤ offset ∧ offset < change.newEnd
  last : change.toOld new.size = some old.size
  same : ∀ offset target, offset < new.size → change.toOld offset = some target →
    target < old.size ∧ (new[offset]? : Option UInt8) = old[target]?

theorem toOld_eq_some_iff {change : Change} (order : change.start ≤ change.newEnd) {offset target : Nat} :
    change.toOld offset = some target ↔ offset < change.start ∧ target = offset ∨
      change.newEnd ≤ offset ∧ target = change.oldEnd + (offset - change.newEnd) := by
  unfold toOld
  split
  · rw [Option.some.injEq]
    omega
  · split
    · rw [Option.some.injEq]
      omega
    · exact iff_of_false (fun none => by cases none) (by omega)

theorem Describes.relates {change : Change} (describes : change.Describes old new)
    (between : change.Between old.size new.size) : change.Relates old new := by
  obtain ⟨startOld, startNew, oldIn, newIn, sizes⟩ := between
  constructor
  · intro earlier later target other order first second
    rw [toOld_eq_some_iff startNew] at first second
    omega
  · intro offset
    unfold toOld
    split
    · exact iff_of_false (fun none => by cases none) (by omega)
    · split
      · exact iff_of_false (fun none => by cases none) (by omega)
      · exact iff_of_true rfl (by omega)
  · exact (toOld_eq_some_iff startNew).mpr (Or.inr (by omega))
  · intro offset target inside found
    rcases (toOld_eq_some_iff startNew).mp found with ⟨low, rfl⟩ | ⟨high, rfl⟩
    · exact ⟨by omega, (describes.before target low).symm⟩
    · have same := describes.after (offset - change.newEnd)
      rw [Nat.add_sub_cancel' high] at same
      exact ⟨by omega, same.symm⟩

end Change

/-- Edits are narrowed faithfully. A range of a text can be replaced exactly if it is one, and the edit
that is answered is valid between the texts. What narrowing leaves of a valid edit that describes two
texts describes them as well, is nothing exactly if they are equal, begins and ends with bytes that
differ, and relates the offsets of the two texts. -/
theorem InputEdit.narrows_faithfully :
    (∀ (old insert : Array UInt8) (start oldEnd : Nat),
      ((∃ edit text, replace old start oldEnd insert = .ok (edit, text)) ↔
        start ≤ oldEnd ∧ oldEnd ≤ old.size) ∧
      ∀ edit text, replace old start oldEnd insert = .ok (edit, text) →
        text = old.extract 0 start ++ insert ++ old.extract oldEnd old.size ∧
        (edit.start = start ∧ edit.oldEnd = oldEnd ∧ edit.newEnd = start + insert.size) ∧
        (old.size < offsetLimit → text.size < offsetLimit → edit.validate old.size text.size = .ok ())) ∧
    ∀ (edit : InputEdit) (old new : Array UInt8), edit.validate old.size new.size = .ok () →
      edit.Describes old new →
      (Change.narrow edit old new).Narrows edit old new ∧ (Change.narrow edit old new).Relates old new := by
  refine ⟨fun old insert start oldEnd => ⟨⟨?_, ?_⟩, ?_⟩, ?_⟩
  · rintro ⟨edit, text, done⟩
    exact (replace_ok_iff.mp done).1
  · exact fun range => ⟨_, _, replace_ok_iff.mpr ⟨range, rfl, rfl⟩⟩
  · intro edit text done
    obtain ⟨_, isText, isEdit⟩ := replace_ok_iff.mp done
    refine ⟨isText, ?_, fun _ short => (replace_describes done).2 short⟩
    rw [isEdit]
    exact ⟨rfl, rfl, rfl⟩
  · intro edit old new valid describes
    exact ⟨Change.narrow_narrows valid describes,
      (Change.narrow_describes valid describes).relates (Change.narrow_between valid)⟩

/-! ### A text that repeats itself -/

namespace Repetitive

def old : Array UInt8 := #[97, 98, 97, 98]

/-- The text `ab`, where the kept beginning and the kept end of the old text would overlap. -/
def new : Array UInt8 := #[97, 98]

def edit : InputEdit := .ofOffsets 0 4 2

theorem describes : edit.Describes old new where
  before := fun _ impossible => absurd impossible (Nat.not_lt_zero _)
  after := fun index => by
    rw [Array.getElem?_eq_none (show old.size ≤ edit.oldEnd + index from Nat.le_add_right _ _),
      Array.getElem?_eq_none (show new.size ≤ edit.newEnd + index from Nat.le_add_right _ _)]

end Repetitive

theorem InputEdit.narrows_faithfully_repetitive :
    (∃ made, replace Repetitive.old 2 4 #[] = .ok (made, Repetitive.new) ∧ made.validate 4 2 = .ok ()) ∧
      Repetitive.edit.validate 4 2 = .ok () ∧ Repetitive.edit.Describes Repetitive.old Repetitive.new ∧
      Change.narrow Repetitive.edit Repetitive.old Repetitive.new = ⟨2, 4, 2⟩ ∧
      (⟨2, 4, 2⟩ : Change).Narrows Repetitive.edit Repetitive.old Repetitive.new ∧
      (⟨2, 4, 2⟩ : Change).Relates Repetitive.old Repetitive.new := by
  have narrowed : Change.narrow Repetitive.edit Repetitive.old Repetitive.new = ⟨2, 4, 2⟩ := by decide
  obtain ⟨replaces, narrows⟩ := narrows_faithfully
  obtain ⟨made, text, done⟩ := (replaces Repetitive.old #[] 2 4).1.mpr (by decide)
  obtain ⟨isText, _, valid⟩ := (replaces Repetitive.old #[] 2 4).2 made text done
  have same : text = Repetitive.new := isText.trans (by decide)
  subst same
  have both := narrows Repetitive.edit Repetitive.old Repetitive.new rfl Repetitive.describes
  rw [narrowed] at both
  exact ⟨⟨made, done, valid (by decide) (by decide)⟩, rfl, Repetitive.describes, narrowed, both⟩

end IncrementalParsing
