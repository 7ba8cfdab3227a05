import IncrementalParsing.Proofs.Parsing.Reuse

/-!
What is left of an edit. An edit describes two texts when they agree outside of the edited ranges;
narrowing it leaves out bytes that agree as well, so the narrowed change describes the texts too.
-/

namespace IncrementalParsing

/-- The texts agree before the edited ranges and after them. -/
structure InputEdit.Describes (edit : InputEdit) (old new : Array UInt8) : Prop where
  before : ∀ index, index < edit.start → (old[index]? : Option UInt8) = new[index]?
  after : ∀ index, (old[edit.oldEnd + index]? : Option UInt8) = new[edit.newEnd + index]?

namespace Change

structure Describes (change : Change) (old new : Array UInt8) : Prop where
  before : ∀ index, index < change.start → (old[index]? : Option UInt8) = new[index]?
  after : ∀ index, (old[change.oldEnd + index]? : Option UInt8) = new[change.newEnd + index]?

theorem commonForward_agree (old new : Array UInt8) : ∀ (count start index : Nat),
    index < commonForward old new start count →
    (old[start + index]? : Option UInt8) = new[start + index]?
  | 0, _, index, inside => absurd inside (Nat.not_lt_zero index)
  | count + 1, start, index, inside => by
      unfold commonForward at inside
      split at inside
      · rename_i same
        cases index with
        | zero => exact same
        | succ index =>
            have rest := commonForward_agree old new count (start + 1) index (Nat.lt_of_succ_lt_succ inside)
            rw [Nat.add_assoc, Nat.add_comm 1 index] at rest
            exact rest
      · exact absurd inside (Nat.not_lt_zero index)

theorem commonBackward_agree (old new : Array UInt8) : ∀ (count oldEnd newEnd : Nat),
    count ≤ oldEnd → count ≤ newEnd → ∀ index, index < commonBackward old new oldEnd newEnd count →
    (old[oldEnd - commonBackward old new oldEnd newEnd count + index]? : Option UInt8) =
      new[newEnd - commonBackward old new oldEnd newEnd count + index]?
  | 0, _, _, _, _, index, inside => absurd inside (Nat.not_lt_zero index)
  | count + 1, oldEnd, newEnd, oldRoom, newRoom, index, inside => by
      have bound := commonBackward_le old new count (oldEnd - 1) (newEnd - 1)
      unfold commonBackward at inside ⊢
      split at inside
      · rename_i same
        rw [if_pos same]
        rcases Nat.lt_or_ge index (commonBackward old new (oldEnd - 1) (newEnd - 1) count) with low | high
        · have rest := commonBackward_agree old new count (oldEnd - 1) (newEnd - 1) (by omega) (by omega)
            index low
          rw [Nat.sub_sub, Nat.sub_sub, Nat.add_comm 1] at rest
          exact rest
        · have last : index = commonBackward old new (oldEnd - 1) (newEnd - 1) count := by omega
          have oldPlace : oldEnd - (commonBackward old new (oldEnd - 1) (newEnd - 1) count + 1) + index =
              oldEnd - 1 := by omega
          have newPlace : newEnd - (commonBackward old new (oldEnd - 1) (newEnd - 1) count + 1) + index =
              newEnd - 1 := by omega
          rw [oldPlace, newPlace]
          exact same
      · exact absurd inside (Nat.not_lt_zero index)

theorem narrow_describes {edit : InputEdit} {old new : Array UInt8}
    (valid : edit.validate old.size new.size = .ok ()) (describes : edit.Describes old new) :
    (narrow edit old new).Describes old new := by
  obtain ⟨startOld, startNew, _, _, _⟩ := InputEdit.validate_ok valid
  have forward := commonForward_le old new (min edit.oldEnd edit.newEnd - edit.start) edit.start
  have same := commonForward_agree old new (min edit.oldEnd edit.newEnd - edit.start) edit.start
  have backward := commonBackward_le old new (min edit.oldEnd edit.newEnd - (edit.start +
    commonForward old new edit.start (min edit.oldEnd edit.newEnd - edit.start))) edit.oldEnd edit.newEnd
  have dropped := commonBackward_agree old new (min edit.oldEnd edit.newEnd - (edit.start +
    commonForward old new edit.start (min edit.oldEnd edit.newEnd - edit.start))) edit.oldEnd edit.newEnd
    (by omega) (by omega)
  unfold narrow
  constructor
  · intro index inside
    dsimp only at inside
    rcases Nat.lt_or_ge index edit.start with low | high
    · exact describes.before index low
    · obtain ⟨more, rfl⟩ := Nat.exists_eq_add_of_le high
      exact same more (by omega)
  · intro index
    dsimp only
    generalize commonBackward old new edit.oldEnd edit.newEnd _ = count at backward dropped ⊢
    rcases Nat.lt_or_ge index count with low | high
    · exact dropped index low
    · obtain ⟨more, rfl⟩ := Nat.exists_eq_add_of_le high
      have oldPlace : edit.oldEnd - count + (count + more) = edit.oldEnd + more := by omega
      have newPlace : edit.newEnd - count + (count + more) = edit.newEnd + more := by omega
      rw [oldPlace, newPlace]
      exact describes.after more

theorem Describes.eq_of_isEmpty {change : Change} {old new : Array UInt8}
    (describes : change.Describes old new) (empty : change.isEmpty = true) : old = new := by
  unfold isEmpty at empty
  rw [Bool.and_eq_true, beq_iff_eq, beq_iff_eq] at empty
  refine Array.ext_getElem? (fun index => ?_)
  rcases Nat.lt_or_ge index change.start with low | high
  · exact describes.before index low
  · obtain ⟨more, rfl⟩ := Nat.exists_eq_add_of_le high
    have after := describes.after more
    rw [← empty.1, ← empty.2] at after
    exact after

end Change

end IncrementalParsing
