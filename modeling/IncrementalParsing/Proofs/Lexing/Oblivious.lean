import IncrementalParsing.Proofs.Lexing.Reach

/-!
Scanners do not see what was examined. The cursor records how far it was looked, but no operation answers
with it, so a scanner that works through its cursor does the same at a place of a text whatever was
examined before.
-/

namespace IncrementalParsing

namespace Cursor

structure Alike (left right : Cursor) : Prop where
  text : right.text = left.text
  position : right.position = left.position

variable {left right : Cursor}

theorem Alike.examine (alike : left.Alike right) {index other : Nat} :
    (left.examine index).Alike (right.examine other) := ⟨alike.text, alike.position⟩

theorem Alike.forward (alike : left.Alike right) (count : Nat) :
    (left.forward count).Alike (right.forward count) := by
  refine ⟨alike.text, ?_⟩
  change right.position + count = left.position + count
  rw [alike.position]

theorem Alike.atEnd (alike : left.Alike right) : right.atEnd = left.atEnd := by
  unfold Cursor.atEnd
  rw [alike.text, alike.position]

theorem Alike.byteAt (alike : left.Alike right) (index : Nat) : right.byteAt index = left.byteAt index := by
  unfold Cursor.byteAt
  rw [alike.text]

theorem Alike.isNext (alike : left.Alike right) (byte : UInt8) :
    (right.isNext byte).1 = (left.isNext byte).1 := by
  unfold Cursor.isNext
  dsimp only
  rw [alike.atEnd, alike.position, alike.byteAt]

theorem Alike.hasAhead (alike : left.Alike right) (distance : Nat) (byte : UInt8) :
    right.hasAhead distance byte = left.hasAhead distance byte := by
  unfold Cursor.hasAhead
  rw [alike.byteAt, alike.text, alike.position]

theorem Alike.advanceWhile (condition : UInt8 → Bool) (count : Nat) : ∀ {left right : Cursor},
    left.text.size - left.position ≤ count → left.Alike right →
    (left.advanceWhile condition).Alike (right.advanceWhile condition) := by
  induction count with
  | zero =>
      intro left right bound alike
      have same := alike.text
      have here := alike.position
      unfold Cursor.advanceWhile
      rw [dif_neg (by omega), dif_neg (by rw [same, here]; omega), here]
      exact alike.examine
  | succ count ih =>
      intro left right bound alike
      obtain ⟨text, place, examined⟩ := left
      obtain ⟨other, there, more⟩ := right
      obtain ⟨rfl, rfl⟩ := alike
      unfold Cursor.advanceWhile
      dsimp only at bound ⊢
      split
      · split
        · refine ih ?_ ⟨rfl, rfl⟩
          change other.size - (there + 1) ≤ count
          omega
        · exact ⟨rfl, rfl⟩
      · exact ⟨rfl, rfl⟩

theorem Alike.continuesWith (bytes : List UInt8) : ∀ {left right : Cursor} (distance : Nat), left.Alike right →
    (right.continuesWith distance bytes).1 = (left.continuesWith distance bytes).1 ∧
      (left.continuesWith distance bytes).2.Alike (right.continuesWith distance bytes).2 := by
  induction bytes with
  | nil => exact fun _ alike => ⟨rfl, alike⟩
  | cons byte rest ih =>
      intro left right distance alike
      unfold Cursor.continuesWith
      dsimp only
      rw [alike.hasAhead, alike.position]
      split
      · exact ih (distance + 1) alike.examine
      · exact ⟨rfl, alike.examine⟩

end Cursor

namespace Scan

/-- What a computation answers and where it moves do not depend on what was examined. -/
def Oblivious {α : Type} (scan : Scan α) : Prop :=
  ∀ left right : Cursor, left.Alike right →
    (scan right).1 = (scan left).1 ∧ (scan left).2.Alike (scan right).2

theorem nth_oblivious (distance : Nat) : (Scan.nth distance).Oblivious := by
  intro left right alike
  refine ⟨?_, alike.text, alike.position⟩
  change right.byteAt (right.position + distance) = left.byteAt (left.position + distance)
  rw [alike.position, alike.byteAt]

theorem advance_oblivious : Scan.advance.Oblivious := by
  intro left right alike
  refine ⟨?_, ?_⟩
  · change right.byteAt right.position = left.byteAt left.position
    rw [alike.position, alike.byteAt]
  · change (Cursor.advance left).2.Alike (Cursor.advance right).2
    unfold Cursor.advance
    dsimp only
    rw [alike.atEnd, alike.position]
    split
    · exact alike.examine
    · exact alike.examine.forward 1

theorem eat_oblivious (byte : UInt8) : (Scan.eat byte).Oblivious := by
  intro left right alike
  refine ⟨alike.isNext byte, ?_⟩
  change Cursor.Alike (if (left.isNext byte).1 then _ else _) (if (right.isNext byte).1 then _ else _)
  rw [alike.isNext byte]
  split
  · exact alike.examine.forward 1
  · exact alike.examine

theorem eatBytes_oblivious (bytes : List UInt8) : (Scan.eatBytes bytes).Oblivious := by
  intro left right alike
  obtain ⟨same, compared⟩ := Cursor.Alike.continuesWith bytes 0 alike
  refine ⟨same, ?_⟩
  change Cursor.Alike (if (left.continuesWith 0 bytes).1 then _ else _)
    (if (right.continuesWith 0 bytes).1 then _ else _)
  rw [same]
  split
  · exact compared.forward _
  · exact compared

theorem Oblivious.bind {α β : Type} {first : Scan α} {next : α → Scan β} (oblivious : first.Oblivious)
    (later : ∀ value, (next value).Oblivious) : (first >>= next).Oblivious := by
  intro left right alike
  obtain ⟨same, moved⟩ := oblivious left right alike
  rw [bind_apply, bind_apply, same]
  exact later _ _ _ moved

/-- A repeated computation goes through the same rounds on both sides. -/
theorem Ends.alike {σ α : Type} {body : σ → Scan (σ ⊕ α)} (each : ∀ state, (body state).Oblivious)
    {state : σ} {left : Cursor} {answer : α × Cursor} (ends : Ends body state left answer) :
    ∀ {right : Cursor} {against : α × Cursor}, Ends body state right against → left.Alike right →
      against.1 = answer.1 ∧ answer.2.Alike against.2 := by
  induction ends with
  | @done state left next value ran =>
      intro right against endsRight alike
      have round := each state left right alike
      rw [ran] at round
      cases endsRight with
      | done ranRight =>
          rw [ranRight] at round
          exact ⟨Sum.inr.inj round.1, round.2⟩
      | again ranRight _ =>
          rw [ranRight] at round
          cases round.1
  | @again state later left next answer ran _ ih =>
      intro right against endsRight alike
      have round := each state left right alike
      rw [ran] at round
      cases endsRight with
      | done ranRight =>
          rw [ranRight] at round
          cases round.1
      | again ranRight restRight =>
          rw [ranRight] at round
          cases Sum.inl.inj round.1
          exact ih restRight round.2

theorem ThroughCursor.oblivious {α : Type} {scan : Scan α} (through : scan.ThroughCursor) :
    scan.Oblivious := by
  induction through with
  | nth distance => exact nth_oblivious distance
  | isEof => exact fun _ _ alike => ⟨alike.atEnd, alike.text, alike.position⟩
  | isNext byte => exact fun _ _ alike => ⟨alike.isNext byte, alike.text, alike.position⟩
  | advance => exact advance_oblivious
  | advanceWhile condition =>
      exact fun _ _ alike => ⟨rfl, Cursor.Alike.advanceWhile condition _ (Nat.le_refl _) alike⟩
  | eat byte => exact eat_oblivious byte
  | eatBytes bytes => exact eatBytes_oblivious bytes
  | pure value => exact fun _ _ alike => ⟨rfl, alike⟩
  | bind _ _ first next => exact first.bind next
  | repeated _ ends state each =>
      exact fun left right alike => (ends state left).alike each (ends state right) alike

theorem Oblivious.at_start {α : Type} {scan : Scan α} (oblivious : scan.Oblivious) (cursor : Cursor) :
    (scan cursor).1 = (scan (.start cursor.text cursor.position)).1 ∧
      (scan cursor).2.position = (scan (.start cursor.text cursor.position)).2.position := by
  obtain ⟨same, moved⟩ := oblivious (.start cursor.text cursor.position) cursor ⟨rfl, rfl⟩
  exact ⟨same, moved.position⟩

end Scan

end IncrementalParsing
