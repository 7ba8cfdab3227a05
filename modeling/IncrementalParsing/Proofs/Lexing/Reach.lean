import IncrementalParsing.Proofs.Lexing.ThroughCursor

/-!
How far scanners look past the end of a text. Most operations of a cursor examine no more than the place
behind the last byte; only asking for a byte at a distance goes further, and no further than the
distance. Passing over everything up to the end of a comment repeats one comparison and one byte until
the comment or the text ends.
-/

namespace IncrementalParsing

namespace Cursor

theorem examined_continuesWith (cursor : Cursor) (distance : Nat) (bytes : List UInt8) :
    cursor.examined ≤ (cursor.continuesWith distance bytes).2.examined := by
  induction bytes generalizing cursor distance with
  | nil => exact Nat.le_refl _
  | cons byte rest ih =>
      have more := ih (cursor.examine (cursor.position + distance)) (distance + 1)
      have here : cursor.examined ≤ (cursor.examine (cursor.position + distance)).examined :=
        Nat.le_max_left _ _
      unfold continuesWith
      dsimp only
      split
      · exact Nat.le_trans here more
      · exact here

theorem examine_of_lt {cursor : Cursor} {index : Nat} (seen : index < cursor.examined) :
    cursor.examine index = cursor := by
  unfold examine
  rw [Nat.max_eq_left seen]

end Cursor

namespace Scan

theorem pure_apply {α : Type} (value : α) (cursor : Cursor) :
    (pure value : Scan α) cursor = (value, cursor) := rfl

theorem bind_apply {α β : Type} (first : Scan α) (next : α → Scan β) (cursor : Cursor) :
    (first >>= next) cursor = next (first cursor).1 (first cursor).2 := rfl

theorem map_apply {α β : Type} (change : α → β) (scan : Scan α) (cursor : Cursor) :
    (change <$> scan) cursor = (change (scan cursor).1, (scan cursor).2) := rfl

def skipRound (close : List UInt8) : Unit → Scan (Unit ⊕ Unit) := fun _ => do
  if ← Scan.isEof then
    return .inr ()
  else
    if ← Scan.eatBytes close then
      return .inr ()
    else
      let _ ← Scan.advance
      return .inl ()

theorem skipRound_run (close : List UInt8) (cursor : Cursor) :
    skipRound close () cursor =
      if cursor.atEnd then (.inr (), cursor.examine cursor.position)
      else
        let compared := (cursor.examine cursor.position).continuesWith 0 close
        if compared.1 then (.inr (), compared.2.forward close.length)
        else (.inl (), compared.2.advance.2) := by
  cases ended : cursor.atEnd with
  | true => simp [skipRound, Scan.isEof, Cursor.isEof, ended, bind_apply, pure_apply]
  | false =>
      cases found : ((cursor.examine cursor.position).continuesWith 0 close).1 with
      | true =>
          simp [skipRound, Scan.isEof, Cursor.isEof, Scan.eatBytes, Cursor.eatBytes, ended, found,
            bind_apply, pure_apply]
      | false =>
          simp [skipRound, Scan.isEof, Cursor.isEof, Scan.eatBytes, Cursor.eatBytes, Scan.advance, ended,
            found, bind_apply, map_apply]

theorem skipPast_ends (close : List UInt8) : ∀ (left : Nat) (cursor : Cursor),
    cursor.text.size - cursor.position ≤ left →
    Scan.Ends (skipRound close) () cursor ((), cursor.skipPast close)
  | left, cursor, bound => by
      have round := skipRound_run close cursor
      have kept := Cursor.continuesWith_keeps (cursor.examine cursor.position) 0 close
      have looked := Cursor.examined_continuesWith (cursor.examine cursor.position) 0 close
      rw [Cursor.text_examine, Cursor.position_examine] at kept
      rw [Cursor.skipPast]
      dsimp only
      split
      · rename_i more
        rw [if_neg (by simpa [Cursor.atEnd] using more)] at round
        dsimp only at round
        split
        · rename_i found
          rw [if_pos found] at round
          exact .done round
        · rename_i missed
          have inside : ((cursor.examine cursor.position).continuesWith 0 close).2.atEnd = false := by
            unfold Cursor.atEnd
            rw [kept.1, kept.2]
            exact decide_eq_false (Nat.not_le_of_lt more)
          have advanced : ((cursor.examine cursor.position).continuesWith 0 close).2.advance.2 =
              ((cursor.examine cursor.position).continuesWith 0 close).2.forward 1 := by
            have seen : ((cursor.examine cursor.position).continuesWith 0 close).2.position <
                ((cursor.examine cursor.position).continuesWith 0 close).2.examined := by
              rw [kept.2]
              exact Nat.le_trans (Nat.le_max_right _ _) looked
            unfold Cursor.advance
            dsimp only
            rw [Cursor.examine_of_lt seen, inside]
            rfl
          rw [if_neg missed, advanced] at round
          match left with
          | 0 => omega
          | left + 1 =>
              refine .again round (skipPast_ends close left _ ?_)
              change ((cursor.examine cursor.position).continuesWith 0 close).2.text.size -
                (((cursor.examine cursor.position).continuesWith 0 close).2.position + 1) ≤ left
              rw [kept.1, kept.2]
              omega
      · rename_i ended
        rw [if_pos (by simpa [Cursor.atEnd] using ended)] at round
        exact .done round

/-! ### The end of the text -/

section Slack

variable {α β : Type} {slack : Nat}

/-- Nothing is examined more than `slack` bytes past the end of the text. -/
def LooksPast (slack : Nat) (scan : Scan α) : Prop :=
  ∀ cursor, cursor.position ≤ cursor.text.size → cursor.examined ≤ cursor.text.size + slack →
    (scan cursor).2.examined ≤ cursor.text.size + slack

theorem nth_looksPast {distance : Nat} (near : distance < slack) :
    (Scan.nth distance).LooksPast slack := by
  intro cursor inside before
  change max cursor.examined (cursor.position + distance + 1) ≤ _
  omega

theorem isEof_looksPast (near : 0 < slack) : Scan.isEof.LooksPast slack := by
  intro cursor inside before
  change max cursor.examined (cursor.position + 1) ≤ _
  omega

theorem isNext_looksPast (near : 0 < slack) (byte : UInt8) : (Scan.isNext byte).LooksPast slack := by
  intro cursor inside before
  change max cursor.examined (cursor.position + 1) ≤ _
  omega

theorem advance_looksPast (near : 0 < slack) : Scan.advance.LooksPast slack := by
  intro cursor inside before
  have examined : (Scan.advance cursor).2.examined = max cursor.examined (cursor.position + 1) := by
    change (Cursor.advance cursor).2.examined = _
    unfold Cursor.advance
    dsimp only
    split <;> rfl
  omega

theorem advanceWhile_looksPast (near : 0 < slack) (condition : UInt8 → Bool) :
    (Scan.advanceWhile condition).LooksPast slack := by
  intro cursor
  change _ → _ → (cursor.advanceWhile condition).examined ≤ _
  fun_induction Cursor.advanceWhile cursor condition with
  | case1 cursor more looked _ ih =>
      intro inside before
      have here : max cursor.examined (cursor.position + 1) ≤ cursor.text.size + slack := by omega
      exact ih more here
  | case2 cursor more looked _ =>
      intro inside before
      change max cursor.examined (cursor.position + 1) ≤ _
      omega
  | case3 cursor ended =>
      intro inside before
      change max cursor.examined (cursor.position + 1) ≤ _
      omega

theorem continuesWith_looksPast (near : 0 < slack) (bytes : List UInt8) (cursor : Cursor) (distance : Nat)
    (inside : cursor.position + distance ≤ cursor.text.size)
    (before : cursor.examined ≤ cursor.text.size + slack) :
    (cursor.continuesWith distance bytes).2.examined ≤ cursor.text.size + slack := by
  induction bytes generalizing cursor distance with
  | nil => exact before
  | cons byte rest ih =>
      have here : max cursor.examined (cursor.position + distance + 1) ≤ cursor.text.size + slack := by
        omega
      unfold Cursor.continuesWith
      dsimp only
      split
      · rename_i same
        unfold Cursor.hasAhead at same
        have more := of_decide_eq_true (Bool.and_eq_true_iff.mp same).1
        exact ih (cursor.examine (cursor.position + distance)) (distance + 1) more here
      · exact here

theorem eatBytes_looksPast (near : 0 < slack) (bytes : List UInt8) :
    (Scan.eatBytes bytes).LooksPast slack := by
  intro cursor inside before
  have compared := continuesWith_looksPast near bytes cursor 0 inside before
  change (if (cursor.continuesWith 0 bytes).1 then _ else _ : Cursor).examined ≤ _
  split <;> exact compared

theorem Ends.looksPast {σ : Type} {body : σ → Scan (σ ⊕ α)} (sound : ∀ state, (body state).Sound)
    (looks : ∀ state, (body state).LooksPast slack) {state : σ} {cursor : Cursor} {answer : α × Cursor}
    (ends : Ends body state cursor answer) :
    cursor.position ≤ cursor.text.size → cursor.examined ≤ cursor.text.size + slack →
      answer.2.examined ≤ cursor.text.size + slack := by
  induction ends with
  | @done state cursor next value ran =>
      intro inside before
      have here := looks state cursor inside before
      rwa [ran] at here
  | @again state later cursor next answer ran _ ih =>
      intro inside before
      have here := looks state cursor inside before
      have within := (sound state).within cursor inside
      have kept := (sound state).text cursor
      rw [ran] at here within kept
      dsimp only at here within kept
      rw [kept] at ih
      exact ih within here

/-- A computation that works through the cursor and stays near the text. -/
structure Near (slack : Nat) (scan : Scan α) : Prop where
  through : scan.ThroughCursor
  looks : scan.LooksPast slack

namespace Near

theorem nth {distance : Nat} (near : distance < slack) : Near slack (Scan.nth distance) :=
  ⟨.nth distance, nth_looksPast near⟩

theorem isEof : Near (slack + 1) Scan.isEof := ⟨.isEof, isEof_looksPast (Nat.succ_pos _)⟩

theorem isNext (byte : UInt8) : Near (slack + 1) (Scan.isNext byte) :=
  ⟨.isNext byte, isNext_looksPast (Nat.succ_pos _) byte⟩

theorem advance : Near (slack + 1) Scan.advance := ⟨.advance, advance_looksPast (Nat.succ_pos _)⟩

theorem advanceWhile (condition : UInt8 → Bool) : Near (slack + 1) (Scan.advanceWhile condition) :=
  ⟨.advanceWhile condition, advanceWhile_looksPast (Nat.succ_pos _) condition⟩

theorem eatBytes (bytes : List UInt8) : Near (slack + 1) (Scan.eatBytes bytes) :=
  ⟨.eatBytes bytes, eatBytes_looksPast (Nat.succ_pos _) bytes⟩

theorem pure (value : α) : Near slack (Pure.pure value : Scan α) :=
  ⟨.pure value, fun _ _ before => before⟩

theorem bind {first : Scan α} {next : α → Scan β} (near : Near slack first)
    (later : ∀ value, Near slack (next value)) : Near slack (first >>= next) := by
  constructor
  · exact .bind near.through (fun value => (later value).through)
  · intro cursor inside before
    have sound := near.through.sound
    have here := near.looks cursor inside before
    have rest := (later (first cursor).1).looks (first cursor).2
    rw [sound.text cursor] at rest
    exact rest (sound.within cursor inside) here

theorem advanceBy (count : Nat) : Near (slack + 1) (Scan.advanceBy count) := by
  induction count with
  | zero => exact .pure ()
  | succ count ih => exact .bind .advance (fun _ => ih)

theorem skipRound (close : List UInt8) (state : Unit) :
    Near (slack + 1) (Scan.skipRound close state) := by
  refine .bind .isEof (fun ended => ?_)
  cases ended with
  | true => exact .pure _
  | false =>
      refine .bind (.eatBytes close) (fun found => ?_)
      cases found with
      | true => exact .pure _
      | false => exact .bind .advance (fun _ => .pure _)

theorem skipPast (close : List UInt8) : Near (slack + 1) (Scan.skipPast close) := by
  constructor
  · exact @ThroughCursor.repeated _ _ _ (fun _ => Scan.skipPast close)
      (fun state => (@skipRound slack close state).through)
      (fun _ cursor => skipPast_ends close _ cursor (Nat.le_refl _)) ()
  · intro cursor
    exact Ends.looksPast (fun state => (@skipRound slack close state).through.sound)
      (fun state => (skipRound close state).looks) (skipPast_ends close _ cursor (Nat.le_refl _))

end Near

end Slack

end Scan

/-- A scanner all of whose computations work through the cursor and stay near the text. -/
structure Scanner.Near (slack : Nat) (scanner : Scanner) : Prop where
  trivia : scanner.trivia.Near slack
  scan : scanner.scan.Near slack
  scanExternal : ∀ admitted, (scanner.scanExternal admitted).Near slack

theorem Scanner.Near.throughCursor {slack : Nat} {scanner : Scanner} (near : scanner.Near slack) :
    scanner.ThroughCursor :=
  ⟨near.trivia.through, near.scan.through, fun admitted => (near.scanExternal admitted).through⟩

end IncrementalParsing
