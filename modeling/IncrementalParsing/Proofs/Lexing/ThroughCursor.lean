import IncrementalParsing.Lexing.ByteClass
import IncrementalParsing.Proofs.Outcome

/-!
Scanners that work through their cursor. A scanner gets at the text by the operations of the cursor
alone: it may perform them one after another, decide on their answers what to do next, and repeat
itself as long as it comes to an end. What such a scanner answers depends on the bytes that it has
examined and on nothing else, not even on where in the text they stand.
-/

namespace IncrementalParsing

/-- How a repeated computation ends: `body` is run on the state that it answered last until it answers
with a value. -/
inductive Scan.Ends {σ α : Type} (body : σ → Scan (σ ⊕ α)) : σ → Cursor → α × Cursor → Prop
  | done {state : σ} {cursor next : Cursor} {value : α} :
      body state cursor = (.inr value, next) → Ends body state cursor (value, next)
  | again {state later : σ} {cursor next : Cursor} {answer : α × Cursor} :
      body state cursor = (.inl later, next) → Ends body later next answer →
      Ends body state cursor answer

/-- Computations that read and move a cursor by its operations alone. -/
inductive Scan.ThroughCursor : {α : Type} → Scan α → Prop
  | nth (distance : Nat) : ThroughCursor (Scan.nth distance)
  | isEof : ThroughCursor Scan.isEof
  | isNext (byte : UInt8) : ThroughCursor (Scan.isNext byte)
  | advance : ThroughCursor Scan.advance
  | advanceWhile (condition : UInt8 → Bool) : ThroughCursor (Scan.advanceWhile condition)
  | eat (byte : UInt8) : ThroughCursor (Scan.eat byte)
  | eatBytes (bytes : List UInt8) : ThroughCursor (Scan.eatBytes bytes)
  | pure {α : Type} (value : α) : ThroughCursor (Pure.pure value : Scan α)
  | bind {α β : Type} {first : Scan α} {next : α → Scan β} :
      ThroughCursor first → (∀ value, ThroughCursor (next value)) →
      ThroughCursor (first >>= next)
  | repeated {σ α : Type} {body : σ → Scan (σ ⊕ α)} {whole : σ → Scan α} :
      (∀ state, ThroughCursor (body state)) →
      (∀ state cursor, Scan.Ends body state cursor (whole state cursor)) →
      ∀ state, ThroughCursor (whole state)

/-- A scanner all of whose computations work through the cursor. -/
structure Scanner.ThroughCursor (scanner : Scanner) : Prop where
  trivia : scanner.trivia.ThroughCursor
  scan : scanner.scan.ThroughCursor
  scanExternal : ∀ admitted, (scanner.scanExternal admitted).ThroughCursor

namespace Cursor

structure Beside (base other : Nat) (left right : Cursor) : Prop where
  exists_position : ∃ distance, left.position = base + distance ∧ right.position = other + distance
  exists_examined : ∃ distance, left.examined = base + distance ∧ right.examined = other + distance

/-- Two texts agree from `base` and from `other` on, up to the byte before `stop` in the first. An end
of the text agrees with an end only. -/
def Agree (text against : Array UInt8) (base other stop : Nat) : Prop :=
  ∀ distance, base + distance < stop →
    (text[base + distance]? : Option UInt8) = against[other + distance]?

theorem Agree.shorten {text against : Array UInt8} {base other stop short : Nat} (le : short ≤ stop)
    (agree : Agree text against base other stop) : Agree text against base other short :=
  fun distance inside => agree distance (Nat.lt_of_lt_of_le inside le)

theorem Agree.advance {text against : Array UInt8} {base other stop : Nat} (count : Nat)
    (agree : Agree text against base other stop) : Agree text against (base + count) (other + count) stop := by
  intro distance inside
  rw [Nat.add_assoc, Nat.add_assoc]
  exact agree (count + distance) (by omega)

theorem Agree.inside {text against : Array UInt8} {base other stop : Nat} {count : Nat}
    (agree : Agree text against base other stop) (bound : base + count ≤ stop)
    (within : base + count ≤ text.size) (start : other ≤ against.size) : other + count ≤ against.size := by
  cases count with
  | zero => exact start
  | succ before =>
      have last := agree before (by omega)
      rw [Array.getElem?_eq_getElem (by omega)] at last
      have there := (Array.getElem?_eq_some_iff.mp last.symm).1
      omega

end Cursor

/-- What a computation does that works through the cursor: the text stays, the cursor moves forward
over bytes that it examines, and what it answers follows from the bytes that were examined. -/
structure Scan.Sound {α : Type} (scan : Scan α) : Prop where
  text : ∀ cursor, (scan cursor).2.text = cursor.text
  forward : ∀ cursor, cursor.position ≤ (scan cursor).2.position
  within : ∀ cursor, cursor.position ≤ cursor.text.size →
    (scan cursor).2.position ≤ cursor.text.size
  examined_le : ∀ cursor, cursor.examined ≤ (scan cursor).2.examined
  reach : ∀ cursor, cursor.position ≤ cursor.examined →
    (scan cursor).2.position ≤ (scan cursor).2.examined
  locally : ∀ base other left right, Cursor.Beside base other left right →
    Cursor.Agree left.text right.text base other (scan left).2.examined →
    (scan right).1 = (scan left).1 ∧ Cursor.Beside base other (scan left).2 (scan right).2

namespace Cursor

section Primitives

variable {base other : Nat} {left right : Cursor}

theorem Beside.examine (beside : Beside base other left right) (distance : Nat) :
    Beside base other (left.examine (left.position + distance))
      (right.examine (right.position + distance)) := by
  obtain ⟨⟨place, leftAt, rightAt⟩, ⟨reach, leftReach, rightReach⟩⟩ := beside
  refine ⟨⟨place, leftAt, rightAt⟩, ⟨max reach (place + distance + 1), ?_, ?_⟩⟩
  · change max left.examined (left.position + distance + 1) = _
    omega
  · change max right.examined (right.position + distance + 1) = _
    omega

theorem Beside.forward (beside : Beside base other left right) (count : Nat) :
    Beside base other (left.forward count) (right.forward count) := by
  obtain ⟨⟨place, leftAt, rightAt⟩, examined⟩ := beside
  refine ⟨⟨place + count, ?_, ?_⟩, examined⟩
  · change left.position + count = _
    omega
  · change right.position + count = _
    omega

theorem Beside.ahead (beside : Beside base other left right) (distance : Nat) {stop : Nat}
    (agree : Agree left.text right.text base other stop) (inside : left.position + distance < stop) :
    (left.text[left.position + distance]? : Option UInt8) = right.text[right.position + distance]? := by
  obtain ⟨⟨place, leftAt, rightAt⟩, _⟩ := beside
  have here := agree (place + distance) (by omega)
  rw [leftAt, rightAt, Nat.add_assoc, Nat.add_assoc]
  exact here

theorem Beside.byteAt (beside : Beside base other left right) {distance stop : Nat}
    (agree : Agree left.text right.text base other stop) (inside : left.position + distance < stop) :
    right.byteAt (right.position + distance) = left.byteAt (left.position + distance) := by
  unfold Cursor.byteAt
  rw [beside.ahead distance agree inside]

theorem Beside.size_le_iff (beside : Beside base other left right) (distance : Nat) {stop : Nat}
    (agree : Agree left.text right.text base other stop) (inside : left.position + distance < stop) :
    right.text.size ≤ right.position + distance ↔ left.text.size ≤ left.position + distance := by
  have same := beside.ahead distance agree inside
  rw [← Array.getElem?_eq_none_iff, ← Array.getElem?_eq_none_iff, same]

theorem Beside.atEnd (beside : Beside base other left right) {stop : Nat}
    (agree : Agree left.text right.text base other stop) (inside : left.position < stop) :
    right.atEnd = left.atEnd := by
  unfold Cursor.atEnd
  rw [decide_eq_decide]
  exact beside.size_le_iff 0 agree (show left.position + 0 < stop from inside)

theorem Beside.hasAhead (beside : Beside base other left right) {distance stop : Nat}
    (agree : Agree left.text right.text base other stop) (inside : left.position + distance < stop)
    (byte : UInt8) : right.hasAhead distance byte = left.hasAhead distance byte := by
  unfold Cursor.hasAhead
  rw [beside.byteAt agree inside]
  have ends := beside.size_le_iff _ agree inside
  congr 1
  simp only [decide_eq_decide]
  omega

end Primitives

end Cursor

namespace Scan

theorem nth_sound (distance : Nat) : (Scan.nth distance).Sound where
  text _ := rfl
  forward _ := Nat.le_refl _
  within _ inside := inside
  examined_le _ := Nat.le_max_left _ _
  reach _ behind := Nat.le_trans behind (Nat.le_max_left _ _)
  locally _ _ _ _ beside agree :=
    ⟨beside.byteAt agree (Nat.lt_of_lt_of_le (Nat.lt_succ_self _) (Nat.le_max_right _ _)),
      beside.examine distance⟩

theorem isEof_sound : Scan.isEof.Sound where
  text _ := rfl
  forward _ := Nat.le_refl _
  within _ inside := inside
  examined_le _ := Nat.le_max_left _ _
  reach _ behind := Nat.le_trans behind (Nat.le_max_left _ _)
  locally base other left right beside agree := by
    have inside : left.position < max left.examined (left.position + 1) := by omega
    exact ⟨beside.atEnd agree inside, beside.examine 0⟩

private theorem isNext_locally {base other : Nat} {left right : Cursor} {stop : Nat} (byte : UInt8)
    (beside : Cursor.Beside base other left right)
    (agree : Cursor.Agree left.text right.text base other stop) (inside : left.position < stop) :
    (right.isNext byte).1 = (left.isNext byte).1 := by
  have bytes := beside.byteAt agree (show left.position + 0 < stop from inside)
  change (!right.atEnd && right.byteAt right.position == byte) =
    (!left.atEnd && left.byteAt left.position == byte)
  rw [Nat.add_zero, Nat.add_zero] at bytes
  rw [bytes, beside.atEnd agree inside]

theorem isNext_sound (byte : UInt8) : (Scan.isNext byte).Sound where
  text _ := rfl
  forward _ := Nat.le_refl _
  within _ inside := inside
  examined_le _ := Nat.le_max_left _ _
  reach _ behind := Nat.le_trans behind (Nat.le_max_left _ _)
  locally _ _ _ _ beside agree :=
    ⟨isNext_locally byte beside agree (Nat.lt_of_lt_of_le (Nat.lt_succ_self _) (Nat.le_max_right _ _)),
      beside.examine 0⟩

theorem advance_sound : Scan.advance.Sound where
  text cursor := by
    change (Cursor.advance cursor).2.text = _
    unfold Cursor.advance
    dsimp only
    split <;> rfl
  forward cursor := by
    change _ ≤ (Cursor.advance cursor).2.position
    unfold Cursor.advance
    dsimp only
    split
    · exact Nat.le_refl _
    · exact Nat.le_add_right _ _
  within cursor inside := by
    change (Cursor.advance cursor).2.position ≤ _
    unfold Cursor.advance
    dsimp only
    split
    · exact inside
    · rename_i more
      unfold Cursor.atEnd at more
      rw [decide_eq_true_eq] at more
      change cursor.position + 1 ≤ _
      omega
  examined_le cursor := by
    change _ ≤ (Cursor.advance cursor).2.examined
    unfold Cursor.advance
    dsimp only
    split <;> exact Nat.le_max_left _ _
  reach cursor behind := by
    change (Cursor.advance cursor).2.position ≤ (Cursor.advance cursor).2.examined
    unfold Cursor.advance
    dsimp only
    split
    · exact Nat.le_trans behind (Nat.le_max_left _ _)
    · exact Nat.le_max_right _ _
  locally base other left right beside agree := by
    have examined : (Cursor.advance left).2.examined = max left.examined (left.position + 1) := by
      unfold Cursor.advance
      dsimp only
      split <;> rfl
    have inside : left.position + 0 < (Cursor.advance left).2.examined := by omega
    refine ⟨beside.byteAt agree inside, ?_⟩
    change Cursor.Beside base other (Cursor.advance left).2 (Cursor.advance right).2
    unfold Cursor.advance
    dsimp only
    rw [beside.atEnd agree inside]
    split
    · exact beside.examine 0
    · exact (beside.examine 0).forward 1

theorem eat_sound (byte : UInt8) : (Scan.eat byte).Sound where
  text cursor := by
    change (if (cursor.isNext byte).1 then _ else _ : Cursor).text = _
    split <;> rfl
  forward cursor := by
    change _ ≤ (if (cursor.isNext byte).1 then _ else _ : Cursor).position
    split
    · exact Nat.le_add_right _ _
    · exact Nat.le_refl _
  within cursor inside := by
    change (if (cursor.isNext byte).1 then _ else _ : Cursor).position ≤ _
    split
    · rename_i found
      have more : (!cursor.atEnd) = true := (Bool.and_eq_true_iff.mp found).1
      unfold Cursor.atEnd at more
      change cursor.position + 1 ≤ _
      simp only [Bool.not_eq_true', decide_eq_false_iff_not] at more
      omega
    · exact inside
  examined_le cursor := by
    change _ ≤ (if (cursor.isNext byte).1 then _ else _ : Cursor).examined
    split <;> exact Nat.le_max_left _ _
  reach cursor behind := by
    change (if (cursor.isNext byte).1 then _ else _ : Cursor).position ≤
      (if (cursor.isNext byte).1 then _ else _ : Cursor).examined
    split
    · exact Nat.le_max_right _ _
    · exact Nat.le_trans behind (Nat.le_max_left _ _)
  locally base other left right beside agree := by
    have examined : (left.eat byte).2.examined = max left.examined (left.position + 1) := by
      change (if (left.isNext byte).1 then _ else _ : Cursor).examined = _
      split <;> rfl
    have inside : left.position + 0 < (left.eat byte).2.examined := by omega
    have same := isNext_locally byte beside agree inside
    refine ⟨same, ?_⟩
    change Cursor.Beside base other (if (left.isNext byte).1 then _ else _)
      (if (right.isNext byte).1 then _ else _)
    rw [same]
    split
    · exact (beside.examine 0).forward 1
    · exact beside.examine 0

private structure Passes (cursor next : Cursor) : Prop where
  text : next.text = cursor.text
  forward : cursor.position ≤ next.position
  within : cursor.position ≤ cursor.text.size → next.position ≤ cursor.text.size
  examined_le : cursor.examined ≤ next.examined
  reach : cursor.position ≤ cursor.examined → next.position ≤ next.examined
  here : cursor.position < next.examined

private theorem advanceWhile_passes (condition : UInt8 → Bool) : ∀ (left : Nat) (cursor : Cursor),
    cursor.text.size - cursor.position ≤ left → Passes cursor (cursor.advanceWhile condition) := by
  intro left
  induction left with
  | zero =>
      intro cursor bound
      unfold Cursor.advanceWhile
      rw [dif_neg (by omega)]
      exact ⟨rfl, Nat.le_refl _, id, Nat.le_max_left _ _,
        fun behind => Nat.le_trans behind (Nat.le_max_left _ _), Nat.le_max_right _ _⟩
  | succ left ih =>
      intro cursor bound
      unfold Cursor.advanceWhile
      split
      · rename_i more
        dsimp only
        split
        · have rest := ih ((cursor.examine cursor.position).forward 1)
            (show cursor.text.size - (cursor.position + 1) ≤ left by omega)
          have examined : max cursor.examined (cursor.position + 1) ≤ _ := rest.examined_le
          refine ⟨rest.text, ?_, fun _ => rest.within more, ?_, fun _ => rest.reach ?_, ?_⟩
          · exact Nat.le_trans (Nat.le_succ _) rest.forward
          · exact Nat.le_trans (Nat.le_max_left _ _) examined
          · exact Nat.le_max_right _ _
          · exact Nat.lt_of_lt_of_le (Nat.lt_succ_self _) (Nat.le_trans (Nat.le_max_right _ _) examined)
        · exact ⟨rfl, Nat.le_refl _, id, Nat.le_max_left _ _,
            fun behind => Nat.le_trans behind (Nat.le_max_left _ _), Nat.le_max_right _ _⟩
      · exact ⟨rfl, Nat.le_refl _, id, Nat.le_max_left _ _,
          fun behind => Nat.le_trans behind (Nat.le_max_left _ _), Nat.le_max_right _ _⟩

private theorem advanceWhile_locally (condition : UInt8 → Bool) (base other : Nat) :
    ∀ (count : Nat) (left right : Cursor), left.text.size - left.position ≤ count →
      Cursor.Beside base other left right →
      Cursor.Agree left.text right.text base other (left.advanceWhile condition).examined →
      Cursor.Beside base other (left.advanceWhile condition) (right.advanceWhile condition) := by
  intro count
  induction count with
  | zero =>
      intro left right bound beside agree
      have here := (advanceWhile_passes condition _ left (Nat.le_refl _)).here
      have ends := beside.size_le_iff 0 agree here
      unfold Cursor.advanceWhile
      rw [dif_neg (by omega), dif_neg (by omega)]
      exact beside.examine 0
  | succ count ih =>
      intro left right bound beside agree
      have here := (advanceWhile_passes condition _ left (Nat.le_refl _)).here
      have ends := beside.size_le_iff 0 agree here
      have ahead := beside.ahead 0 agree here
      unfold Cursor.advanceWhile at agree ⊢
      by_cases more : left.position < left.text.size
      · have moreRight : right.position < right.text.size := by omega
        rw [dif_pos more] at agree ⊢
        rw [dif_pos moreRight]
        rw [Nat.add_zero, Nat.add_zero, Array.getElem?_eq_getElem more,
          Array.getElem?_eq_getElem moreRight, Option.some.injEq] at ahead
        dsimp only at agree ⊢
        rw [← ahead]
        split
        · rename_i passed
          rw [if_pos passed] at agree
          exact ih _ _ (show left.text.size - (left.position + 1) ≤ count by omega)
            ((beside.examine 0).forward 1) agree
        · exact beside.examine 0
      · rw [dif_neg more, dif_neg (by omega)]
        exact beside.examine 0

theorem advanceWhile_sound (condition : UInt8 → Bool) : (Scan.advanceWhile condition).Sound where
  text cursor := (advanceWhile_passes condition _ cursor (Nat.le_refl _)).text
  forward cursor := (advanceWhile_passes condition _ cursor (Nat.le_refl _)).forward
  within cursor := (advanceWhile_passes condition _ cursor (Nat.le_refl _)).within
  examined_le cursor := (advanceWhile_passes condition _ cursor (Nat.le_refl _)).examined_le
  reach cursor := (advanceWhile_passes condition _ cursor (Nat.le_refl _)).reach
  locally base other left right beside agree :=
    ⟨rfl, advanceWhile_locally condition base other _ left right (Nat.le_refl _) beside agree⟩

theorem continuesWith_examined : ∀ (bytes : List UInt8) (cursor : Cursor) (distance : Nat),
    cursor.examined ≤ (cursor.continuesWith distance bytes).2.examined ∧
      ((cursor.continuesWith distance bytes).1 = true → bytes ≠ [] →
        cursor.position + distance + bytes.length ≤ (cursor.continuesWith distance bytes).2.examined ∧
          cursor.position + distance + bytes.length ≤ cursor.text.size)
  | [], cursor, distance => ⟨Nat.le_refl _, fun _ none => absurd rfl none⟩
  | byte :: rest, cursor, distance => by
      unfold Cursor.continuesWith
      dsimp only
      have ih := continuesWith_examined rest (cursor.examine (cursor.position + distance)) (distance + 1)
      have first : max cursor.examined (cursor.position + distance + 1) ≤ _ := ih.1
      split
      · rename_i same
        refine ⟨by omega, fun found _ => ?_⟩
        have inside : cursor.position + distance < cursor.text.size := by
          unfold Cursor.hasAhead at same
          exact of_decide_eq_true (Bool.and_eq_true_iff.mp same).1
        rw [List.length_cons]
        cases rest with
        | nil =>
            rw [List.length_nil]
            omega
        | cons next more =>
            have later := ih.2 found (List.cons_ne_nil _ _)
            simp only [Cursor.position_examine, Cursor.text_examine] at later
            omega
      · exact ⟨Nat.le_max_left _ _, fun impossible => absurd impossible (by simp)⟩

theorem continuesWith_locally {base other : Nat} : ∀ (bytes : List UInt8) (left right : Cursor)
    (distance : Nat), Cursor.Beside base other left right →
    Cursor.Agree left.text right.text base other (left.continuesWith distance bytes).2.examined →
    (right.continuesWith distance bytes).1 = (left.continuesWith distance bytes).1 ∧
      Cursor.Beside base other (left.continuesWith distance bytes).2
        (right.continuesWith distance bytes).2
  | [], left, right, distance, beside, _agree => ⟨rfl, beside⟩
  | byte :: rest, left, right, distance, beside, agree => by
      have looked := (continuesWith_examined rest
        (left.examine (left.position + distance)) (distance + 1)).1
      have examined : left.position + distance < (left.continuesWith distance (byte :: rest)).2.examined := by
        unfold Cursor.continuesWith
        dsimp only
        change max left.examined (left.position + distance + 1) ≤ _ at looked
        split
        · omega
        · exact Nat.lt_of_lt_of_le (Nat.lt_succ_self _) (Nat.le_max_right _ _)
      have same := beside.hasAhead agree examined byte
      unfold Cursor.continuesWith at agree ⊢
      dsimp only at agree ⊢
      rw [same]
      split
      · rename_i found
        rw [if_pos found] at agree
        exact continuesWith_locally rest _ _ (distance + 1) (beside.examine distance) agree
      · exact ⟨rfl, beside.examine distance⟩

theorem eatBytes_sound (bytes : List UInt8) : (Scan.eatBytes bytes).Sound where
  text cursor := by
    have kept := Cursor.continuesWith_keeps cursor 0 bytes
    change (if (cursor.continuesWith 0 bytes).1 then _ else _ : Cursor).text = _
    split
    · exact kept.1
    · exact kept.1
  forward cursor := by
    have kept := Cursor.continuesWith_keeps cursor 0 bytes
    change _ ≤ (if (cursor.continuesWith 0 bytes).1 then _ else _ : Cursor).position
    split
    · exact Nat.le_trans (Nat.le_of_eq kept.2.symm) (Nat.le_add_right _ _)
    · exact Nat.le_of_eq kept.2.symm
  within cursor inside := by
    have kept := Cursor.continuesWith_keeps cursor 0 bytes
    change (if (cursor.continuesWith 0 bytes).1 then _ else _ : Cursor).position ≤ _
    split
    · rename_i found
      change (cursor.continuesWith 0 bytes).2.position + bytes.length ≤ _
      rw [kept.2]
      cases bytes with
      | nil => exact inside
      | cons byte rest => exact ((continuesWith_examined _ cursor 0).2 found (List.cons_ne_nil _ _)).2
    · exact Nat.le_trans (Nat.le_of_eq kept.2) inside
  examined_le cursor := by
    change _ ≤ (if (cursor.continuesWith 0 bytes).1 then _ else _ : Cursor).examined
    split
    · exact (continuesWith_examined bytes cursor 0).1
    · exact (continuesWith_examined bytes cursor 0).1
  reach cursor behind := by
    have kept := Cursor.continuesWith_keeps cursor 0 bytes
    have more := (continuesWith_examined bytes cursor 0).1
    change (if (cursor.continuesWith 0 bytes).1 then _ else _ : Cursor).position ≤
      (if (cursor.continuesWith 0 bytes).1 then _ else _ : Cursor).examined
    split
    · rename_i found
      change (cursor.continuesWith 0 bytes).2.position + bytes.length ≤ _
      rw [kept.2]
      cases bytes with
      | nil => exact Nat.le_trans behind more
      | cons byte rest => exact ((continuesWith_examined _ cursor 0).2 found (List.cons_ne_nil _ _)).1
    · exact Nat.le_trans (Nat.le_of_eq kept.2) (Nat.le_trans behind more)
  locally base other left right beside agree := by
    have examined : (left.eatBytes bytes).2.examined = (left.continuesWith 0 bytes).2.examined := by
      change (if (left.continuesWith 0 bytes).1 then _ else _ : Cursor).examined = _
      split <;> rfl
    have compared := continuesWith_locally bytes left right 0 beside (fun distance inside =>
      agree distance (Nat.lt_of_lt_of_le inside (Nat.le_of_eq examined.symm)))
    refine ⟨compared.1, ?_⟩
    change Cursor.Beside base other (if (left.continuesWith 0 bytes).1 then _ else _)
      (if (right.continuesWith 0 bytes).1 then _ else _)
    rw [compared.1]
    split
    · exact compared.2.forward _
    · exact compared.2

theorem pure_sound {α : Type} (value : α) : (Pure.pure value : Scan α).Sound where
  text _ := rfl
  forward _ := Nat.le_refl _
  within _ := id
  examined_le _ := Nat.le_refl _
  reach _ := id
  locally _ _ _ _ beside _ := ⟨rfl, beside⟩

theorem Sound.bind {α β : Type} {first : Scan α} {next : α → Scan β} (sound : first.Sound)
    (later : ∀ value, (next value).Sound) : (first >>= next).Sound where
  text cursor := ((later _).text _).trans (sound.text cursor)
  forward cursor := Nat.le_trans (sound.forward cursor) ((later _).forward _)
  within cursor inside := by
    have kept := sound.text cursor
    have rest := (later (first cursor).1).within (first cursor).2
    rw [kept] at rest
    exact rest (sound.within cursor inside)
  examined_le cursor := Nat.le_trans (sound.examined_le cursor) ((later _).examined_le _)
  reach cursor behind := (later _).reach _ (sound.reach cursor behind)
  locally base other left right beside agree := by
    have before := sound.locally base other left right beside
      (agree.shorten ((later (first left).1).examined_le _))
    have after := (later (first left).1).locally base other (first left).2 (first right).2 before.2
      (by rw [sound.text, sound.text]; exact agree)
    change (next (first right).1 (first right).2).1 = (next (first left).1 (first left).2).1 ∧
      Cursor.Beside base other (next (first left).1 (first left).2).2
        (next (first right).1 (first right).2).2
    rw [before.1]
    exact after

section Repeated

variable {σ α : Type} {body : σ → Scan (σ ⊕ α)} (each : ∀ state, (body state).Sound)

include each

private theorem Ends.passes {state : σ} {cursor : Cursor} {answer : α × Cursor}
    (ends : Ends body state cursor answer) :
    answer.2.text = cursor.text ∧ cursor.position ≤ answer.2.position ∧
      (cursor.position ≤ cursor.text.size → answer.2.position ≤ cursor.text.size) ∧
      cursor.examined ≤ answer.2.examined ∧
      (cursor.position ≤ cursor.examined → answer.2.position ≤ answer.2.examined) := by
  induction ends with
  | @done state cursor next value ran =>
      have sound := each state
      have same : next = (body state cursor).2 := by rw [ran]
      rw [same]
      exact ⟨sound.text cursor, sound.forward cursor, sound.within cursor, sound.examined_le cursor,
        sound.reach cursor⟩
  | @again state later cursor next answer ran _ ih =>
      obtain ⟨text, forward, within, examined, reach⟩ := ih
      have sound := each state
      have same : next = (body state cursor).2 := by rw [ran]
      rw [same] at text forward within examined reach
      refine ⟨text.trans (sound.text cursor), Nat.le_trans (sound.forward cursor) forward, ?_,
        Nat.le_trans (sound.examined_le cursor) examined, fun behind => reach (sound.reach cursor behind)⟩
      intro inside
      rw [sound.text cursor] at within
      exact within (sound.within cursor inside)

private theorem Ends.locally {base other : Nat} {state : σ} {left : Cursor} {answer : α × Cursor}
    (ends : Ends body state left answer) :
    ∀ (right : Cursor) (against : α × Cursor), Ends body state right against →
      Cursor.Beside base other left right →
      Cursor.Agree left.text right.text base other answer.2.examined →
      against.1 = answer.1 ∧ Cursor.Beside base other answer.2 against.2 := by
  induction ends with
  | @done state left next value ran =>
      intro right against endsRight beside agree
      have stepped := (each state).locally base other left right beside (by rw [ran]; exact agree)
      rw [ran] at stepped
      cases endsRight with
      | done ranRight =>
          rw [ranRight] at stepped
          exact ⟨Sum.inr.inj stepped.1, stepped.2⟩
      | again ranRight _ =>
          rw [ranRight] at stepped
          cases stepped.1
  | @again state later left next answer ran rest ih =>
      intro right against endsRight beside agree
      have further := Ends.passes each rest
      have kept := (each state).text left
      have stepped := (each state).locally base other left right beside
        (by rw [ran]; exact agree.shorten further.2.2.2.1)
      rw [ran] at stepped kept
      cases endsRight with
      | done ranRight =>
          rw [ranRight] at stepped
          cases stepped.1
      | again ranRight restRight =>
          have keptRight := (each state).text right
          rw [ranRight] at stepped keptRight
          cases Sum.inl.inj stepped.1
          exact ih _ against restRight stepped.2 (by rw [kept, keptRight]; exact agree)

theorem Sound.repeated {whole : σ → Scan α}
    (ends : ∀ state cursor, Ends body state cursor (whole state cursor)) (state : σ) :
    (whole state).Sound where
  text cursor := (Ends.passes each (ends state cursor)).1
  forward cursor := (Ends.passes each (ends state cursor)).2.1
  within cursor := (Ends.passes each (ends state cursor)).2.2.1
  examined_le cursor := (Ends.passes each (ends state cursor)).2.2.2.1
  reach cursor := (Ends.passes each (ends state cursor)).2.2.2.2
  locally _ _ left right beside agree :=
    Ends.locally each (ends state left) right _ (ends state right) beside agree

end Repeated

/-- A computation that works through the cursor moves forward over bytes that it examines, and its
answer follows from them. -/
theorem ThroughCursor.sound {α : Type} {scan : Scan α} (through : scan.ThroughCursor) :
    scan.Sound := by
  induction through with
  | nth distance => exact nth_sound distance
  | isEof => exact isEof_sound
  | isNext byte => exact isNext_sound byte
  | advance => exact advance_sound
  | advanceWhile condition => exact advanceWhile_sound condition
  | eat byte => exact eat_sound byte
  | eatBytes bytes => exact eatBytes_sound bytes
  | pure value => exact pure_sound value
  | bind _ _ first next => exact first.bind next
  | repeated _ ends state each => exact Sound.repeated each ends state

end Scan

end IncrementalParsing
