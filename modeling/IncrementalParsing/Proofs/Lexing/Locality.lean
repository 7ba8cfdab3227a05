import IncrementalParsing.Proofs.Lexing.Token

/-!
The lexer reads nothing that it does not report. Whatever a scanner works through its cursor, the token
that is read follows from the bytes that were examined: where another text has the same bytes ahead,
the same token is read there.
-/

namespace IncrementalParsing

/-- The same token where it begins at another position. -/
def LexedToken.movedTo (token : LexedToken) (position : Nat) : LexedToken :=
  { token with
    start := position
    stop := position + (token.stop - token.start)
    examinedEnd := position + (token.examinedEnd - token.start) }

namespace Cursor

variable {base other : Nat} {left right : Cursor}

theorem Beside.start (text against : Array UInt8) (base other : Nat) :
    Beside base other (.start text base) (.start against other) :=
  ⟨⟨0, rfl, rfl⟩, ⟨0, rfl, rfl⟩⟩

theorem Beside.rewind {before after : Cursor} (beside : Beside base other left right)
    (moved : Beside base other before after) :
    Beside base other (before.rewind left.position) (after.rewind right.position) :=
  ⟨beside.exists_position, moved.exists_examined⟩

theorem Beside.lt_iff {before after : Cursor} (beside : Beside base other left right)
    (moved : Beside base other before after) :
    right.position < after.position ↔ left.position < before.position := by
  obtain ⟨place, leftAt, rightAt⟩ := beside.exists_position
  obtain ⟨further, beforeAt, afterAt⟩ := moved.exists_position
  omega

theorem Beside.sub_eq {before after : Cursor} (beside : Beside base other left right)
    (moved : Beside base other before after) :
    after.position - right.position = before.position - left.position := by
  obtain ⟨place, leftAt, rightAt⟩ := beside.exists_position
  obtain ⟨further, beforeAt, afterAt⟩ := moved.exists_position
  omega

private theorem getElem?_stretch (text : Array UInt8) (start count index : Nat) :
    ((text.extract start (start + count))[index]? : Option UInt8) =
      if index < count then text[start + index]? else none := by
  rw [Array.getElem?_extract]
  split
  · rw [if_pos (by omega)]
  · split
    · exact (Array.getElem?_eq_none (by omega)).symm
    · rfl

theorem Beside.extract_eq (beside : Beside base other left right) {count stop : Nat}
    (agree : Agree left.text right.text base other stop) (inside : left.position + count ≤ stop) :
    right.text.extract right.position (right.position + count) =
      left.text.extract left.position (left.position + count) := by
  refine Array.ext_getElem? (fun index => ?_)
  rw [getElem?_stretch, getElem?_stretch]
  split
  · exact (beside.ahead index agree (by omega)).symm
  · rfl

end Cursor

namespace Lexer

open Cursor

theorem triviaPieces_goes {scanner : Scanner} {limit : Nat} {cursor next : Cursor} {kind : TriviaKind}
    (ran : scanner.trivia cursor = (some kind, next))
    (moved : cursor.position < next.position ∧ next.position ≤ limit) :
    triviaPieces scanner limit cursor =
      (⟨kind, next.position - cursor.position⟩ :: (triviaPieces scanner limit next).1,
        (triviaPieces scanner limit next).2) := by
  rw [triviaPieces, StateT.run, ran]
  dsimp only
  rw [dif_pos moved]

theorem triviaPieces_stops {scanner : Scanner} {limit : Nat} {cursor next : Cursor}
    {found : Option TriviaKind} (ran : scanner.trivia cursor = (found, next))
    (stays : found = none ∨ ¬ (cursor.position < next.position ∧ next.position ≤ limit)) :
    triviaPieces scanner limit cursor = ([], next.rewind cursor.position) := by
  rw [triviaPieces, StateT.run, ran]
  cases found with
  | none => rfl
  | some kind =>
      dsimp only
      rw [dif_neg (stays.resolve_left (by simp))]

/-- The trivia in front of a token follow from the bytes that were examined. -/
theorem triviaPieces_locally (scanner : Scanner) (through : scanner.ThroughCursor) {base other : Nat} :
    ∀ (count : Nat) (left right : Cursor), left.text.size - left.position < count →
      left.position ≤ left.text.size → right.position ≤ right.text.size →
      Beside base other left right →
      Agree left.text right.text base other (triviaPieces scanner left.text.size left).2.examined →
      (triviaPieces scanner right.text.size right).1 = (triviaPieces scanner left.text.size left).1 ∧
        Beside base other (triviaPieces scanner left.text.size left).2
          (triviaPieces scanner right.text.size right).2 := by
  have trivia := through.trivia.sound
  intro count
  induction count with
  | zero => exact fun _ _ impossible => absurd impossible (Nat.not_lt_zero _)
  | succ count ih =>
      intro left right bound leftInside rightInside beside agree
      have within := trivia.within left leftInside
      have withinRight := trivia.within right rightInside
      have kept := trivia.text left
      have keptRight := trivia.text right
      have stepped := trivia.locally base other left right beside
      cases ran : scanner.trivia left with
      | mk found next =>
      cases ranRight : scanner.trivia right with
      | mk foundRight nextRight =>
      rw [ran] at within kept stepped
      rw [ranRight] at withinRight keptRight stepped
      by_cases goes : ∃ kind, found = some kind ∧ left.position < next.position
      · obtain ⟨kind, rfl, moved⟩ := goes
        have covers := triviaPieces_covers scanner through left.text.size _ next (Nat.le_refl _) within
        rw [triviaPieces_goes ran ⟨moved, within⟩] at agree ⊢
        obtain ⟨same, besideNext⟩ := stepped (agree.shorten covers.2.2.2)
        dsimp only at same besideNext agree ⊢
        subst same
        have movedRight := (beside.lt_iff besideNext).mpr moved
        rw [triviaPieces_goes ranRight ⟨movedRight, withinRight⟩]
        dsimp only at kept keptRight within withinRight
        have rest := ih next nextRight (by rw [kept]; omega) (by rw [kept]; exact within)
          (by rw [keptRight]; exact withinRight) besideNext (by rw [kept, keptRight]; exact agree)
        rw [kept, keptRight] at rest
        refine ⟨?_, rest.2⟩
        rw [rest.1, beside.sub_eq besideNext]
      · have stays : found = none ∨ ¬ (left.position < next.position ∧ next.position ≤ left.text.size) := by
          cases found with
          | none => exact Or.inl rfl
          | some kind => exact Or.inr (fun moved => goes ⟨kind, rfl, moved.1⟩)
        rw [triviaPieces_stops ran stays] at agree ⊢
        obtain ⟨same, besideNext⟩ := stepped agree
        dsimp only at same besideNext
        subst same
        have staysRight : foundRight = none ∨
            ¬ (right.position < nextRight.position ∧ nextRight.position ≤ right.text.size) :=
          stays.imp_right (fun still moved =>
            still ⟨(beside.lt_iff besideNext).mp moved.1, within⟩)
        rw [triviaPieces_stops ranRight staysRight]
        exact ⟨rfl, beside.rewind besideNext⟩

theorem considerLiterals_keeps (valid : TerminalSet) :
    ∀ (literals : List (List UInt8 × KindId)) (choice : Choice) (cursor : Cursor),
      (considerLiterals valid cursor.position literals choice cursor).2.text = cursor.text ∧
        (considerLiterals valid cursor.position literals choice cursor).2.position = cursor.position ∧
        cursor.examined ≤ (considerLiterals valid cursor.position literals choice cursor).2.examined
  | [], _, _ => ⟨rfl, rfl, Nat.le_refl _⟩
  | (bytes, kind) :: rest, choice, cursor => by
      have eats := Scan.eatBytes_sound bytes
      obtain ⟨text, position, examined⟩ := considerLiterals_keeps valid rest
        (if (cursor.eatBytes bytes).1 then choice.consider valid ⟨bytes.length, kind, true⟩ else choice)
        ((cursor.eatBytes bytes).2.rewind cursor.position)
      exact ⟨text.trans (eats.text cursor), position, Nat.le_trans (eats.examined_le cursor) examined⟩

theorem considerLiterals_locally {base other : Nat} (valid : TerminalSet) :
    ∀ (literals : List (List UInt8 × KindId)) (choice : Choice) (left right : Cursor),
      Beside base other left right →
      Agree left.text right.text base other
        (considerLiterals valid left.position literals choice left).2.examined →
      (considerLiterals valid right.position literals choice right).1 =
          (considerLiterals valid left.position literals choice left).1 ∧
        Beside base other (considerLiterals valid left.position literals choice left).2
          (considerLiterals valid right.position literals choice right).2
  | [], _, _, _, beside, _ => ⟨rfl, beside⟩
  | (bytes, kind) :: rest, choice, left, right, beside, agree => by
      have eats := Scan.eatBytes_sound bytes
      have later := considerLiterals_keeps valid rest
        (if (left.eatBytes bytes).1 then choice.consider valid ⟨bytes.length, kind, true⟩ else choice)
        ((left.eatBytes bytes).2.rewind left.position)
      obtain ⟨same, moved⟩ := eats.locally base other left right beside (agree.shorten later.2.2)
      change (right.eatBytes bytes).1 = (left.eatBytes bytes).1 at same
      change Beside base other (left.eatBytes bytes).2 (right.eatBytes bytes).2 at moved
      have textLeft : ((left.eatBytes bytes).2.rewind left.position).text = left.text := eats.text left
      have textRight : ((right.eatBytes bytes).2.rewind right.position).text = right.text :=
        eats.text right
      unfold considerLiterals
      dsimp only
      rw [same]
      exact considerLiterals_locally valid rest _ _ _ (beside.rewind moved)
        (by rw [textLeft, textRight]; exact agree)

section Reading

variable {lexer : Lexer} (through : lexer.scanner.ThroughCursor) {base other : Nat}

theorem finish_movedTo {mode : LexMode} {kind : KindId} {leading : List TriviaPiece}
    {left right : Cursor} {length : Nat} (examined : ∃ distance, left.examined = base + distance ∧
      right.examined = other + distance) :
    (finish mode kind leading base (base + length) left).movedTo other =
      finish mode kind leading other (other + length) right := by
  obtain ⟨distance, leftReach, rightReach⟩ := examined
  unfold finish LexedToken.movedTo
  simp only [LexedToken.mk.injEq, true_and, and_true]
  omega

theorem token_movedTo {choice : Choice} {mode : LexMode} {leading : List TriviaPiece}
    {left right : Cursor} {distance : Nat} (examined : ∃ distance, left.examined = base + distance ∧
      right.examined = other + distance) :
    (choice.token mode base leading (base + distance) left).movedTo other =
      choice.token mode other leading (other + distance) right := by
  unfold Choice.token
  split
  · rw [Nat.add_assoc, Nat.add_assoc]
    exact finish_movedTo examined
  · rw [Nat.add_assoc, Nat.add_assoc]
    exact finish_movedTo examined

theorem examined_le_token (choice : Choice) (mode : LexMode) (start position : Nat)
    (leading : List TriviaPiece) (cursor : Cursor) :
    cursor.examined ≤ (choice.token mode start leading position cursor).examinedEnd := by
  unfold Choice.token
  split <;> exact Nat.le_max_left _ _

include through

theorem external?_keeps {mode : LexMode} {cursor next : Cursor} {token : Option LexedToken}
    (done : lexer.external? mode cursor = .ok (token, next)) :
    next.text = cursor.text ∧ cursor.examined ≤ next.examined ∧
      (token = none → next.position = cursor.position) ∧
      (∀ found, token = some found → next.examined ≤ found.examinedEnd) := by
  unfold external? at done
  split at done
  · cases done
    exact ⟨rfl, Nat.le_refl _, fun _ => rfl, fun _ none => nomatch none⟩
  · rename_i admitted _
    have scans := (through.scanExternal admitted).sound
    have kept := scans.text cursor
    have more := scans.examined_le cursor
    rw [StateT.run] at done
    split at done
    · rename_i index moved ran
      rw [ran] at kept more
      split at done
      · obtain ⟨kind, _, finished⟩ := bind_ok.mp done
        cases pure_ok.mp finished
        refine ⟨kept, more, (fun none => nomatch none), fun found same => ?_⟩
        cases same
        exact Nat.le_max_left _ _
      · cases done
        exact ⟨kept, more, fun _ => rfl, fun _ none => nomatch none⟩
    · rename_i moved ran
      rw [ran] at kept more
      cases done
      exact ⟨kept, more, fun _ => rfl, fun _ none => nomatch none⟩

theorem external?_locally {mode : LexMode} {left right next : Cursor} {token : Option LexedToken}
    (leftAt : left.position = base) (rightAt : right.position = other)
    (beside : Beside base other left right)
    (done : lexer.external? mode left = .ok (token, next))
    (agree : Agree left.text right.text base other next.examined) :
    ∃ nextRight, lexer.external? mode right = .ok (token.map (·.movedTo other), nextRight) ∧
      Beside base other next nextRight := by
  unfold external? at done ⊢
  cases admits : (lexer.externalModes[mode.index]?).getD none with
  | none =>
      rw [admits] at done
      cases done
      exact ⟨right, rfl, beside⟩
  | some admitted =>
      rw [admits] at done
      dsimp only at done ⊢
      have scans := (through.scanExternal admitted).sound
      have stepped := scans.locally base other left right beside
      rw [StateT.run] at done ⊢
      cases ran : lexer.scanner.scanExternal admitted left with
      | mk found moved =>
      cases ranRight : lexer.scanner.scanExternal admitted right with
      | mk foundRight movedRight =>
      rw [ran] at done stepped
      rw [ranRight] at stepped
      cases found with
      | none =>
          cases done
          obtain ⟨same, besideMoved⟩ := stepped agree
          dsimp only at same
          subst same
          exact ⟨_, rfl, beside.rewind besideMoved⟩
      | some index =>
          dsimp only at done
          split at done
          · rename_i advanced
            obtain ⟨kind, at_, finished⟩ := bind_ok.mp done
            cases pure_ok.mp finished
            obtain ⟨same, besideMoved⟩ := stepped agree
            dsimp only at same besideMoved
            subst same
            refine ⟨movedRight, ?_, besideMoved⟩
            dsimp only
            rw [if_pos ((beside.lt_iff besideMoved).mpr advanced)]
            refine bind_ok.mpr ⟨kind, at_, ?_⟩
            obtain ⟨length, nextAt, nextRightAt⟩ := besideMoved.exists_position
            rw [leftAt, rightAt, nextAt, nextRightAt, Option.map_some,
              finish_movedTo besideMoved.exists_examined]
            rfl
          · rename_i still
            cases done
            obtain ⟨same, besideMoved⟩ := stepped agree
            dsimp only at same besideMoved
            subst same
            refine ⟨_, ?_, beside.rewind besideMoved⟩
            dsimp only
            rw [if_neg (fun moved => still ((beside.lt_iff besideMoved).mp moved))]
            rfl

omit through in
theorem considerScanned_locally {valid : TerminalSet} {mode : LexMode} {left right next nextRight : Cursor}
    {found : Option Nat} {choice after : Choice} (beside : Beside base other left right)
    (moved : Beside base other next nextRight) (reach : next.position ≤ next.examined)
    (agree : Agree left.text right.text base other next.examined)
    (done : lexer.considerScanned valid mode left choice (found, next) = .ok after) :
    lexer.considerScanned valid mode right choice (found, nextRight) = .ok after := by
  cases found with
  | none => exact done
  | some index =>
      unfold considerScanned at done ⊢
      dsimp only at done ⊢
      split at done
      · rename_i advanced
        rw [if_pos ((beside.lt_iff moved).mpr advanced)]
        have length : left.position + (next.position - left.position) = next.position := by omega
        have lengthRight : right.position + (next.position - left.position) = nextRight.position := by
          have further := (beside.lt_iff moved).mpr advanced
          have same := beside.sub_eq moved
          omega
        have bytes := @Beside.extract_eq _ _ _ _ beside (next.position - left.position) _ agree (by omega)
        rw [length, lengthRight] at bytes
        rw [bytes]
        exact done
      · rename_i still
        rw [if_neg (fun further => still ((beside.lt_iff moved).mp further))]
        exact done

theorem examined_le_afterTrivia {mode : LexMode} {start : Nat} {leading : List TriviaPiece} {byte : UInt8}
    {cursor : Cursor} {token : LexedToken}
    (done : lexer.afterTrivia mode start leading byte cursor = .ok token) :
    cursor.examined ≤ token.examinedEnd := by
  unfold afterTrivia at done
  obtain ⟨valid, _, done⟩ := bind_ok.mp done
  obtain ⟨choice, _, done⟩ := bind_ok.mp done
  cases pure_ok.mp done
  have literals := considerLiterals_keeps valid (lexer.literals[byte.toNat]?.getD []) ⟨none, none⟩ cursor
  exact Nat.le_trans literals.2.2 (Nat.le_trans (through.scan.sound.examined_le _)
    (examined_le_token choice mode start cursor.position leading _))

theorem afterTrivia_locally {mode : LexMode} {leading : List TriviaPiece} {byte : UInt8}
    {left right : Cursor} {token : LexedToken} (beside : Beside base other left right)
    (reach : left.position ≤ left.examined)
    (done : lexer.afterTrivia mode base leading byte left = .ok token)
    (agree : Agree left.text right.text base other token.examinedEnd) :
    lexer.afterTrivia mode other leading byte right = .ok (token.movedTo other) := by
  unfold afterTrivia at done ⊢
  obtain ⟨valid, known, done⟩ := bind_ok.mp done
  obtain ⟨choice, considered, done⟩ := bind_ok.mp done
  cases pure_ok.mp done
  refine bind_ok.mpr ⟨valid, known, ?_⟩
  have scans := through.scan.sound
  have literals := considerLiterals_keeps valid (lexer.literals[byte.toNat]?.getD []) ⟨none, none⟩ left
  have literalsRight :=
    considerLiterals_keeps valid (lexer.literals[byte.toNat]?.getD []) ⟨none, none⟩ right
  have local_ := @considerLiterals_locally base other valid
    (lexer.literals[byte.toNat]?.getD []) ⟨none, none⟩ left right beside
  generalize considerLiterals valid left.position (lexer.literals[byte.toNat]?.getD []) ⟨none, none⟩ left =
    before at considered agree literals local_ ⊢
  generalize considerLiterals valid right.position (lexer.literals[byte.toNat]?.getD []) ⟨none, none⟩ right =
    beforeRight at literalsRight local_ ⊢
  rw [StateT.run] at considered agree ⊢
  have reported := agree.shorten (examined_le_token choice mode base left.position leading
    (lexer.scanner.scan before.2).2)
  obtain ⟨same, besideLiterals⟩ := local_ (reported.shorten (scans.examined_le before.2))
  obtain ⟨found, besideScanned⟩ := scans.locally base other before.2 beforeRight.2 besideLiterals
    (by rw [literals.1, literalsRight.1]; exact reported)
  have reaches := scans.reach before.2 (by rw [literals.2.1]; exact Nat.le_trans reach literals.2.2)
  refine bind_ok.mpr ⟨choice, ?_, ?_⟩
  · cases ran : lexer.scanner.scan before.2 with
    | mk answer next =>
    cases ranRight : lexer.scanner.scan beforeRight.2 with
    | mk answerRight nextRight =>
    rw [ran] at found considered besideScanned reaches reported
    rw [ranRight] at found besideScanned
    dsimp only at found
    rw [StateT.run, ranRight, found, same]
    exact considerScanned_locally beside besideScanned reaches reported considered
  · obtain ⟨distance, leftAt, rightAt⟩ := beside.exists_position
    rw [leftAt, rightAt, token_movedTo besideScanned.exists_examined]
    rfl

theorem read_locally {text against : Array UInt8} {position : Nat} {mode : LexMode} {token : LexedToken}
    (inside : position ≤ text.size) (insideOther : other ≤ against.size)
    (done : lexer.read text position mode = .ok token)
    (agree : Agree text against position other token.examinedEnd) :
    lexer.read against other mode = .ok (token.movedTo other) := by
  unfold read at done ⊢
  rw [Nat.min_eq_left inside] at done
  rw [Nat.min_eq_left insideOther]
  obtain ⟨⟨immediate, cursor⟩, looked, done⟩ := bind_ok.mp done
  obtain ⟨kept, _, stays, reported⟩ := external?_keeps through looked
  have immediately := @external?_locally lexer through position other mode (.start text position)
    (.start against other) cursor immediate rfl rfl (Beside.start text against position other) looked
  cases immediate with
  | some external =>
      cases pure_ok.mp done
      obtain ⟨cursorRight, lookedRight, _⟩ := immediately (agree.shorten (reported token rfl))
      exact bind_ok.mpr ⟨_, lookedRight, rfl⟩
  | none =>
      dsimp only at done
      have here : cursor.position = position := stays rfl
      change cursor.text = text at kept
      obtain ⟨afterText, _, _, afterExamined⟩ :=
        triviaPieces_covers lexer.scanner through text.size _ cursor (Nat.le_refl _)
          (by rw [here]; exact inside)
      have pieces := fun right => @triviaPieces_locally lexer.scanner through position other
        _ cursor right (Nat.lt_succ_self _) (by rw [kept, here]; exact inside)
      rw [kept] at afterText pieces
      generalize triviaPieces lexer.scanner text.size cursor = passed
        at done afterText afterExamined pieces
      obtain ⟨leading, after⟩ := passed
      dsimp only at done afterText afterExamined pieces
      have reported : (after.examine after.position).examined ≤ token.examinedEnd := by
        split at done
        · cases pure_ok.mp done
          exact Nat.le_max_left _ _
        · exact examined_le_afterTrivia through done
      have afterReported : after.examined ≤ token.examinedEnd :=
        Nat.le_trans (Nat.le_max_left _ _) reported
      have afterHere : after.position < token.examinedEnd :=
        Nat.lt_of_lt_of_le (Nat.lt_of_lt_of_le (Nat.lt_succ_self _) (Nat.le_max_right _ _)) reported
      obtain ⟨cursorRight, lookedRight, beside⟩ :=
        immediately (agree.shorten (Nat.le_trans afterExamined afterReported))
      obtain ⟨keptRight, _, staysRight, _⟩ := external?_keeps through lookedRight
      change cursorRight.text = against at keptRight
      have hereRight : cursorRight.position = other := staysRight rfl
      obtain ⟨same, besideAfter⟩ := pieces cursorRight (by rw [keptRight, hereRight]; exact insideOther)
        beside (by rw [keptRight]; exact agree.shorten afterReported)
      have coversRight := triviaPieces_covers lexer.scanner through against.size _ cursorRight
        (Nat.le_refl _) (by rw [hereRight]; exact insideOther)
      refine bind_ok.mpr ⟨_, lookedRight, ?_⟩
      dsimp only [Option.map_none]
      rw [keptRight] at same besideAfter coversRight
      generalize triviaPieces lexer.scanner against.size cursorRight = passedRight
        at same besideAfter coversRight ⊢
      obtain ⟨leadingRight, afterRight⟩ := passedRight
      dsimp only at same besideAfter coversRight ⊢
      subst same
      have ahead := besideAfter.ahead 0 (by rw [afterText, coversRight.1]; exact agree) afterHere
      rw [afterText, coversRight.1, Nat.add_zero, Nat.add_zero] at ahead
      rw [← ahead]
      split
      · rename_i beyond
        rw [beyond] at done
        cases pure_ok.mp done
        obtain ⟨distance, afterAt, afterRightAt⟩ := besideAfter.exists_position
        rw [afterAt, afterRightAt]
        have finished := @finish_movedTo position other mode .endOfInput leadingRight _ _ distance
          (besideAfter.examine 0).exists_examined
        rw [Nat.add_zero, Nat.add_zero, afterAt, afterRightAt] at finished
        rw [finished]
        rfl
      · rename_i byte there
        rw [there] at done
        exact afterTrivia_locally through (besideAfter.examine 0)
          (Nat.le_trans (Nat.le_succ _) (Nat.le_max_right _ _)) done
          (by rw [Cursor.text_examine, Cursor.text_examine, afterText, coversRight.1]; exact agree)

end Reading

end Lexer

end IncrementalParsing
