import IncrementalParsing.Builtin.Scanner
import IncrementalParsing.Proofs.Lexing.Reach

/-!
The scanner of the built-in language works through its cursor. It looks furthest ahead in an escape
sequence with eight digits: the eighth is the ninth byte from where the cursor stands.
-/

namespace IncrementalParsing.Builtin

theorem scanTrivia_near : scanTrivia.Near 9 := by
  unfold scanTrivia
  refine .bind .isEof (fun ended => ?_)
  cases ended with
  | true => exact .pure _
  | false =>
      refine .bind (.nth (by decide)) (fun first => .bind (.nth (by decide)) (fun second => ?_))
      split
      · exact .bind (.advanceBy 1) (fun _ => .pure _)
      · split
        · exact .bind (.advanceBy 2) (fun _ => .pure _)
        · split
          · exact .bind (.advanceWhile _) (fun _ => .pure _)
          · split
            · exact .bind (.advanceBy 2) (fun _ => .bind (.skipPast _) (fun _ => .pure _))
            · split
              · exact .bind (.advanceWhile _) (fun _ => .pure _)
              · exact .pure _

theorem radixAhead?_near : radixAhead?.Near 9 := by
  unfold radixAhead?
  refine .bind (.nth (by decide)) (fun first => ?_)
  split
  · refine .bind (.nth (by decide)) (fun letter => ?_)
    split
    · exact .pure _
    · exact .bind (.nth (by decide)) (fun digit => .pure _)
  · exact .pure _

theorem exponent_near : exponent.Near 9 := by
  unfold exponent
  refine .bind (.nth (by decide)) (fun afterLetter => .bind (.nth (by decide)) (fun letter => ?_))
  split
  · refine .bind (.nth (by split <;> decide)) (fun digit => ?_)
    split
    · exact .bind (.advanceBy _) (fun _ => .advanceWhile _)
    · exact .pure _
  · exact .pure _

theorem number_near : number.Near 9 := by
  unfold number
  refine .bind radixAhead?_near (fun radix => ?_)
  cases radix with
  | some digits => exact .bind (.advanceBy 2) (fun _ => .bind (.advanceWhile _) (fun _ => .pure _))
  | none =>
      refine .bind (.advanceWhile _) (fun _ => .bind (.isNext 46) (fun dot => ?_))
      dsimp only
      split
      · refine .bind (.nth (by decide)) (fun digit => ?_)
        split
        · exact .bind (.advanceBy 1)
            (fun _ => .bind (.advanceWhile _) (fun _ => .bind exponent_near (fun _ => .pure _)))
        · exact .pure _
      · exact .pure _

theorem scanToken_near : scanToken.Near 9 := by
  unfold scanToken
  refine .bind .isEof (fun ended => ?_)
  cases ended with
  | true => exact .pure _
  | false =>
      refine .bind (.nth (by decide)) (fun first => ?_)
      split
      · exact .bind (.advanceWhile _) (fun _ => .pure _)
      · split
        · exact .bind number_near (fun _ => .pure _)
        · exact .pure _

theorem hexadecimalAhead_near (count : Nat) :
    ∀ distance, distance + count ≤ 9 → (hexadecimalAhead distance count).Near 9 := by
  induction count with
  | zero => exact fun _ _ => .pure _
  | succ count ih =>
      intro distance room
      refine .bind (.nth (by omega)) (fun byte => ?_)
      split
      · exact ih (distance + 1) (by omega)
      · exact .pure _

theorem escapeDigits_le {letter : UInt8} {count : Nat} (known : escapeDigits? letter = some count) :
    count ≤ 8 := by
  unfold escapeDigits? at known
  split at known
  · cases known
    decide
  · split at known
    · cases known
      decide
    · split at known
      · cases known
        decide
      · split at known
        · cases known
          decide
        · cases known

theorem escapeSequence_near : escapeSequence.Near 9 := by
  unfold escapeSequence
  refine .bind (.advanceBy 1) (fun _ => .bind (.nth (by decide)) (fun letter => ?_))
  split
  · exact .pure _
  · rename_i count known
    have few := escapeDigits_le known
    refine .bind (hexadecimalAhead_near count 1 (by omega)) (fun whole => ?_)
    split
    · exact .bind (.advanceBy _) (fun _ => .pure _)
    · exact .pure _

theorem scanInside_near (admitted : List Bool) : (scanInside admitted).Near 9 := by
  unfold scanInside
  dsimp only
  refine .bind .isEof (fun ended => ?_)
  cases ended with
  | true => exact .pure _
  | false =>
      refine .bind (.nth (by decide)) (fun first => ?_)
      split
      · exact .pure _
      · split
        · split
          · exact .bind escapeSequence_near (fun _ => .pure _)
          · exact .pure _
        · split
          · exact .bind (.advanceWhile _) (fun _ => .pure _)
          · split
            · exact .pure _
            · split
              · exact .bind (.advanceWhile _) (fun _ => .pure _)
              · exact .pure _

theorem scanner_near : scanner.Near 9 := ⟨scanTrivia_near, scanToken_near, scanInside_near⟩

end IncrementalParsing.Builtin
