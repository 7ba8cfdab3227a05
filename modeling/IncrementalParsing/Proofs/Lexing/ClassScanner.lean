import IncrementalParsing.Lexing.ByteClass
import IncrementalParsing.Proofs.Lexing.Reach

/-!
Scanners described by classes of bytes work through their cursor. They look at two bytes at most before
they decide, so nothing is examined further than two bytes past the end of the text.
-/

namespace IncrementalParsing

namespace ClassScanner

theorem scanTrivia_near (switches : TriviaSwitches) : (scanTrivia switches).Near 2 := by
  unfold scanTrivia
  refine .bind (.nth (by decide)) (fun byte => ?_)
  have block : Scan.Near 2 (if byte = 47 ∧ switches.blockComment then (do
      if (← Scan.second) = 42 then
        Scan.advanceBy 2
        Scan.skipPast [42, 47]
        return some .blockComment
      return none) else return none : Scan (Option TriviaKind)) := by
    split
    · refine .bind (.nth (by decide)) (fun next => ?_)
      split
      · exact .bind (.advanceBy 2) (fun _ => .bind (.skipPast _) (fun _ => .pure _))
      · exact .pure _
    · exact .pure _
  dsimp only
  split
  · exact .bind (.advanceWhile _) (fun _ => .pure _)
  · split
    · exact .bind .advance (fun _ => .pure _)
    · split
      · refine .bind (.nth (by decide)) (fun next => ?_)
        split
        · exact .bind (.advanceWhile _) (fun _ => .pure _)
        · exact block
      · exact block

theorem toScanner_near (scanner : ClassScanner) : scanner.toScanner.Near 2 where
  trivia := scanTrivia_near _
  scan := by
    refine .bind (.nth (by decide)) (fun byte => ?_)
    split
    · exact .pure _
    · exact .bind .advance (fun _ => .bind (.advanceWhile _) (fun _ => .pure _))
  scanExternal := fun admitted => by
    refine .bind .isEof (fun ended => ?_)
    cases ended with
    | true => exact .pure _
    | false =>
        refine .bind (.nth (by decide)) (fun byte => ?_)
        split
        · exact .pure _
        · exact .bind (.advanceWhile _) (fun _ => .pure _)

theorem toScanner_throughCursor (scanner : ClassScanner) : scanner.toScanner.ThroughCursor :=
  scanner.toScanner_near.throughCursor

end ClassScanner

end IncrementalParsing
