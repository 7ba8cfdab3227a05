import IncrementalParsing.Proofs.Lexing.ClassScanner
import IncrementalParsing.Proofs.Parsing.Accepted

/-!
The lexer always answers. A scanner that answers with positions in its own lists of names never leads
the lexer beyond them, and the modes of a table are all known, so there is a token everywhere.
-/

namespace IncrementalParsing

/-- A scanner answers with positions in its lists of tokens. -/
structure Scanner.Answers (scanner : Scanner) : Prop where
  scan : ∀ cursor index, (scanner.scan cursor).1 = some index → index < scanner.tokens.length
  scanExternal : ∀ admitted cursor index, (scanner.scanExternal admitted cursor).1 = some index →
    index < scanner.externals.length

structure Lexer.Complete (lexer : Lexer) : Prop where
  answers : lexer.scanner.Answers
  tokens : lexer.tokenKinds.size = lexer.scanner.tokens.length
  externals : lexer.externalKinds.size = lexer.scanner.externals.length

namespace Lexer

theorem size_of_resolve {table : Table} {declared : Array KindId} {names : List String}
    {kinds : List KindId} (resolved : resolve table declared names = .ok kinds) :
    kinds.length = names.length := (mapM_ok _ names kinds resolved).1

theorem make_complete {table : Table} {scanner : Scanner} {lexer : Lexer} (answers : scanner.Answers)
    (made : Lexer.make table scanner = .ok lexer) : lexer.Complete := by
  obtain ⟨_, rfl, tokens, externals⟩ := make_resolves made
  exact ⟨answers, size_of_resolve tokens, size_of_resolve externals⟩

variable {lexer : Lexer} (complete : lexer.Complete)

include complete

theorem external?_total (mode : LexMode) (cursor : Cursor) :
    ∃ answer, lexer.external? mode cursor = .ok answer := by
  unfold external?
  split
  · exact ⟨_, rfl⟩
  · rename_i admitted _
    split
    · rename_i index next ran
      split
      · have found : (lexer.scanner.scanExternal admitted cursor).1 = some index := by
          change lexer.scanner.scanExternal admitted cursor = _ at ran
          rw [ran]
        have inside := complete.answers.scanExternal admitted cursor index found
        rw [← complete.externals] at inside
        rw [requireAt_of_lt _ _ inside]
        exact ⟨_, rfl⟩
      · exact ⟨_, rfl⟩
    · exact ⟨_, rfl⟩

theorem considerScanned_total (valid : TerminalSet) (mode : LexMode) (cursor looked : Cursor)
    (choice : Choice) :
    ∃ answer, lexer.considerScanned valid mode cursor choice (lexer.scanner.scan.run looked) =
      .ok answer := by
  cases ran : lexer.scanner.scan.run looked with
  | mk found scanned =>
      cases found with
      | none => exact ⟨_, rfl⟩
      | some index =>
          unfold considerScanned
          dsimp only
          split
          · have same : (lexer.scanner.scan looked).1 = some index := by
              change lexer.scanner.scan looked = _ at ran
              rw [ran]
            have inside := complete.answers.scan looked index same
            rw [← complete.tokens] at inside
            rw [requireAt_of_lt _ _ inside]
            exact ⟨_, rfl⟩
          · exact ⟨_, rfl⟩

theorem afterTrivia_total {mode : LexMode} (known : mode.index < lexer.table.lexModeCount) (start : Nat)
    (leading : List TriviaPiece) (byte : UInt8) (cursor : Cursor) :
    ∃ token, lexer.afterTrivia mode start leading byte cursor = .ok token := by
  unfold afterTrivia Table.modeTerminals
  rw [requireAt_of_lt _ _ known]
  obtain ⟨choice, considered⟩ := considerScanned_total complete lexer.table.lexModes[mode.index] mode
    cursor (considerLiterals lexer.table.lexModes[mode.index] cursor.position
      (lexer.literals[byte.toNat]?.getD []) ⟨none, none⟩ cursor).2
    (considerLiterals lexer.table.lexModes[mode.index] cursor.position
      (lexer.literals[byte.toNat]?.getD []) ⟨none, none⟩ cursor).1
  exact ⟨_, bind_ok.mpr ⟨_, rfl, bind_ok.mpr ⟨choice, considered, rfl⟩⟩⟩

theorem read_total (text : Array UInt8) (position : Nat) {mode : LexMode}
    (known : mode.index < lexer.table.lexModeCount) :
    ∃ token, lexer.read text position mode = .ok token := by
  unfold read
  obtain ⟨⟨immediate, cursor⟩, looked⟩ :=
    external?_total complete mode (.start text (min position text.size))
  dsimp only
  rw [looked]
  cases immediate with
  | some token => exact ⟨token, rfl⟩
  | none =>
      dsimp only [bind, Except.bind]
      split
      · exact ⟨_, rfl⟩
      · exact afterTrivia_total complete known _ _ _ _

end Lexer

theorem Language.compile_complete {declaration : Declaration} {scanner : Scanner} {language : Language}
    (answers : scanner.Answers) (compiled : Language.compile declaration scanner = .ok language) :
    language.lexer.Complete :=
  Lexer.make_complete answers (compile_ok.mp compiled).2

namespace ClassScanner

theorem index_lt_of_find? {α : Type} {items : List α} {condition : α × Nat → Bool} {item : α} {index : Nat}
    (found : items.zipIdx.find? condition = some (item, index)) : index < items.length := by
  have member := List.mem_of_find?_eq_some found
  rw [List.mk_mem_zipIdx_iff_getElem?] at member
  exact (List.getElem?_eq_some_iff.mp member).1

theorem scanToken_fst (tokens : List ClassToken) (cursor : Cursor) :
    (scanToken tokens cursor).1 =
      (tokens.zipIdx.find? (fun entry => entry.1.first.contains (cursor.nth 0).1)).map (·.2) := by
  have peeked : Scan.peek cursor = cursor.nth 0 := rfl
  unfold scanToken
  rw [Scan.bind_apply, peeked]
  cases tokens.zipIdx.find? (fun entry => entry.1.first.contains (cursor.nth 0).1) with
  | none => rfl
  | some found => rfl

theorem scanExternal_fst (externals : List ClassExternal) (admitted : List Bool) (cursor : Cursor)
    (more : cursor.isEof.1 = false) :
    (scanExternal externals admitted cursor).1 =
      ((externals.zip admitted).zipIdx.find? (fun entry =>
        entry.1.2 && !entry.1.1.stop.contains (cursor.isEof.2.nth 0).1)).map (·.2) := by
  have looked : Scan.isEof cursor = (false, cursor.isEof.2) := by
    rw [← more]
    rfl
  have peeked : Scan.peek cursor.isEof.2 = cursor.isEof.2.nth 0 := rfl
  unfold scanExternal
  rw [Scan.bind_apply, looked]
  dsimp only
  rw [if_neg Bool.false_ne_true, Scan.bind_apply, peeked]
  cases (externals.zip admitted).zipIdx.find? (fun entry =>
    entry.1.2 && !entry.1.1.stop.contains (cursor.isEof.2.nth 0).1) with
  | none => rfl
  | some found => rfl

theorem toScanner_answers (scanner : ClassScanner) : scanner.toScanner.Answers where
  scan := by
    intro cursor index answered
    change (scanToken scanner.tokens cursor).1 = some index at answered
    rw [scanToken_fst] at answered
    obtain ⟨⟨token, place⟩, found, same⟩ := Option.map_eq_some_iff.mp answered
    cases same
    change place < (scanner.tokens.map (·.name)).length
    rw [List.length_map]
    exact index_lt_of_find? found
  scanExternal := by
    intro admitted cursor index answered
    change (scanExternal scanner.externals admitted cursor).1 = some index at answered
    cases more : cursor.isEof.1 with
    | true =>
        have none : (scanExternal scanner.externals admitted cursor).1 = Option.none := by
          have looked : Scan.isEof cursor = (true, cursor.isEof.2) := by
            rw [← more]
            rfl
          unfold ClassScanner.scanExternal
          rw [Scan.bind_apply, looked]
          rfl
        rw [none] at answered
        cases answered
    | false =>
        rw [scanExternal_fst _ _ _ more] at answered
        obtain ⟨⟨token, place⟩, found, same⟩ := Option.map_eq_some_iff.mp answered
        cases same
        have inside := index_lt_of_find? found
        rw [List.length_zip] at inside
        change place < (scanner.externals.map (·.name)).length
        rw [List.length_map]
        exact Nat.lt_of_lt_of_le inside (Nat.min_le_left _ _)

end ClassScanner

end IncrementalParsing
