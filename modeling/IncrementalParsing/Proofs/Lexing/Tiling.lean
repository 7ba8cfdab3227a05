import IncrementalParsing.Proofs.Lexing.MaximalMunch

/-!
Tokens tile the text. A parser asks for one token after another, each from the end of the one before, and
may ask in another mode every time. Whatever it asks for, the tokens follow one another without a gap, each
but the last covers a byte of its own, and so the end of the text is reached.
-/

namespace IncrementalParsing

namespace Lexer

/-- The tokens of a text, each read from the end of the one before it, in the modes that are asked for. -/
def stream (lexer : Lexer) (text : Array UInt8) (modes : Nat → LexMode) : Nat → Except Fault LexedToken
  | 0 => lexer.next text 0 (modes 0)
  | count + 1 => do
      let before ← lexer.stream text modes count
      lexer.next text before.stop (modes (count + 1))

end Lexer

/-- A token that covers a part of a text: its pieces of trivia, which are not empty, and its own bytes,
which only the end of the input lacks. -/
structure LexedToken.Covers (text : Array UInt8) (token : LexedToken) : Prop where
  start_le : token.start ≤ token.stop
  stop_le : token.stop ≤ text.size
  pieces : ∀ piece, piece ∈ token.leading → 0 < piece.length
  leading_le : triviaLength token.leading ≤ token.length
  own : token.kind ≠ .endOfInput → triviaLength token.leading < token.length
  ended : token.kind = .endOfInput → token.stop = text.size ∧ triviaLength token.leading = token.length

/-- Tokens that follow one another from the beginning of a text to its end. -/
structure Tiles (text : Array UInt8) (tokens : Nat → LexedToken) : Prop where
  start_eq : (tokens 0).start = 0
  contiguous : ∀ count, (tokens (count + 1)).start = (tokens count).stop
  covers : ∀ count, (tokens count).Covers text
  ends : ∃ count, count ≤ text.size ∧ (tokens count).kind = .endOfInput

theorem Scanner.Pieces.length_pos {scanner : Scanner} {text : Array UInt8} {place stop : Nat}
    {pieces : List TriviaPiece} (found : scanner.Pieces text place pieces stop) :
    ∀ piece, piece ∈ pieces → 0 < piece.length := by
  induction found with
  | done => exact fun _ none => absurd none List.not_mem_nil
  | @piece place next stop kind rest _ _ advances _ ih =>
      intro piece member
      rcases List.mem_cons.mp member with rfl | later
      · exact Nat.sub_pos_of_lt advances
      · exact ih piece later

theorem Lexer.Munches.length_pos {lexer : Lexer} {text : Array UInt8} {mode : LexMode} {place stop : Nat}
    {kind : KindId} {leading : List TriviaPiece} (munches : lexer.Munches text mode place kind leading stop) :
    ∀ piece, piece ∈ leading → 0 < piece.length := by
  cases munches with
  | immediate => exact fun _ none => absurd none List.not_mem_nil
  | behind _ pieces _ => exact pieces.length_pos

theorem LexedToken.Fits.covers {table : Table} {text : Array UInt8} {position : Nat} {mode : LexMode}
    {token : LexedToken} (fits : token.Fits table text position mode)
    (pieces : ∀ piece, piece ∈ token.leading → 0 < piece.length) : token.Covers text := by
  have within := fits.textStart_le
  unfold LexedToken.textStart at within
  refine ⟨by omega, fits.stop_le, pieces, ?_, fun proper => ?_, fun last => ?_⟩
  · unfold LexedToken.length
    omega
  · have advances := fits.advances proper
    unfold LexedToken.textStart at advances
    unfold LexedToken.length
    omega
  · have whole := fits.ended last
    have inside := fits.stop_le
    unfold LexedToken.textStart at whole
    unfold LexedToken.length
    omega

section Tokens

variable {text : Array UInt8} {tokens : Nat → LexedToken}
  (contiguous : ∀ count, (tokens (count + 1)).start = (tokens count).stop)
  (covers : ∀ count, (tokens count).Covers text)

include contiguous covers

theorem le_start_of_proper (count : Nat) (proper : ∀ before, before < count → (tokens before).kind ≠ .endOfInput) :
    count ≤ (tokens count).start := by
  induction count with
  | zero => exact Nat.zero_le _
  | succ count ih =>
      have reached := ih (fun before earlier => proper before (Nat.lt_succ_of_lt earlier))
      have advances := (covers count).own (proper count (Nat.lt_succ_self count))
      unfold LexedToken.length at advances
      rw [contiguous]
      omega

theorem exists_ended : ∃ count, count ≤ text.size ∧ (tokens count).kind = .endOfInput := by
  by_contra endless
  have proper : ∀ before, before < text.size + 1 → (tokens before).kind ≠ .endOfInput :=
    fun before earlier ended => endless ⟨before, Nat.le_of_lt_succ earlier, ended⟩
  have beyond := le_start_of_proper contiguous covers (text.size + 1) proper
  have inside := (covers (text.size + 1)).start_le
  have bound := (covers (text.size + 1)).stop_le
  omega

end Tokens

namespace Lexer

/-- Any token that is read from a place in the text covers a part of it, and reports an extent no shorter
than that if the extent can be written with 32 bits. -/
theorem next_covers {lexer : Lexer} (sound : lexer.Sound) (lettered : lexer.table.Lettered)
    (arranged : lexer.Arranged) {text : Array UInt8} (short : text.size < offsetLimit) {position : Nat}
    {mode : LexMode} {token : LexedToken} (inside : position ≤ text.size)
    (done : lexer.next text position mode = .ok token) :
    token.Covers text ∧ (lexer.Reports text position mode → token.stop ≤ token.examinedEnd) := by
  have fits := next_fits sound short inside done
  obtain ⟨read, found, _, same⟩ := (next_ok sound short inside).mp done
  have munches := read_munches lettered arranged sound.scanner found
  have pieces : ∀ piece, piece ∈ token.leading → 0 < piece.length := by
    rw [same]
    exact munches.length_pos
  refine ⟨fits.covers pieces, fun reports => ?_⟩
  rw [reports.next_eq] at done
  exact stop_le_of_read done

/-- Tokens tile a text in any modes, if its size is an offset and every byte that the scanner asks for has a place
in memory. They follow one another from the beginning of the text to its end, which is reached after as many
tokens as the text has bytes at the latest; each reports an extent that goes at least to its end, as long as
extents can be written with 32 bits. -/
theorem stream_tiles {declaration : Declaration} {table : Table} {scanner : Scanner} {lexer : Lexer}
    (compiled : declaration.compile = .ok table) (through : scanner.ThroughCursor) (answers : scanner.Answers)
    (made : Lexer.make table scanner = .ok lexer) {text : Array UInt8} (short : text.size < offsetLimit)
    (addresses : ∀ position mode, position ≤ text.size → lexer.Addresses text position mode)
    (modes : Nat → LexMode) (known : ∀ count, (modes count).index < table.lexModeCount) :
    ∃ tokens : Nat → LexedToken, (∀ count, lexer.stream text modes count = .ok (tokens count)) ∧
      Tiles text tokens ∧ ∀ count, lexer.Reports text (tokens count).start (modes count) →
        (tokens count).stop ≤ (tokens count).examinedEnd := by
  obtain ⟨sound, lettered, arranged⟩ := known_of_make compiled through made
  have complete := make_complete answers made
  rw [← make_table made] at known
  have answersAt : ∀ count position, position ≤ text.size →
      ∃ token, lexer.next text position (modes count) = .ok token ∧ token.stop ≤ text.size := by
    intro count position inside
    obtain ⟨token, read⟩ := read_total complete text position (known count)
    have done := (next_ok sound short inside).mpr ⟨token, read, addresses _ _ inside token read, rfl⟩
    exact ⟨_, done, (next_fits sound short inside done).stop_le⟩
  have total : ∀ count, ∃ token, lexer.stream text modes count = .ok token ∧ token.stop ≤ text.size := by
    intro count
    induction count with
    | zero => exact answersAt 0 0 (Nat.zero_le _)
    | succ count ih =>
        obtain ⟨before, earlier, inside⟩ := ih
        obtain ⟨token, done, within⟩ := answersAt (count + 1) before.stop inside
        exact ⟨token, bind_ok.mpr ⟨before, earlier, done⟩, within⟩
  choose tokens streams inside using total
  have first : lexer.next text 0 (modes 0) = .ok (tokens 0) := streams 0
  have later : ∀ count, lexer.next text (tokens count).stop (modes (count + 1)) = .ok (tokens (count + 1)) := by
    intro count
    obtain ⟨before, earlier, read⟩ := bind_ok.mp (streams (count + 1))
    cases (streams count).symm.trans earlier
    exact read
  have start_eq : (tokens 0).start = 0 := (next_fits sound short (Nat.zero_le _) first).start_eq
  have contiguous : ∀ count, (tokens (count + 1)).start = (tokens count).stop :=
    fun count => (next_fits sound short (inside count) (later count)).start_eq
  have reads : ∀ count, (tokens count).start ≤ text.size ∧
      lexer.next text (tokens count).start (modes count) = .ok (tokens count) := by
    intro count
    cases count with
    | zero =>
        rw [start_eq]
        exact ⟨Nat.zero_le _, first⟩
    | succ count =>
        rw [contiguous]
        exact ⟨inside count, later count⟩
  have covers : ∀ count, (tokens count).Covers text :=
    fun count => (next_covers sound lettered arranged short (reads count).1 (reads count).2).1
  exact ⟨tokens, streams, ⟨start_eq, contiguous, covers, exists_ended contiguous covers⟩,
    fun count => (next_covers sound lettered arranged short (reads count).1 (reads count).2).2⟩

/-- The tokens of `ab ab`, read in the mode of the start and in that of recovery by turns. -/
theorem stream_tiles_pairs :
    (∀ count, (LexMode.ofIndex (count % 2)).index < Pairs.table.lexModeCount) ∧
      (∀ position mode, position ≤ Pairs.text.size → Pairs.lexer.Addresses Pairs.text position mode) ∧
      ∃ tokens : Nat → LexedToken,
        (∀ count, Pairs.lexer.stream Pairs.text (fun count => .ofIndex (count % 2)) count = .ok (tokens count)) ∧
          Tiles Pairs.text tokens ∧ ∀ count, (tokens count).stop ≤ (tokens count).examinedEnd := by
  have near := ClassScanner.toScanner_near ⟨[], [], ⟨true, false, false, false⟩⟩
  have reports : ∀ position mode, position ≤ Pairs.text.size → Pairs.lexer.Reports Pairs.text position mode :=
    fun _ mode inside => Language.reports_of_near near Pairs.compile_eq (by decide) inside mode
  have addresses : ∀ position mode, position ≤ Pairs.text.size → Pairs.lexer.Addresses Pairs.text position mode :=
    fun position mode inside => (reports position mode inside).addresses
  have known : ∀ count, (LexMode.ofIndex (count % 2)).index < Pairs.table.lexModeCount := by
    intro count
    rcases Nat.mod_two_eq_zero_or_one count with even | odd
    · rw [even]
      decide
    · rw [odd]
      decide
  obtain ⟨tokens, streams, tiles, reported⟩ := stream_tiles Pairs.compile_table near.throughCursor
    (ClassScanner.toScanner_answers _) Pairs.make_eq (by decide) addresses
    (fun count => .ofIndex (count % 2)) known
  refine ⟨known, addresses, tokens, streams, tiles, fun count => reported count ?_⟩
  exact reports _ _ (Nat.le_trans (tiles.covers count).start_le (tiles.covers count).stop_le)

/-- The scanner that looks four gigabytes ahead takes the text `aa` for one token, and reports that nothing
was examined for it. -/
theorem stream_farSighted :
    FarSighted.scanner.ThroughCursor ∧ FarSighted.scanner.Answers ∧
      Language.compile FarSighted.declaration FarSighted.scanner = .ok FarSighted.language ∧
      1 < FarSighted.language.table.lexModeCount ∧
      ∃ token, FarSighted.language.lexer.stream #[97, 97] (fun _ => ⟨1⟩) 0 = .ok token ∧
        token.examinedEnd = 0 ∧ token.stop = 2 := by
  exact ⟨scriptScanner_throughCursor _, scriptScanner_answers _, eq_ok_get FarSighted.compiles, by decide +kernel,
    ⟨⟨2⟩, [], 0, 2, 0, ⟨1⟩⟩, eq_ok_of_toOption (by decide +kernel), rfl, rfl⟩

end Lexer

end IncrementalParsing
