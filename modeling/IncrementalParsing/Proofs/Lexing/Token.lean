import IncrementalParsing.Lexing.Lexer
import IncrementalParsing.Parsing.Language
import IncrementalParsing.Proofs.Lalr.Chart
import IncrementalParsing.Proofs.Lexing.ThroughCursor
import IncrementalParsing.Proofs.Lexing.Widths

/-!
What the lexer answers. A token begins where it was asked for and ends within the text; it covers its
trivia and, unless it is the end of the input, at least one byte more. Its kind is a terminal of the
table.
-/

namespace IncrementalParsing

def Table.IsLexical (table : Table) (kind : KindId) : Prop :=
  2 ≤ kind.index ∧ kind.index < table.terminalCount

/-- A lexer whose scanner works through its cursor, and whose kinds are terminals. -/
structure Lexer.Sound (lexer : Lexer) : Prop where
  scanner : lexer.scanner.ThroughCursor
  terminals : 2 ≤ lexer.table.terminalCount
  tokens : ∀ (index : Nat) (kind : KindId), lexer.tokenKinds[index]? = some kind → lexer.table.IsLexical kind
  externals : ∀ (index : Nat) (kind : KindId), lexer.externalKinds[index]? = some kind → lexer.table.IsLexical kind
  literals : ∀ (byte : Nat) (bytes : List UInt8) (kind : KindId), (bytes, kind) ∈ lexer.literals[byte]?.getD [] →
    bytes ≠ [] ∧ lexer.table.IsLexical kind
  keywords : ∀ (bytes : List UInt8) (kind : KindId),
    lexer.keywords.lookup bytes = some kind → lexer.table.IsLexical kind

structure LexedToken.Fits (table : Table) (text : Array UInt8) (position : Nat) (mode : LexMode)
    (token : LexedToken) : Prop where
  start_eq : token.start = position
  textStart_le : token.textStart ≤ token.stop
  stop_le : token.stop ≤ text.size
  ended : token.kind = .endOfInput → token.textStart = text.size
  advances : token.kind ≠ .endOfInput → token.textStart < token.stop
  terminal : table.isTerminal token.kind = true
  mode_eq : token.lexMode = mode

namespace Lexer

section Parts

theorem triviaLength_cons (piece : TriviaPiece) (rest : List TriviaPiece) :
    triviaLength (piece :: rest) = piece.length + triviaLength rest := by
  unfold triviaLength
  rw [List.map_cons, sumOf_cons]

theorem triviaPieces_covers (scanner : Scanner) (through : scanner.ThroughCursor) (limit : Nat) :
    ∀ (left : Nat) (cursor : Cursor), limit - cursor.position ≤ left → cursor.position ≤ limit →
      (triviaPieces scanner limit cursor).2.text = cursor.text ∧
      (triviaPieces scanner limit cursor).2.position =
        cursor.position + triviaLength (triviaPieces scanner limit cursor).1 ∧
      (triviaPieces scanner limit cursor).2.position ≤ limit ∧
      cursor.examined ≤ (triviaPieces scanner limit cursor).2.examined := by
  have trivia := through.trivia.sound
  intro left
  induction left with
  | zero =>
      intro cursor bound inside
      unfold triviaPieces
      split
      · rename_i kind next ran
        rw [dif_neg (by omega)]
        have kept := trivia.text cursor
        have more := trivia.examined_le cursor
        change scanner.trivia cursor = _ at ran
        rw [ran] at kept more
        exact ⟨kept, rfl, inside, more⟩
      · rename_i next ran
        have kept := trivia.text cursor
        have more := trivia.examined_le cursor
        change scanner.trivia cursor = _ at ran
        rw [ran] at kept more
        exact ⟨kept, rfl, inside, more⟩
  | succ left ih =>
      intro cursor bound inside
      unfold triviaPieces
      split
      · rename_i kind next ran
        have kept := trivia.text cursor
        have more := trivia.examined_le cursor
        change scanner.trivia cursor = _ at ran
        rw [ran] at kept more
        split
        · rename_i moved
          obtain ⟨text, covers, within, examined⟩ := ih next (by omega) moved.2
          refine ⟨text.trans kept, ?_, within, Nat.le_trans more examined⟩
          rw [covers, triviaLength_cons]
          dsimp only
          omega
        · exact ⟨kept, rfl, inside, more⟩
      · rename_i next ran
        have kept := trivia.text cursor
        have more := trivia.examined_le cursor
        change scanner.trivia cursor = _ at ran
        rw [ran] at kept more
        exact ⟨kept, rfl, inside, more⟩

def Candidate.Fits (table : Table) (text : Array UInt8) (position : Nat) (candidate : Candidate) : Prop :=
  0 < candidate.length ∧ position + candidate.length ≤ text.size ∧ table.IsLexical candidate.kind

def Choice.Fits (table : Table) (text : Array UInt8) (position : Nat) (choice : Choice) : Prop :=
  (∀ candidate, choice.admitted = some candidate → candidate.Fits table text position) ∧
    ∀ candidate, choice.any = some candidate → candidate.Fits table text position

theorem Choice.Fits.consider {table : Table} {text : Array UInt8} {position : Nat} {choice : Choice}
    {candidate : Candidate} (valid : TerminalSet) (fits : choice.Fits table text position)
    (candidateFits : candidate.Fits table text position) :
    (choice.consider valid candidate).Fits table text position := by
  constructor
  · intro chosen same
    unfold Choice.consider at same
    dsimp only at same
    split at same
    · cases same
      exact candidateFits
    · exact fits.1 chosen same
  · intro chosen same
    unfold Choice.consider at same
    dsimp only at same
    split at same
    · cases same
      exact candidateFits
    · exact fits.2 chosen same

theorem considerLiterals_fits (table : Table) (valid : TerminalSet) :
    ∀ (literals : List (List UInt8 × KindId)) (choice : Choice) (cursor : Cursor),
      (∀ bytes kind, (bytes, kind) ∈ literals → bytes ≠ [] ∧ table.IsLexical kind) →
      choice.Fits table cursor.text cursor.position →
      (considerLiterals valid cursor.position literals choice cursor).1.Fits table cursor.text
          cursor.position ∧
        (considerLiterals valid cursor.position literals choice cursor).2.text = cursor.text ∧
        (considerLiterals valid cursor.position literals choice cursor).2.position = cursor.position ∧
        cursor.examined ≤ (considerLiterals valid cursor.position literals choice cursor).2.examined
  | [], choice, cursor, _known, fits => ⟨fits, rfl, rfl, Nat.le_refl _⟩
  | (bytes, kind) :: rest, choice, cursor, known, fits => by
      unfold considerLiterals
      obtain ⟨nonempty, lexical⟩ := known bytes kind List.mem_cons_self
      have eats := Scan.eatBytes_sound bytes
      have kept : (cursor.eatBytes bytes).2.text = cursor.text := eats.text cursor
      have more : cursor.examined ≤ (cursor.eatBytes bytes).2.examined := eats.examined_le cursor
      have found : (cursor.eatBytes bytes).1 = true →
          cursor.position + bytes.length ≤ cursor.text.size := by
        intro matched
        exact ((Scan.continuesWith_examined bytes cursor 0).2 matched nonempty).2
      have here : (if (cursor.eatBytes bytes).1 then
          choice.consider valid ⟨bytes.length, kind, true⟩ else choice).Fits table cursor.text
            cursor.position := by
        split
        · rename_i matched
          exact fits.consider valid ⟨List.length_pos_iff.mpr nonempty, found matched, lexical⟩
        · exact fits
      have later := considerLiterals_fits table valid rest _
        ((cursor.eatBytes bytes).2.rewind cursor.position)
        (fun other otherKind member => known other otherKind (List.mem_cons_of_mem _ member))
        (by
          change Choice.Fits table (cursor.eatBytes bytes).2.text cursor.position _
          rw [kept]
          exact here)
      change Choice.Fits table (cursor.eatBytes bytes).2.text cursor.position _ ∧
        _ = (cursor.eatBytes bytes).2.text ∧ _ at later
      rw [kept] at later
      exact ⟨later.1, later.2.1, later.2.2.1, Nat.le_trans more later.2.2.2⟩

end Parts

section Reading

variable {lexer : Lexer}

theorem requireAt_lexical {table : Table} {index : Nat} {kind : KindId} {kinds : Array KindId}
    (known : ∀ (index : Nat) (kind : KindId), kinds[index]? = some kind → table.IsLexical kind)
    (found : requireAt kinds index = .ok kind) : table.IsLexical kind :=
  known index kind (requireAt_ok.mp found)

theorem ne_end_of_isLexical {table : Table} {kind : KindId} (lexical : table.IsLexical kind) :
    kind ≠ .endOfInput := by
  intro same
  have low := lexical.1
  rw [same] at low
  exact absurd low (by decide)

private theorem finish_fits {table : Table} {mode : LexMode} {kind : KindId}
    {leading : List TriviaPiece} {start stop : Nat} {cursor : Cursor} {text : Array UInt8}
    (terminal : kind.index < table.terminalCount) (inside : stop ≤ text.size)
    (proper : kind ≠ .endOfInput → start + triviaLength leading < stop)
    (last : kind = .endOfInput → start + triviaLength leading = text.size ∧ stop = text.size) :
    (finish mode kind leading start stop cursor).Fits table text start mode where
  start_eq := rfl
  textStart_le := by
    change start + triviaLength leading ≤ stop
    by_cases ended : kind = .endOfInput
    · obtain ⟨at_, whole⟩ := last ended
      omega
    · exact Nat.le_of_lt (proper ended)
  stop_le := inside
  ended ended := (last ended).1
  advances := proper
  terminal := decide_eq_true terminal
  mode_eq := rfl

variable (sound : lexer.Sound)

include sound

theorem scannedCandidate_fits {valid : TerminalSet} {mode : LexMode} {kind : KindId}
    {text : Array UInt8} {position stop : Nat} (lexical : lexer.table.IsLexical kind)
    (moved : position < stop) (inside : stop ≤ text.size) :
    (lexer.scannedCandidate valid mode kind (text.extract position stop).toList).Fits lexer.table text
      position := by
  have length : (text.extract position stop).toList.length = stop - position := by
    rw [Array.length_toList, Array.size_extract, Nat.min_eq_left inside]
  have positive : 0 < (text.extract position stop).toList.length := by omega
  have room : position + (text.extract position stop).toList.length ≤ text.size := by omega
  unfold scannedCandidate
  dsimp only
  split
  · rename_i keyword found
    refine ⟨positive, room, ?_⟩
    split at found
    · obtain ⟨present, _⟩ := Option.filter_eq_some_iff.mp found
      exact sound.keywords _ keyword present
    · cases found
  · exact ⟨positive, room, lexical⟩

structure LooksFor (table : Table) (mode : LexMode) (cursor : Cursor) (token : Option LexedToken)
    (next : Cursor) : Prop where
  fits : ∀ found, token = some found → found.Fits table cursor.text cursor.position mode
  text : next.text = cursor.text
  stays : token = none → next.position = cursor.position
  examined_le : cursor.examined ≤ next.examined

theorem external?_looksFor {mode : LexMode} (cursor : Cursor)
    (inside : cursor.position ≤ cursor.text.size) {token : Option LexedToken} {next : Cursor}
    (done : lexer.external? mode cursor = .ok (token, next)) :
    LooksFor lexer.table mode cursor token next := by
  unfold external? at done
  split at done
  · cases done
    exact ⟨fun _ impossible => (nomatch impossible), rfl, fun _ => rfl, Nat.le_refl _⟩
  · rename_i admitted _
    have scans := (sound.scanner.scanExternal admitted).sound
    have kept := scans.text cursor
    have within := scans.within cursor inside
    have more := scans.examined_le cursor
    split at done
    · rename_i index moved ran
      change lexer.scanner.scanExternal admitted cursor = _ at ran
      rw [ran] at kept within more
      split at done
      · rename_i advanced
        obtain ⟨kind, at_, finished⟩ := bind_ok.mp done
        cases pure_ok.mp finished
        have lexical := requireAt_lexical sound.externals at_
        refine ⟨fun found same => ?_, kept, fun impossible => (nomatch impossible), more⟩
        cases same
        exact finish_fits lexical.2 within (fun _ => advanced)
          (fun ended => absurd ended (ne_end_of_isLexical lexical))
      · cases done
        exact ⟨fun _ impossible => (nomatch impossible), kept, fun _ => rfl, more⟩
    · rename_i moved ran
      change lexer.scanner.scanExternal admitted cursor = _ at ran
      rw [ran] at kept within more
      cases done
      exact ⟨fun _ impossible => (nomatch impossible), kept, fun _ => rfl, more⟩

theorem considerScanned_fits {valid : TerminalSet} {mode : LexMode} {cursor : Cursor}
    {before after : Choice} {scanned : Option Nat × Cursor}
    (fits : before.Fits lexer.table cursor.text cursor.position)
    (inside : scanned.2.position ≤ cursor.text.size)
    (done : lexer.considerScanned valid mode cursor before scanned = .ok after) :
    after.Fits lexer.table cursor.text cursor.position := by
  obtain ⟨found, next⟩ := scanned
  cases found with
  | none =>
      cases done
      exact fits
  | some index =>
      unfold considerScanned at done
      dsimp only at done
      split at done
      · rename_i moved
        obtain ⟨kind, at_, considered⟩ := bind_ok.mp done
        cases pure_ok.mp considered
        exact fits.consider valid
          (scannedCandidate_fits sound (requireAt_lexical sound.tokens at_) moved inside)
      · cases done
        exact fits

theorem token_fits {choice : Choice} {mode : LexMode} {start position : Nat}
    {leading : List TriviaPiece} {text : Array UInt8} {cursor : Cursor}
    (fits : choice.Fits lexer.table text position) (at_ : position = start + triviaLength leading)
    (inside : position < text.size) :
    (choice.token mode start leading position cursor).Fits lexer.table text start mode := by
  unfold Choice.token
  split
  · rename_i candidate picked
    have chosen : candidate.Fits lexer.table text position := by
      rcases Option.or_eq_some_iff.mp picked with admitted | ⟨_, any⟩
      · exact fits.1 candidate admitted
      · exact fits.2 candidate any
    obtain ⟨positive, room, lexical⟩ := chosen
    exact finish_fits lexical.2 room (fun _ => by omega)
      (fun ended => absurd ended (ne_end_of_isLexical lexical))
  · have terminals := sound.terminals
    exact finish_fits (show (1 : Nat) < _ by omega) inside (fun _ => by omega)
      (fun ended => absurd ended (by decide))

theorem afterTrivia_fits {mode : LexMode} {start : Nat} {leading : List TriviaPiece} {byte : UInt8}
    (cursor : Cursor) {token : LexedToken} (at_ : cursor.position = start + triviaLength leading)
    (inside : cursor.position < cursor.text.size)
    (done : lexer.afterTrivia mode start leading byte cursor = .ok token) :
    token.Fits lexer.table cursor.text start mode := by
  unfold afterTrivia at done
  obtain ⟨valid, _, done⟩ := bind_ok.mp done
  obtain ⟨choice, considered, done⟩ := bind_ok.mp done
  cases pure_ok.mp done
  obtain ⟨literals, text, position, _⟩ := considerLiterals_fits lexer.table
    valid (lexer.literals[byte.toNat]?.getD []) ⟨none, none⟩ cursor
    (fun bytes kind member => sound.literals byte.toNat bytes kind member)
    ⟨fun _ impossible => (nomatch impossible), fun _ impossible => (nomatch impossible)⟩
  have within := sound.scanner.scan.sound.within (considerLiterals valid cursor.position
    (lexer.literals[byte.toNat]?.getD []) ⟨none, none⟩ cursor).2
  rw [text, position] at within
  exact token_fits sound (considerScanned_fits sound literals (within (Nat.le_of_lt inside)) considered)
    at_ inside

theorem read_fits {text : Array UInt8} {position : Nat} {mode : LexMode} {token : LexedToken}
    (inside : position ≤ text.size) (done : lexer.read text position mode = .ok token) :
    token.Fits lexer.table text position mode := by
  unfold read at done
  rw [Nat.min_eq_left inside] at done
  obtain ⟨⟨immediate, cursor⟩, looked, done⟩ := bind_ok.mp done
  have looks := external?_looksFor sound (.start text position) inside looked
  cases immediate with
  | some external =>
      cases pure_ok.mp done
      exact looks.fits token rfl
  | none =>
      have here : cursor.position = position := looks.stays rfl
      obtain ⟨pieceText, piecePosition, pieceInside, _⟩ :=
        triviaPieces_covers lexer.scanner sound.scanner text.size _ cursor (Nat.le_refl _)
          (by rw [here]; exact inside)
      have same : (triviaPieces lexer.scanner text.size cursor).2.text = text :=
        pieceText.trans looks.text
      rw [here] at piecePosition
      dsimp only at done
      split at done
      · rename_i beyond
        cases pure_ok.mp done
        have whole := Array.getElem?_eq_none_iff.mp beyond
        have terminals := sound.terminals
        exact finish_fits (show (0 : Nat) < _ by omega) pieceInside
          (fun proper => absurd rfl proper) (fun _ => ⟨by omega, by omega⟩)
      · rename_i byte there
        obtain ⟨more, _⟩ := Array.getElem?_eq_some_iff.mp there
        have fits := afterTrivia_fits sound ((triviaPieces lexer.scanner text.size cursor).2.examine
          (triviaPieces lexer.scanner text.size cursor).2.position) piecePosition
          (by rw [Cursor.position_examine, Cursor.text_examine, same]; exact more) done
        rw [Cursor.text_examine, same] at fits
        exact fits

/-- The token at a position of a text whose size is an offset is the one that is read there, but for the extent of
what was examined, which is cut down to 32 bits. -/
theorem next_ok {text : Array UInt8} {position : Nat} {mode : LexMode} {token : LexedToken}
    (short : text.size < offsetLimit) (inside : position ≤ text.size) :
    lexer.next text position mode = .ok token ↔ ∃ read, lexer.read text position mode = .ok read ∧
      read.examinedEnd < sizeLimit ∧ token = { read with examinedEnd := read.examinedEnd % offsetLimit } := by
  constructor
  · intro done
    obtain ⟨read, found, cut⟩ := bind_ok.mp done
    have near := LexedToken.near_of_narrowed cut
    have ends := Nat.lt_of_le_of_lt (read_fits sound inside found).stop_le short
    rw [next_of_read found ends near] at done
    exact ⟨read, found, near, (Except.ok.inj done).symm⟩
  · rintro ⟨read, found, near, rfl⟩
    exact next_of_read found (Nat.lt_of_le_of_lt (read_fits sound inside found).stop_le short) near

theorem next_fits {text : Array UInt8} {position : Nat} {mode : LexMode} {token : LexedToken}
    (short : text.size < offsetLimit) (inside : position ≤ text.size)
    (done : lexer.next text position mode = .ok token) : token.Fits lexer.table text position mode := by
  obtain ⟨read, found, _, rfl⟩ := (next_ok sound short inside).mp done
  have fits := read_fits sound inside found
  exact ⟨fits.start_eq, fits.textStart_le, fits.stop_le, fits.ended, fits.advances, fits.terminal,
    fits.mode_eq⟩

end Reading

end Lexer

end IncrementalParsing
