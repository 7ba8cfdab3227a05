import IncrementalParsing.Lexing.Script
import IncrementalParsing.Proofs.Builtin.Scanner
import IncrementalParsing.Proofs.Lexing.Locality
import IncrementalParsing.Proofs.Parsing.Produced

/-!
What tokens report. The extent that is kept of a token is the one that was examined, as long as it can be
written with 32 bits. A scanner that stays near the text keeps it so on every text that is shorter than
that by the distance that it looks ahead. Then the token at a position of one text is the token at a
position of another wherever the bytes are the same that it reports.
-/

namespace IncrementalParsing

namespace Lexer

section Near

variable {slack : Nat}

theorem triviaPieces_near {scanner : Scanner} (near : scanner.Near slack) (count : Nat) :
    ∀ cursor : Cursor, cursor.text.size - cursor.position < count →
      cursor.position ≤ cursor.text.size → cursor.examined ≤ cursor.text.size + slack →
      (triviaPieces scanner cursor.text.size cursor).2.examined ≤ cursor.text.size + slack := by
  have trivia := near.trivia.through.sound
  induction count with
  | zero => exact fun _ impossible => absurd impossible (Nat.not_lt_zero _)
  | succ count ih =>
      intro cursor bound inside before
      have within := trivia.within cursor inside
      have kept := trivia.text cursor
      have here := near.trivia.looks cursor inside before
      cases ran : scanner.trivia cursor with
      | mk found next =>
      rw [ran] at within kept here
      dsimp only at within kept here
      by_cases goes : ∃ kind, found = some kind ∧ cursor.position < next.position
      · obtain ⟨kind, rfl, moved⟩ := goes
        rw [triviaPieces_goes ran ⟨moved, within⟩]
        have rest := ih next (by rw [kept]; omega) (by rw [kept]; exact within) (by rw [kept]; exact here)
        rw [kept] at rest
        exact rest
      · rw [triviaPieces_stops ran]
        · exact here
        · cases found with
          | none => exact Or.inl rfl
          | some kind => exact Or.inr (fun moved => goes ⟨kind, rfl, moved.1⟩)

theorem considerLiterals_near (valid : TerminalSet) (literals : List (List UInt8 × KindId)) :
    ∀ (choice : Choice) (cursor : Cursor), cursor.position ≤ cursor.text.size →
      cursor.examined ≤ cursor.text.size + (slack + 1) →
      (considerLiterals valid cursor.position literals choice cursor).2.examined ≤
        cursor.text.size + (slack + 1) := by
  induction literals with
  | nil => exact fun _ _ _ before => before
  | cons literal rest ih =>
      intro choice cursor inside before
      obtain ⟨bytes, kind⟩ := literal
      have eats := Scan.eatBytes_sound bytes
      have kept : (cursor.eatBytes bytes).2.text = cursor.text := eats.text cursor
      have here := (@Scan.Near.eatBytes slack bytes).looks cursor inside before
      have later := ih
        (if (cursor.eatBytes bytes).1 then choice.consider valid ⟨bytes.length, kind, true⟩ else choice)
        ((cursor.eatBytes bytes).2.rewind cursor.position)
      change cursor.position ≤ (cursor.eatBytes bytes).2.text.size →
        (cursor.eatBytes bytes).2.examined ≤ (cursor.eatBytes bytes).2.text.size + (slack + 1) →
        _ ≤ (cursor.eatBytes bytes).2.text.size + (slack + 1) at later
      rw [kept] at later
      exact later inside here

variable {lexer : Lexer} (sound : lexer.Sound) (near : lexer.scanner.Near (slack + 1))

include near in
theorem external?_near {mode : LexMode} {cursor next : Cursor} {token : Option LexedToken}
    (inside : cursor.position ≤ cursor.text.size) (before : cursor.examined ≤ cursor.text.size + (slack + 1))
    (done : lexer.external? mode cursor = .ok (token, next)) :
    next.examined ≤ cursor.text.size + (slack + 1) ∧
      ∀ found, token = some found → found.examinedEnd = max next.examined found.stop := by
  unfold external? at done
  split at done
  · cases done
    exact ⟨before, fun _ impossible => nomatch impossible⟩
  · rename_i admitted _
    have here := (near.scanExternal admitted).looks cursor inside before
    rw [StateT.run] at done
    split at done
    · rename_i index moved ran
      rw [ran] at here
      split at done
      · obtain ⟨kind, _, finished⟩ := bind_ok.mp done
        cases pure_ok.mp finished
        refine ⟨here, fun found same => ?_⟩
        cases same
        rfl
      · cases done
        exact ⟨here, fun _ impossible => nomatch impossible⟩
    · rename_i moved ran
      rw [ran] at here
      cases done
      exact ⟨here, fun _ impossible => nomatch impossible⟩

include near in
theorem afterTrivia_near {mode : LexMode} {start : Nat} {leading : List TriviaPiece} {byte : UInt8}
    {cursor : Cursor} {token : LexedToken} (inside : cursor.position ≤ cursor.text.size)
    (before : cursor.examined ≤ cursor.text.size + (slack + 1))
    (done : lexer.afterTrivia mode start leading byte cursor = .ok token) :
    token.examinedEnd ≤ max (cursor.text.size + (slack + 1)) token.stop := by
  unfold afterTrivia at done
  obtain ⟨valid, _, done⟩ := bind_ok.mp done
  obtain ⟨choice, _, done⟩ := bind_ok.mp done
  cases pure_ok.mp done
  have literals := @considerLiterals_near slack valid (lexer.literals[byte.toNat]?.getD [])
    ⟨none, none⟩ cursor inside before
  have kept := considerLiterals_keeps valid (lexer.literals[byte.toNat]?.getD []) ⟨none, none⟩ cursor
  have scanned := near.scan.looks (considerLiterals valid cursor.position
    (lexer.literals[byte.toNat]?.getD []) ⟨none, none⟩ cursor).2
  rw [kept.1, kept.2.1] at scanned
  have reach := scanned inside literals
  unfold Choice.token
  split
  · exact Nat.max_le.mpr ⟨Nat.le_trans reach (Nat.le_max_left _ _), Nat.le_max_right _ _⟩
  · exact Nat.max_le.mpr ⟨Nat.le_trans reach (Nat.le_max_left _ _), Nat.le_max_right _ _⟩

include sound near in
theorem read_near {text : Array UInt8} {position : Nat} {mode : LexMode} {token : LexedToken}
    (inside : position ≤ text.size) (done : lexer.read text position mode = .ok token) :
    token.examinedEnd ≤ text.size + (slack + 1) := by
  have within := (read_fits sound inside done).stop_le
  unfold read at done
  rw [Nat.min_eq_left inside] at done
  obtain ⟨⟨immediate, cursor⟩, looked, done⟩ := bind_ok.mp done
  obtain ⟨reach, reported⟩ := @external?_near slack lexer near mode (.start text position) cursor immediate inside
    (Nat.le_trans inside (Nat.le_add_right _ _)) looked
  change cursor.examined ≤ text.size + (slack + 1) at reach
  cases immediate with
  | some external =>
      cases pure_ok.mp done
      have exact_ := reported token rfl
      omega
  | none =>
      obtain ⟨kept, _, stays, _⟩ := external?_keeps near.throughCursor looked
      change cursor.text = text at kept
      have here : cursor.position = position := stays rfl
      have pieces := triviaPieces_near near _ cursor (Nat.lt_succ_self _) (by rw [kept, here]; exact inside)
        (by rw [kept]; exact reach)
      obtain ⟨afterText, _, afterInside, _⟩ := triviaPieces_covers lexer.scanner near.throughCursor
        text.size _ cursor (Nat.le_refl _) (by rw [here]; exact inside)
      rw [kept] at pieces afterText
      dsimp only at done
      generalize triviaPieces lexer.scanner text.size cursor = passed at done pieces afterText afterInside
      obtain ⟨leading, after⟩ := passed
      dsimp only at done pieces afterText afterInside
      have examined : (after.examine after.position).examined ≤ text.size + (slack + 1) := by
        change max after.examined (after.position + 1) ≤ _
        omega
      split at done
      · cases pure_ok.mp done
        exact Nat.max_le.mpr ⟨examined, Nat.le_trans within (Nat.le_add_right _ _)⟩
      · have last := afterTrivia_near near (by rw [Cursor.position_examine, Cursor.text_examine, afterText]
                                               exact afterInside)
          (by rw [Cursor.text_examine, afterText]; exact examined) done
        rw [Cursor.text_examine, afterText] at last
        omega

end Near

/-- The extent of what is examined for the token at a position can be written with 32 bits. -/
def Reports (lexer : Lexer) (text : Array UInt8) (position : Nat) (mode : LexMode) : Prop :=
  ∀ token, lexer.read text position mode = .ok token → token.examinedEnd < offsetLimit

theorem Reports.addresses {lexer : Lexer} {text : Array UInt8} {position : Nat} {mode : LexMode}
    (reports : lexer.Reports text position mode) : lexer.Addresses text position mode :=
  fun token done => Nat.lt_trans (reports token done) (by decide)

theorem Reports.next_eq {lexer : Lexer} {text : Array UInt8} {position : Nat} {mode : LexMode}
    (reports : lexer.Reports text position mode) :
    lexer.next text position mode = lexer.read text position mode := by
  cases done : lexer.read text position mode with
  | error fault =>
      unfold next
      rw [done]
      rfl
  | ok token =>
      have near := reports token done
      rw [next_of_read done (Nat.lt_of_le_of_lt (stop_le_of_read done) near) (reports.addresses token done),
        Nat.mod_eq_of_lt near]

/-- Where extents can be written with 32 bits, the parser takes every token as it is read. -/
theorem Reports.lex_eq {job : Job} {position : Nat} {mode : LexMode}
    (reports : job.language.lexer.Reports job.text position mode) :
    job.lex position mode = job.language.lexer.read job.text position mode := by
  cases done : job.language.lexer.read job.text position mode with
  | error fault =>
      unfold Job.lex
      rw [done]
      rfl
  | ok token =>
      have near := reports token done
      refine Job.lex_ok.mpr ⟨token, done, Nat.lt_of_le_of_lt (stop_le_of_read done) near,
        reports.addresses token done, ?_⟩
      rw [Nat.mod_eq_of_lt near]

theorem reports_of_near {slack : Nat} {lexer : Lexer} (sound : lexer.Sound)
    (near : lexer.scanner.Near (slack + 1)) {text : Array UInt8} (short : text.size + (slack + 1) < offsetLimit)
    {position : Nat} (inside : position ≤ text.size) (mode : LexMode) : lexer.Reports text position mode :=
  fun _ done => Nat.lt_of_le_of_lt (read_near sound near inside done) short

theorem next_of_reports {lexer : Lexer} (through : lexer.scanner.ThroughCursor)
    {text against : Array UInt8} {position other : Nat} {mode : LexMode} {token : LexedToken}
    (inside : position ≤ text.size) (insideOther : other ≤ against.size)
    (reports : lexer.Reports text position mode) (reportsOther : lexer.Reports against other mode)
    (done : lexer.next text position mode = .ok token)
    (agree : Cursor.Agree text against position other token.examinedEnd) :
    lexer.next against other mode = .ok (token.movedTo other) := by
  rw [reports.next_eq] at done
  rw [reportsOther.next_eq]
  exact read_locally through inside insideOther done agree

end Lexer

/-- A language reports what it examines of every text that is not too long, if its scanner stays near the
text. -/
theorem Language.reports_of_near {slack : Nat} {declaration : Declaration} {scanner : Scanner}
    {language : Language} (near : scanner.Near (slack + 1))
    (compiled : Language.compile declaration scanner = .ok language) {text : Array UInt8}
    (short : text.size + (slack + 1) < offsetLimit) {position : Nat} (inside : position ≤ text.size)
    (mode : LexMode) : language.lexer.Reports text position mode := by
  have sound := (Language.compile_sound near.throughCursor compiled).lexer
  obtain ⟨_, same, _⟩ := Lexer.make_resolves (compile_ok.mp compiled).2
  rw [← same] at near
  exact Lexer.reports_of_near sound near short inside mode

/-- A text in which every offset that a token is looked for up to fits 32 bits. -/
structure Parser.Measures (parser : Parser) (text : Array UInt8) : Prop where
  small : text.size < offsetLimit
  reports : ∀ position mode, position ≤ text.size → parser.language.lexer.Reports text position mode

theorem ClassScanner.measures {scanner : ClassScanner} {declaration : Declaration} {parser : Parser}
    (compiled : Language.compile declaration scanner.toScanner = .ok parser.language) {text : Array UInt8}
    (short : text.size + 2 < offsetLimit) : parser.Measures text :=
  ⟨by omega, fun _ mode inside => Language.reports_of_near scanner.toScanner_near compiled short inside mode⟩

namespace Lexer

/-- The lexer reads nothing that it does not report. For every scanner that works through its cursor, the
token at a position of one text is, at its place, the token at a position of another that has the same
bytes ahead as far as the token reports them, provided that extents can be written with 32 bits. The
scanner of the built-in language is one of those, and its extents can be written on every text that is
nine bytes shorter than that. -/
theorem next_locally {lexer : Lexer} (through : lexer.scanner.ThroughCursor) {text against : Array UInt8}
    {position other : Nat} {mode : LexMode} {token : LexedToken} (inside : position ≤ text.size)
    (insideOther : other ≤ against.size)
    (reports : (lexer.Reports text position mode ∧ lexer.Reports against other mode) ∨
      ∃ declaration language, Language.compile declaration Builtin.scanner = .ok language ∧
        language.lexer = lexer ∧ text.size + 9 < offsetLimit ∧ against.size + 9 < offsetLimit)
    (done : lexer.next text position mode = .ok token)
    (agree : Cursor.Agree text against position other token.examinedEnd) :
    lexer.next against other mode = .ok (token.movedTo other) := by
  obtain ⟨here, there⟩ : lexer.Reports text position mode ∧ lexer.Reports against other mode := by
    rcases reports with both | ⟨declaration, language, compiled, rfl, short, shortOther⟩
    · exact both
    · exact ⟨Language.reports_of_near Builtin.scanner_near compiled short inside mode,
        Language.reports_of_near Builtin.scanner_near compiled shortOther insideOther mode⟩
  exact next_of_reports through inside insideOther here there done agree

end Lexer

/-! ### Tokens at two places -/

namespace Names

def declaration : Declaration :=
  { Declaration.empty "name" with
    rules := #[("name", .symbol "identifier")]
    tokens := Builtin.tokenNames.toArray
    externals := Builtin.externalNames.toArray }

theorem compiles : (Language.compile declaration Builtin.scanner).toOption.isSome = true := by
  decide +kernel

def language : Language := (Language.compile declaration Builtin.scanner).toOption.get compiles

theorem compile_eq : Language.compile declaration Builtin.scanner = .ok language := eq_ok_get compiles

def text : Array UInt8 := #[97, 98, 32, 99]

def later : Array UInt8 := #[49, 32, 97, 98, 32]

def token : LexedToken := ⟨⟨2⟩, [], 0, 2, 3, ⟨1⟩⟩

theorem next_eq : language.lexer.next text 0 ⟨1⟩ = .ok token := by
  simp only [language, Language.compile, Lexer.make, ← List.toArray_range, List.map_toArray]
  exact eq_ok_of_toOption (by decide +kernel)

theorem agree : Cursor.Agree text later 0 2 token.examinedEnd := by
  intro distance inside
  change 0 + distance < 3 at inside
  match distance with
  | 0 | 1 | 2 => rfl
  | _ + 3 => omega

end Names

namespace Pairs

def token : LexedToken := ⟨⟨2⟩, [⟨.whitespace, 1⟩], 2, 4, 4, ⟨1⟩⟩

theorem next_eq : language.lexer.next text 2 ⟨1⟩ = .ok token := by
  rw [language_eq]
  exact eq_ok_of_toOption (by decide +kernel)

theorem agree : Cursor.Agree text longer 2 4 token.examinedEnd := by
  intro distance inside
  change 2 + distance < 4 at inside
  match distance with
  | 0 | 1 => rfl
  | _ + 2 => omega

end Pairs

theorem Lexer.next_locally_moved :
    Pairs.language.lexer.next Pairs.longer 4 ⟨1⟩ = .ok (Pairs.token.movedTo 4) ∧
      Names.language.lexer.next Names.later 2 ⟨1⟩ = .ok (Names.token.movedTo 2) := by
  have pairs := eq_ok_get Pairs.compiles
  have near := ClassScanner.toScanner_near ⟨[], [], ⟨true, false, false, false⟩⟩
  constructor
  · exact next_locally (Language.compile_sound near.throughCursor pairs).lexer.scanner (by decide) (by decide)
      (Or.inl ⟨Language.reports_of_near near pairs (by decide) (by decide) _,
        Language.reports_of_near near pairs (by decide) (by decide) _⟩) Pairs.next_eq Pairs.agree
  · exact next_locally (Language.compile_sound Builtin.scanner_near.throughCursor Names.compile_eq).lexer.scanner
      (by decide) (by decide)
      (Or.inr ⟨Names.declaration, Names.language, Names.compile_eq, rfl, by decide, by decide⟩) Names.next_eq
      Names.agree

/-! ### A scanner that looks four gigabytes ahead -/

theorem CursorCall.perform_throughCursor (call : CursorCall) : call.perform.ThroughCursor := by
  cases call with
  | peek => exact .bind (.nth 0) (fun _ => .pure _)
  | second => exact .bind (.nth 1) (fun _ => .pure _)
  | nth distance => exact .bind (.nth distance) (fun _ => .pure _)
  | isEof => exact .bind .isEof (fun _ => .pure _)
  | isNext byte => exact .bind (.isNext byte) (fun _ => .pure _)
  | advance => exact .bind .advance (fun _ => .pure _)
  | advanceWhile set => exact .bind (.advanceWhile _) (fun _ => .pure _)
  | eat byte => exact .bind (.eat byte) (fun _ => .pure _)
  | eatBytes bytes => exact .bind (.eatBytes bytes) (fun _ => .pure _)

theorem performScript_throughCursor (script : List CursorCall) : (performScript script).ThroughCursor := by
  induction script with
  | nil => exact .pure _
  | cons call rest ih =>
      exact .bind call.perform_throughCursor (fun _ => .bind ih (fun _ => .pure _))

theorem scriptScanner_throughCursor (script : List CursorCall) : (scriptScanner script).ThroughCursor where
  trivia := .pure _
  scan := .pure _
  scanExternal := fun _ => .bind (performScript_throughCursor script) (fun _ => .pure _)

namespace FarSighted

def declaration : Declaration := ((Declaration.empty "cursor").external "raw").rule "s" (.symbol "raw")

/-- Looks at the last byte whose distance has 32 bits, and then takes what is next. -/
def scanner : Scanner :=
  scriptScanner [.nth (offsetLimit - 1), .advanceWhile ⟨[(97, 97)]⟩]

theorem compiles : (Language.compile declaration scanner).toOption.isSome = true := by decide +kernel

def language : Language := (Language.compile declaration scanner).toOption.get compiles

def token : LexedToken := ⟨⟨2⟩, [], 0, 2, 0, ⟨1⟩⟩

end FarSighted

/-- An extent that takes more than 32 bits is not reported: the scanner looks at the byte four gigabytes
ahead, which makes the extent of the token of `aab` that of no byte at all. So `ab` agrees with all that
is reported, and its token is another one. -/
theorem Lexer.next_farSighted :
    FarSighted.scanner.ThroughCursor ∧
      Language.compile FarSighted.declaration FarSighted.scanner = .ok FarSighted.language ∧
      FarSighted.language.lexer.next #[97, 97, 98] 0 ⟨1⟩ = .ok FarSighted.token ∧
      Cursor.Agree #[97, 97, 98] #[97, 98] 0 0 FarSighted.token.examinedEnd ∧
      FarSighted.language.lexer.next #[97, 98] 0 ⟨1⟩ ≠ .ok (FarSighted.token.movedTo 0) := by
  refine ⟨scriptScanner_throughCursor _, eq_ok_get FarSighted.compiles,
    eq_ok_of_toOption (by decide +kernel), ?_, ?_⟩
  · intro distance inside
    exact absurd inside (Nat.not_lt_zero _)
  · have short : FarSighted.language.lexer.next #[97, 98] 0 ⟨1⟩ = .ok ⟨⟨2⟩, [], 0, 1, 0, ⟨1⟩⟩ :=
      eq_ok_of_toOption (by decide +kernel)
    rw [short]
    intro same
    exact absurd (Except.ok.inj same) (by decide)

end IncrementalParsing

