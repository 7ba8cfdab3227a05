import IncrementalParsing.Proofs.Lexing.Munch
import IncrementalParsing.Proofs.Lexing.Reports

/-!
The lexer munches maximally. Each step of the lexer is matched with a part of what the token has to be: the
best candidate so far is the winner among those considered, the literals that are considered are those of
one bucket, which are all that begin as the text goes on, and every attempt starts where the cursor was
rewound to.
-/

namespace IncrementalParsing

theorem Cursor.hasAhead_iff {cursor : Cursor} {distance : Nat} {byte : UInt8} :
    cursor.hasAhead distance byte = true ↔ cursor.text.toList[cursor.position + distance]? = some byte := by
  unfold Cursor.hasAhead Cursor.byteAt
  rw [Bool.and_eq_true, decide_eq_true_eq, beq_iff_eq, Array.getElem?_toList]
  constructor
  · rintro ⟨inside, same⟩
    rw [Array.getElem?_eq_getElem inside] at same ⊢
    exact congrArg some same
  · intro there
    exact ⟨(Array.getElem?_eq_some_iff.mp there).1, by rw [there]; rfl⟩

theorem cons_prefix_drop {byte : UInt8} {rest whole : List UInt8} {place : Nat} :
    byte :: rest <+: whole.drop place ↔ whole[place]? = some byte ∧ rest <+: whole.drop (place + 1) := by
  by_cases inside : place < whole.length
  · rw [List.drop_eq_getElem_cons inside, List.cons_prefix_cons, List.getElem?_eq_getElem inside, Option.some_inj,
      eq_comm]
  · rw [List.drop_eq_nil_of_le (Nat.le_of_not_lt inside), List.getElem?_eq_none (Nat.le_of_not_lt inside)]
    simp

theorem Cursor.continuesWith_iff (bytes : List UInt8) : ∀ (cursor : Cursor) (distance : Nat),
    (cursor.continuesWith distance bytes).1 = true ↔
      bytes <+: cursor.text.toList.drop (cursor.position + distance) := by
  induction bytes with
  | nil => simp [Cursor.continuesWith]
  | cons byte rest ih =>
      intro cursor distance
      have later := ih (cursor.examine (cursor.position + distance)) (distance + 1)
      rw [Cursor.text_examine, Cursor.position_examine, ← Nat.add_assoc] at later
      rw [cons_prefix_drop, ← later, ← Cursor.hasAhead_iff, Cursor.continuesWith]
      cases same : cursor.hasAhead distance byte with
      | true => simp
      | false => simp

theorem Cursor.eatBytes_iff {cursor : Cursor} {bytes : List UInt8} :
    (cursor.eatBytes bytes).1 = true ↔ bytes <+: cursor.text.toList.drop cursor.position :=
  Cursor.continuesWith_iff bytes cursor 0

namespace Lexer

/-! ### The best candidate so far -/

def Candidate.Best (among : Candidate → Prop) : Option Candidate → Prop
  | none => ∀ candidate, ¬ among candidate
  | some best => Wins among best

theorem Candidate.Best.congr {left right : Candidate → Prop} {best : Option Candidate}
    (same : ∀ candidate, left candidate ↔ right candidate) (holds : Best left best) : Best right best := by
  cases funext (fun candidate => propext (same candidate))
  exact holds

theorem Candidate.beats_iff {candidate best : Candidate} : candidate.beats (some best) = true ↔
    best.length < candidate.length ∨
      candidate.length = best.length ∧ candidate.literal = true ∧ best.literal = false := by
  unfold Candidate.beats
  simp only [gt_iff_lt, Bool.or_eq_true, decide_eq_true_eq, Bool.and_eq_true, beq_iff_eq, Bool.not_eq_true',
    and_assoc]

theorem Candidate.Best.consider {among : Candidate → Prop} {best : Option Candidate} (holds : Best among best)
    (candidate : Candidate) : Best (fun other => among other ∨ other = candidate)
      (if candidate.beats best then some candidate else best) := by
  cases best with
  | none =>
      refine ⟨Or.inr rfl, ?_, ?_⟩
      · rintro other (considered | rfl)
        · exact absurd considered (holds other)
        · exact Nat.le_refl _
      · rintro other (considered | rfl) _ literal
        · exact absurd considered (holds other)
        · exact literal
  | some best =>
      obtain ⟨member, longest, literal⟩ := holds
      split
      · rename_i beats
        rw [Candidate.beats_iff] at beats
        refine ⟨Or.inr rfl, ?_, ?_⟩
        · rintro other (considered | rfl)
          · have below := longest other considered
            omega
          · exact Nat.le_refl _
        · rintro other (considered | rfl) length isLiteral
          · rcases beats with longer | ⟨_, yes, _⟩
            · have below := longest other considered
              omega
            · exact yes
          · exact isLiteral
      · rename_i loses
        rw [Candidate.beats_iff, not_or] at loses
        refine ⟨Or.inl member, ?_, ?_⟩
        · rintro other (considered | rfl)
          · exact longest other considered
          · exact Nat.le_of_not_lt loses.1
        · rintro other (considered | rfl) length isLiteral
          · exact literal other considered length isLiteral
          · cases known : best.literal with
            | true => rfl
            | false => exact absurd ⟨length, isLiteral, known⟩ loses.2

structure Choice.Settles (lexer : Lexer) (mode : LexMode) (among : Candidate → Prop) (choice : Choice) : Prop where
  admitted : Candidate.Best (fun candidate => among candidate ∧ lexer.admits mode candidate.kind = true)
    choice.admitted
  any : Candidate.Best among choice.any

section Munching

variable {lexer : Lexer} {mode : LexMode} {valid : TerminalSet}

theorem contains_eq_admits (terminals : lexer.table.modeTerminals mode = .ok valid) (kind : KindId) :
    valid.contains kind = lexer.admits mode kind := by
  unfold Table.modeTerminals at terminals
  unfold admits
  rw [requireAt_ok.mp terminals]
  rfl

theorem Choice.Settles.congr {left right : Candidate → Prop} {choice : Choice}
    (same : ∀ candidate, left candidate ↔ right candidate) (settles : choice.Settles lexer mode left) :
    choice.Settles lexer mode right := by
  cases funext (fun candidate => propext (same candidate))
  exact settles

theorem Choice.Settles.consider (terminals : lexer.table.modeTerminals mode = .ok valid)
    {among : Candidate → Prop} {choice : Choice} (settles : choice.Settles lexer mode among)
    (candidate : Candidate) : (choice.consider valid candidate).Settles lexer mode
      (fun other => among other ∨ other = candidate) := by
  refine ⟨?_, settles.any.consider candidate⟩
  unfold Choice.consider
  dsimp only
  rw [contains_eq_admits terminals]
  cases yes : lexer.admits mode candidate.kind with
  | true =>
      refine (settles.admitted.consider candidate).congr (fun other => ⟨?_, ?_⟩)
      · rintro (⟨considered, admitted⟩ | rfl)
        · exact ⟨Or.inl considered, admitted⟩
        · exact ⟨Or.inr rfl, yes⟩
      · rintro ⟨considered | rfl, admitted⟩
        · exact Or.inl ⟨considered, admitted⟩
        · exact Or.inr rfl
  | false =>
      refine settles.admitted.congr (fun other => ⟨fun ⟨considered, admitted⟩ => ⟨Or.inl considered, admitted⟩, ?_⟩)
      rintro ⟨considered | rfl, admitted⟩
      · exact ⟨considered, admitted⟩
      · exact absurd (yes.symm.trans admitted) Bool.false_ne_true

theorem considerLiterals_settles (terminals : lexer.table.modeTerminals mode = .ok valid)
    (literals : List (List UInt8 × KindId)) :
    ∀ (choice : Choice) (cursor : Cursor) (among : Candidate → Prop), choice.Settles lexer mode among →
      (considerLiterals valid cursor.position literals choice cursor).1.Settles lexer mode
        (fun candidate => among candidate ∨ ∃ bytes kind, (bytes, kind) ∈ literals ∧
          bytes <+: cursor.text.toList.drop cursor.position ∧ candidate = ⟨bytes.length, kind, true⟩) := by
  induction literals with
  | nil =>
      intro choice cursor among settles
      refine settles.congr (fun candidate => ⟨Or.inl, ?_⟩)
      rintro (considered | ⟨_, _, none, _⟩)
      · exact considered
      · cases none
  | cons literal rest ih =>
      intro choice cursor among settles
      obtain ⟨bytes, kind⟩ := literal
      have kept : (cursor.eatBytes bytes).2.text = cursor.text := (Scan.eatBytes_sound bytes).text cursor
      have here : Choice.Settles lexer mode (fun candidate => among candidate ∨
          bytes <+: cursor.text.toList.drop cursor.position ∧ candidate = ⟨bytes.length, kind, true⟩)
          (if (cursor.eatBytes bytes).1 then choice.consider valid ⟨bytes.length, kind, true⟩ else choice) := by
        split
        · rename_i found
          rw [Cursor.eatBytes_iff] at found
          exact (settles.consider terminals _).congr (fun candidate => or_congr_right (by simp [found]))
        · rename_i missed
          rw [Cursor.eatBytes_iff] at missed
          exact settles.congr (fun candidate => by simp [missed])
      have later := ih _ ((cursor.eatBytes bytes).2.rewind cursor.position) _ here
      change Choice.Settles lexer mode (fun candidate => _ ∨ ∃ others kind, (others, kind) ∈ rest ∧
        others <+: (cursor.eatBytes bytes).2.text.toList.drop cursor.position ∧ _) _ at later
      rw [kept] at later
      refine later.congr (fun candidate => ?_)
      simp only [List.mem_cons, Prod.mk.injEq]
      constructor
      · rintro ((considered | ⟨begins, same⟩) | ⟨others, otherKind, member, begins, same⟩)
        · exact Or.inl considered
        · exact Or.inr ⟨bytes, kind, Or.inl ⟨rfl, rfl⟩, begins, same⟩
        · exact Or.inr ⟨others, otherKind, Or.inr member, begins, same⟩
      · rintro (considered | ⟨others, otherKind, ⟨rfl, rfl⟩ | member, begins, same⟩)
        · exact Or.inl (Or.inl considered)
        · exact Or.inl (Or.inr ⟨begins, same⟩)
        · exact Or.inr ⟨others, otherKind, member, begins, same⟩

/-! ### What the scanner finds -/

section Scanned

variable {text : Array UInt8} {place index stop : Nat} {kind : KindId}
  (lettered : lexer.table.Lettered) (arranged : lexer.Arranged)

include lettered arranged

theorem scannedCandidate_cases (terminals : lexer.table.modeTerminals mode = .ok valid) (bytes : List UInt8) :
    (∃ keyword, lexer.IsKeyword mode kind bytes keyword ∧
        lexer.scannedCandidate valid mode kind bytes = ⟨bytes.length, keyword, true⟩) ∨
      (∀ keyword, ¬ lexer.IsKeyword mode kind bytes keyword) ∧
        lexer.scannedCandidate valid mode kind bytes = ⟨bytes.length, kind, false⟩ := by
  have allows : ∀ keyword, (mode == .error || valid.contains keyword) = true ↔
      mode = .error ∨ lexer.admits mode keyword = true := by
    intro keyword
    rw [Bool.or_eq_true, beq_iff_eq, contains_eq_admits terminals]
  unfold scannedCandidate
  dsimp only
  by_cases word : lexer.table.lexical.word = some kind
  · rw [if_pos word]
    cases found : (lexer.keywords.lookup bytes).filter
        (fun keyword => mode == .error || valid.contains keyword) with
    | some keyword =>
        obtain ⟨present, allowed⟩ := Option.filter_eq_some_iff.mp found
        obtain ⟨literal, taken⟩ := (arranged.mem_keywords bytes keyword).mp (Lalr.mem_of_lookup present)
        exact Or.inl ⟨keyword, ⟨word, literal, taken, (allows keyword).mp allowed⟩, rfl⟩
    | none =>
        refine Or.inr ⟨fun keyword isKeyword => ?_, rfl⟩
        have member := (arranged.mem_keywords bytes keyword).mpr ⟨isKeyword.literal, isKeyword.taken⟩
        cases present : lexer.keywords.lookup bytes with
        | none => simpa using List.lookup_eq_none_iff.mp present _ member
        | some other =>
            have isOther := ((arranged.mem_keywords bytes other).mp (Lalr.mem_of_lookup present)).1
            cases lettered.unique bytes keyword other isKeyword.literal isOther
            rw [present, Option.filter_some, if_pos ((allows keyword).mpr isKeyword.allowed)] at found
            cases found
  · rw [if_neg word]
    exact Or.inr ⟨fun keyword isKeyword => word isKeyword.word, rfl⟩

theorem offers_iff_of_finds (terminals : lexer.table.modeTerminals mode = .ok valid) (inside : stop ≤ text.size)
    (found : lexer.scanner.Finds text place index stop) (at_ : lexer.tokenKinds[index]? = some kind)
    (candidate : Candidate) : lexer.Offers text mode place candidate ↔
      (∃ bytes kind, (lexer.table.IsLiteral bytes kind ∧ ¬ lexer.TakesForWord bytes) ∧
        bytes <+: text.toList.drop place ∧ candidate = ⟨bytes.length, kind, true⟩) ∨
      candidate = lexer.scannedCandidate valid mode kind (bytesBetween text place stop) := by
  have length := @length_bytesBetween text place stop inside
  have counts := @scannedCandidate_cases lexer mode valid kind lettered arranged terminals
    (bytesBetween text place stop)
  rw [length] at counts
  constructor
  · intro offered
    cases offered with
    | literal isLiteral notWord begins => exact Or.inl ⟨_, _, ⟨isLiteral, notWord⟩, begins, rfl⟩
    | keyword again there isKeyword =>
        obtain ⟨rfl, rfl⟩ := found.unique again
        cases at_.symm.trans there
        rcases counts with ⟨other, isOther, same⟩ | ⟨none, _⟩
        · cases lettered.unique _ _ _ isKeyword.literal isOther.literal
          exact Or.inr same.symm
        · exact absurd isKeyword (none _)
    | scanned again there none =>
        obtain ⟨rfl, rfl⟩ := found.unique again
        cases at_.symm.trans there
        rcases counts with ⟨other, isOther, _⟩ | ⟨_, same⟩
        · exact absurd isOther (none other)
        · exact Or.inr same.symm
  · rintro (⟨bytes, literal, ⟨isLiteral, notWord⟩, begins, rfl⟩ | rfl)
    · exact .literal isLiteral notWord begins
    · rcases counts with ⟨keyword, isKeyword, same⟩ | ⟨none, same⟩
      · rw [same]
        exact .keyword found at_ isKeyword
      · rw [same]
        exact .scanned found at_ none

omit lettered arranged in
theorem offers_iff_of_not_finds (nothing : ∀ index stop, ¬ lexer.scanner.Finds text place index stop)
    (candidate : Candidate) : lexer.Offers text mode place candidate ↔
      ∃ bytes kind, (lexer.table.IsLiteral bytes kind ∧ ¬ lexer.TakesForWord bytes) ∧
        bytes <+: text.toList.drop place ∧ candidate = ⟨bytes.length, kind, true⟩ := by
  constructor
  · intro offered
    cases offered with
    | literal isLiteral notWord begins => exact ⟨_, _, ⟨isLiteral, notWord⟩, begins, rfl⟩
    | keyword found => exact absurd found (nothing _ _)
    | scanned found => exact absurd found (nothing _ _)
  · rintro ⟨bytes, kind, ⟨isLiteral, notWord⟩, begins, rfl⟩
    exact .literal isLiteral notWord begins

theorem considerScanned_settles (through : lexer.scanner.ThroughCursor)
    (terminals : lexer.table.modeTerminals mode = .ok valid) {cursor looked : Cursor} {before after : Choice}
    (inside : cursor.position ≤ cursor.text.size) (alike : cursor.Alike looked)
    (settles : before.Settles lexer mode (fun candidate => ∃ bytes kind,
      (lexer.table.IsLiteral bytes kind ∧ ¬ lexer.TakesForWord bytes) ∧
        bytes <+: cursor.text.toList.drop cursor.position ∧ candidate = ⟨bytes.length, kind, true⟩))
    (done : lexer.considerScanned valid mode cursor before (lexer.scanner.scan looked) = .ok after) :
    after.Settles lexer mode (lexer.Offers cursor.text mode cursor.position) := by
  obtain ⟨answer, moved⟩ := through.scan.oblivious (.start cursor.text cursor.position) looked
    ⟨alike.text, alike.position⟩
  have stops := through.scan.sound.within (.start cursor.text cursor.position) inside
  have place := moved.position
  cases ran : lexer.scanner.scan looked with
  | mk found scanned =>
  rw [ran] at done answer place
  have nothing : (∀ index, found = some index → scanned.position ≤ cursor.position) →
      ∀ index stop, ¬ lexer.scanner.Finds cursor.text cursor.position index stop := by
    intro stays index stop finds
    have here := stays index (answer.trans finds.answer)
    have there := finds.stop_eq
    have advances := finds.advances
    dsimp only at place
    omega
  cases found with
  | none =>
      cases done
      refine settles.congr (fun candidate => (offers_iff_of_not_finds (nothing ?_) candidate).symm)
      intro _ none
      cases none
  | some index =>
      unfold considerScanned at done
      dsimp only at done place
      split at done
      · rename_i advances
        obtain ⟨kind, at_, considered⟩ := bind_ok.mp done
        cases pure_ok.mp considered
        have finds : lexer.scanner.Finds cursor.text cursor.position index scanned.position :=
          ⟨answer.symm, place.symm, advances⟩
        exact (settles.consider terminals _).congr (fun candidate =>
          (offers_iff_of_finds lettered arranged terminals (place ▸ stops) finds (requireAt_ok.mp at_)
            candidate).symm)
      · rename_i stays
        cases done
        refine settles.congr (fun candidate => (offers_iff_of_not_finds (nothing ?_) candidate).symm)
        exact fun _ _ => Nat.le_of_not_lt stays

theorem mem_literals_iff {byte : UInt8} (there : text[place]? = some byte) {bytes : List UInt8}
    (begins : bytes <+: text.toList.drop place) :
    (bytes, kind) ∈ lexer.literals[byte.toNat]?.getD [] ↔
      lexer.table.IsLiteral bytes kind ∧ ¬ lexer.TakesForWord bytes := by
  rw [arranged.mem_literals]
  refine and_iff_right_of_imp (fun ⟨isLiteral, _⟩ => ?_)
  cases bytes with
  | nil => exact absurd rfl (lettered.ne_nil _ _ isLiteral)
  | cons head rest =>
      have same := (cons_prefix_drop.mp begins).1
      rw [Array.getElem?_toList, there] at same
      exact same.symm

theorem afterTrivia_stands (through : lexer.scanner.ThroughCursor) {start : Nat} {leading : List TriviaPiece}
    {byte : UInt8} {cursor : Cursor} {token : LexedToken} (there : cursor.text[cursor.position]? = some byte)
    (done : lexer.afterTrivia mode start leading byte cursor = .ok token) :
    token.leading = leading ∧ lexer.Stands cursor.text mode cursor.position token.kind token.stop := by
  obtain ⟨more, _⟩ := Array.getElem?_eq_some_iff.mp there
  unfold afterTrivia at done
  obtain ⟨valid, terminals, done⟩ := bind_ok.mp done
  obtain ⟨choice, considered, done⟩ := bind_ok.mp done
  cases pure_ok.mp done
  have first := considerLiterals_settles terminals (lexer.literals[byte.toNat]?.getD []) ⟨none, none⟩ cursor
    (fun _ => False) ⟨fun _ impossible => impossible.1, fun _ impossible => impossible⟩
  have kept := considerLiterals_keeps valid (lexer.literals[byte.toNat]?.getD []) ⟨none, none⟩ cursor
  have settles : Choice.Settles lexer mode (fun candidate => ∃ bytes kind,
      (lexer.table.IsLiteral bytes kind ∧ ¬ lexer.TakesForWord bytes) ∧
        bytes <+: cursor.text.toList.drop cursor.position ∧ candidate = ⟨bytes.length, kind, true⟩) _ :=
    first.congr (fun candidate => by
      constructor
      · rintro (impossible | ⟨bytes, kind, member, begins, same⟩)
        · exact impossible.elim
        · exact ⟨bytes, kind, (mem_literals_iff lettered arranged there begins).mp member, begins, same⟩
      · rintro ⟨bytes, kind, proper, begins, same⟩
        exact Or.inr ⟨bytes, kind, (mem_literals_iff lettered arranged there begins).mpr proper, begins, same⟩)
  obtain ⟨admitted, any⟩ := considerScanned_settles lettered arranged through terminals (Nat.le_of_lt more)
    ⟨kept.1, kept.2.1⟩ settles considered
  unfold Choice.token
  cases admits : choice.admitted with
  | some best =>
      rw [admits] at admitted
      exact ⟨rfl, .chosen more (.admitted admitted)⟩
  | none =>
      rw [admits] at admitted
      cases anything : choice.any with
      | some best =>
          rw [anything] at any
          refine ⟨rfl, .chosen more (.fallback (fun candidate offered => ?_) any)⟩
          exact Bool.eq_false_iff.mpr (fun yes => admitted candidate ⟨offered, yes⟩)
      | none =>
          rw [anything] at any
          exact ⟨rfl, .unrecognised more any⟩

end Scanned

/-! ### Trivia and immediate tokens -/

theorem triviaPieces_pieces {scanner : Scanner} (through : scanner.ThroughCursor) (text : Array UInt8)
    (count : Nat) : ∀ cursor : Cursor, cursor.text = text → text.size - cursor.position < count →
      cursor.position ≤ text.size → scanner.Pieces text cursor.position (triviaPieces scanner text.size cursor).1
        (triviaPieces scanner text.size cursor).2.position := by
  induction count with
  | zero => exact fun _ _ impossible => absurd impossible (Nat.not_lt_zero _)
  | succ count ih =>
      rintro cursor rfl bound inside
      obtain ⟨answer, moved⟩ := through.trivia.oblivious.at_start cursor
      have within := through.trivia.sound.within cursor inside
      have kept := through.trivia.sound.text cursor
      cases ran : scanner.trivia cursor with
      | mk found next =>
      rw [ran] at answer moved within kept
      dsimp only at answer moved within kept
      by_cases goes : ∃ kind, found = some kind ∧ cursor.position < next.position
      · obtain ⟨kind, rfl, forward⟩ := goes
        rw [triviaPieces_goes ran ⟨forward, within⟩]
        exact .piece answer.symm moved.symm forward (ih next kept (by omega) within)
      · have stays : found = none ∨ next.position ≤ cursor.position := by
          cases found with
          | none => exact Or.inl rfl
          | some kind => exact Or.inr (Nat.le_of_not_lt (fun forward => goes ⟨kind, rfl, forward⟩))
        rw [triviaPieces_stops ran (stays.imp_right (fun back forward => by omega))]
        exact .done (by rw [← answer, ← moved]; exact stays)

theorem flags_contains_iff {lexer : Lexer} {mode : LexMode} : (lexer.flags mode).contains true = true ↔
    ∃ kind, kind ∈ lexer.externalKinds ∧ lexer.admits mode kind = true := by
  unfold flags
  rw [List.contains_iff_mem, List.mem_map]
  simp only [Array.mem_toList_iff]

theorem external?_finds (arranged : lexer.Arranged) {text : Array UInt8} {place : Nat}
    {token : Option LexedToken} {next : Cursor}
    (done : lexer.external? mode (.start text place) = .ok (token, next)) :
    (token = none → ∀ index stop, ¬ lexer.FindsImmediate text mode place index stop) ∧
      ∀ found, token = some found → found.leading = [] ∧ ∃ index,
        lexer.FindsImmediate text mode place index found.stop ∧
          lexer.externalKinds[index]? = some found.kind := by
  unfold external? at done
  rw [arranged.externalModes_eq] at done
  by_cases some : (lexer.flags mode).contains true = true
  · rw [if_pos some] at done
    dsimp only at done
    rw [StateT.run] at done
    have admitted := flags_contains_iff.mp some
    cases ran : lexer.scanner.scanExternal (lexer.flags mode) (.start text place) with
    | mk answer moved =>
    rw [ran] at done
    have fails : (∀ index, answer = Option.some index → moved.position ≤ place) →
        ∀ index stop, ¬ lexer.FindsImmediate text mode place index stop := by
      intro stays index stop finds
      have same := finds.answer
      have there := finds.stop_eq
      have advances := finds.advances
      rw [ran] at same there
      have here := stays index same
      dsimp only at there
      omega
    cases answer with
    | none =>
        cases done
        exact ⟨fun _ => fails (fun _ none => by cases none), fun _ none => by cases none⟩
    | some index =>
        dsimp only at done
        split at done
        · rename_i advances
          obtain ⟨kind, at_, finished⟩ := bind_ok.mp done
          cases pure_ok.mp finished
          refine ⟨fun none => (by cases none), fun found same => ?_⟩
          cases same
          exact ⟨rfl, index, ⟨admitted, by rw [ran], by rw [ran]; rfl, advances⟩, requireAt_ok.mp at_⟩
        · rename_i stays
          cases done
          exact ⟨fun _ => fails (fun _ _ => Nat.le_of_not_lt stays), fun _ none => by cases none⟩
  · rw [if_neg some] at done
    cases done
    exact ⟨fun _ index stop finds => some (flags_contains_iff.mpr finds.admitted), fun _ none => by cases none⟩

theorem read_munches (lettered : lexer.table.Lettered) (arranged : lexer.Arranged)
    (through : lexer.scanner.ThroughCursor) {text : Array UInt8} {position : Nat} {token : LexedToken}
    (done : lexer.read text position mode = .ok token) :
    lexer.Munches text mode (min position text.size) token.kind token.leading token.stop := by
  unfold read at done
  obtain ⟨⟨immediate, cursor⟩, looked, done⟩ := bind_ok.mp done
  obtain ⟨missed, finds⟩ := external?_finds arranged looked
  cases immediate with
  | some external =>
      cases pure_ok.mp done
      obtain ⟨bare, index, found, at_⟩ := finds token rfl
      rw [bare]
      exact .immediate found at_
  | none =>
      obtain ⟨text_eq, _, stays, _⟩ := external?_keeps through looked
      have place : cursor.position = min position text.size := stays rfl
      change cursor.text = text at text_eq
      have inside : cursor.position ≤ text.size := by omega
      have pieces := triviaPieces_pieces through text _ cursor text_eq (Nat.lt_succ_self _) inside
      have covers := triviaPieces_covers lexer.scanner through text.size _ cursor (Nat.le_refl _) inside
      rw [place] at pieces
      rw [text_eq] at covers
      dsimp only at done
      generalize triviaPieces lexer.scanner text.size cursor = passed at done pieces covers
      obtain ⟨leading, after⟩ := passed
      dsimp only at done pieces covers
      split at done
      · rename_i beyond
        cases pure_ok.mp done
        exact .behind (missed rfl) pieces (.ended (Array.getElem?_eq_none_iff.mp beyond))
      · rename_i byte there
        obtain ⟨leads, stands⟩ := afterTrivia_stands lettered arranged through
          (by rw [Cursor.text_examine, Cursor.position_examine, covers.1]; exact there) done
        rw [Cursor.text_examine, Cursor.position_examine, covers.1] at stands
        rw [leads]
        exact .behind (missed rfl) pieces stands

theorem read_min (text : Array UInt8) (position : Nat) :
    lexer.read text position mode = lexer.read text (min position text.size) mode := by
  unfold read
  rw [Nat.min_assoc, Nat.min_self]

theorem next_min (text : Array UInt8) (position : Nat) :
    lexer.next text position mode = lexer.next text (min position text.size) mode := by
  unfold next
  rw [read_min]

end Munching

/-- Maximal munch in a mode, in a text whose size is an offset. The token at a place is the one that has to be
munched there and no other, and there is one choice at most between what the text could go on with. A scanner that
answers with positions in its lists, and asks for bytes only that have a place in memory, gives a token everywhere
in every mode of the table. -/
theorem next_munches_maximally {declaration : Declaration} {table : Table} {scanner : Scanner} {lexer : Lexer}
    (compiled : declaration.compile = .ok table) (through : scanner.ThroughCursor)
    (made : Lexer.make table scanner = .ok lexer) {text : Array UInt8} (short : text.size < offsetLimit)
    (position : Nat) (mode : LexMode) :
    (∀ token, lexer.next text position mode = .ok token →
      token.start = min position text.size ∧ token.lexMode = mode ∧
        ∀ kind leading stop, lexer.Munches text mode (min position text.size) kind leading stop ↔
          kind = token.kind ∧ leading = token.leading ∧ stop = token.stop) ∧
    (∀ place best other, place ≤ text.size → lexer.Chooses text mode place best →
      lexer.Chooses text mode place other → best = other) ∧
    (scanner.Answers → mode.index < table.lexModeCount → lexer.Addresses text position mode →
      ∃ token, lexer.next text position mode = .ok token) := by
  obtain ⟨sound, lettered, arranged⟩ := known_of_make compiled through made
  rw [← make_table made]
  have inside := Nat.min_le_right position text.size
  refine ⟨fun token done => ?_, fun place best other inside first second => ?_, fun answers known near => ?_⟩
  · rw [next_min] at done
    have fits := next_fits sound short inside done
    refine ⟨fits.start_eq, fits.mode_eq, fun kind leading stop => ?_⟩
    obtain ⟨token, found, _, rfl⟩ := (next_ok sound short inside).mp done
    have munches := read_munches lettered arranged sound.scanner found
    rw [Nat.min_assoc, Nat.min_self] at munches
    constructor
    · exact fun also => munches.unique lettered sound.scanner also
    · rintro ⟨rfl, rfl, rfl⟩
      exact munches
  · exact first.unique lettered sound.scanner inside second
  · obtain ⟨token, found⟩ := read_total (make_complete answers made) text position known
    have place := near token found
    rw [read_min] at found
    rw [next_min]
    exact ⟨_, (next_ok sound short inside).mpr ⟨token, found, place, rfl⟩⟩

/-! ### Words and keywords -/

/-! Conditions, which are the word `if` and a name. -/

namespace Conditions

def declaration : Declaration :=
  { Declaration.empty "conditions" with
    rules := #[("condition", .sequence [.literal "if", .symbol "name"])]
    tokens := #["name"]
    word := some "name" }

def scanner : Scanner :=
  ClassScanner.toScanner ⟨[⟨"name", ⟨[(97, 122)]⟩, ⟨[(97, 122)]⟩⟩], [], ⟨true, false, false, false⟩⟩

theorem compiles : declaration.compile.toOption.isSome = true := by decide +kernel

def table : Table := declaration.compile.toOption.get compiles

theorem makes : (Lexer.make table scanner).toOption.isSome = true := by decide +kernel

def lexer : Lexer := (Lexer.make table scanner).toOption.get makes

def text : Array UInt8 := #[105, 102, 32, 105, 102]

end Conditions

/-- The word `if` is a keyword where a condition begins and a name where a name is expected. -/
theorem next_munches_keywords :
    Conditions.text.size < offsetLimit ∧
      Conditions.lexer.next Conditions.text 0 ⟨1⟩ = .ok ⟨⟨3⟩, [], 0, 2, 3, ⟨1⟩⟩ ∧
      Conditions.lexer.Munches Conditions.text ⟨1⟩ 0 ⟨3⟩ [] 2 ∧
      Conditions.lexer.next Conditions.text 2 ⟨2⟩ = .ok ⟨⟨2⟩, [⟨.whitespace, 1⟩], 2, 5, 6, ⟨2⟩⟩ ∧
      Conditions.lexer.Munches Conditions.text ⟨2⟩ 2 ⟨2⟩ [⟨.whitespace, 1⟩] 5 := by
  have through : Conditions.scanner.ThroughCursor := ClassScanner.toScanner_throughCursor _
  have short : Conditions.text.size < offsetLimit := by decide
  have keyword : Conditions.lexer.next Conditions.text 0 ⟨1⟩ = .ok ⟨⟨3⟩, [], 0, 2, 3, ⟨1⟩⟩ := by
    simp only [Conditions.lexer, Lexer.make, ← List.toArray_range, List.map_toArray]
    exact eq_ok_of_toOption (by decide +kernel)
  have name : Conditions.lexer.next Conditions.text 2 ⟨2⟩ =
      .ok ⟨⟨2⟩, [⟨.whitespace, 1⟩], 2, 5, 6, ⟨2⟩⟩ := by
    simp only [Conditions.lexer, Lexer.make, ← List.toArray_range, List.map_toArray]
    exact eq_ok_of_toOption (by decide +kernel)
  have first := next_munches_maximally (eq_ok_get Conditions.compiles) through (eq_ok_get Conditions.makes)
    short 0 ⟨1⟩
  have second := next_munches_maximally (eq_ok_get Conditions.compiles) through (eq_ok_get Conditions.makes)
    short 2 ⟨2⟩
  exact ⟨short, keyword, ((first.1 _ keyword).2.2 _ _ _).mpr ⟨rfl, rfl, rfl⟩, name,
    ((second.1 _ name).2.2 _ _ _).mpr ⟨rfl, rfl, rfl⟩⟩

theorem scriptScanner_answers (script : List CursorCall) : (scriptScanner script).Answers where
  scan := fun _ _ none => by cases none
  scanExternal := fun _ _ index found => by
    cases found
    exact Nat.zero_lt_one

namespace Addressless

/-- Looks at the last byte that a place in memory could have, and takes the next one. -/
def scanner : Scanner := scriptScanner [.nth (sizeLimit - 1), .advance]

theorem compiles : (Language.compile FarSighted.declaration scanner).toOption.isSome = true := by decide +kernel

def language : Language := (Language.compile FarSighted.declaration scanner).toOption.get compiles

theorem reads : language.lexer.read #[97] 0 ⟨1⟩ = .ok ⟨⟨2⟩, [], 0, 1, sizeLimit, ⟨1⟩⟩ :=
  eq_ok_of_toOption (by decide +kernel)

end Addressless

/-- A scanner that looks for a byte beyond all places in memory takes the text `a` for its token, but there is no
answer. -/
theorem next_addressless :
    Addressless.scanner.ThroughCursor ∧ Addressless.scanner.Answers ∧
      Language.compile FarSighted.declaration Addressless.scanner = .ok Addressless.language ∧
      1 < Addressless.language.table.lexModeCount ∧
      Addressless.language.lexer.Munches #[97] ⟨1⟩ 0 ⟨2⟩ [] 1 ∧
      Addressless.language.lexer.next #[97] 0 ⟨1⟩ = .error .arithmeticOverflow := by
  have through : Addressless.scanner.ThroughCursor := scriptScanner_throughCursor _
  have compiled := eq_ok_get Addressless.compiles
  refine ⟨through, scriptScanner_answers _, compiled, by decide +kernel, ?_, ?_⟩
  · obtain ⟨table, tableCompiled, finished⟩ := bind_ok.mp compiled
    obtain ⟨lexer, made, finished⟩ := bind_ok.mp finished
    have same : Addressless.language.lexer = lexer := congrArg Language.lexer (pure_ok.mp finished).symm
    obtain ⟨sound, lettered, arranged⟩ := known_of_make tableCompiled through made
    have reads := Addressless.reads
    rw [same] at reads ⊢
    exact read_munches lettered arranged sound.scanner reads
  · unfold next
    rw [Addressless.reads, ok_bind]
    exact LexedToken.narrowed_far (Nat.le_refl sizeLimit)

end Lexer

end IncrementalParsing
