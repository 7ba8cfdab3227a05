import IncrementalParsing.Parsing.Machine
import IncrementalParsing.Proofs.Outcome

/-!
Tokens in their widths. A token is read with the sizes of the text and is cut down to offsets of 32 bits
afterwards. Its trivia lie in front of it and it ends where it begins or later, so whatever ends below the
limit of offsets is left as it is, but for the extent of what was examined.
-/

namespace IncrementalParsing

namespace LexedToken

variable {token : LexedToken}

theorem le_triviaLength {piece : TriviaPiece} : ∀ {pieces : List TriviaPiece}, piece ∈ pieces →
    piece.length ≤ triviaLength pieces
  | first :: rest, member => by
      rw [triviaLength, List.map_cons, sumOf_cons]
      rcases List.mem_cons.mp member with rfl | later
      · exact Nat.le_add_right _ _
      · exact Nat.le_trans (le_triviaLength later) (Nat.le_add_left _ _)

theorem map_cut {pieces : List TriviaPiece} (short : triviaLength pieces < offsetLimit) :
    pieces.map (fun piece => { piece with length := piece.length % offsetLimit }) = pieces := by
  refine (List.map_congr_left fun piece member => ?_).trans (List.map_id pieces)
  rw [Nat.mod_eq_of_lt (Nat.lt_of_le_of_lt (le_triviaLength member) short)]
  rfl

theorem narrowed_eq (ordered : token.textStart ≤ token.stop) (short : token.stop < offsetLimit)
    (near : token.examinedEnd < sizeLimit) :
    token.narrowed = .ok { token with examinedEnd := token.examinedEnd % offsetLimit } := by
  have trivia : triviaLength token.leading < offsetLimit := by
    unfold textStart at ordered
    omega
  have start : token.start ≤ token.stop := Nat.le_trans (Nat.le_add_right _ _) ordered
  unfold narrowed
  rw [map_cut trivia, Nat.mod_eq_of_lt short]
  dsimp only
  rw [if_pos ⟨near, trivia⟩, if_pos start]

theorem narrowed_far (far : sizeLimit ≤ token.examinedEnd) : token.narrowed = .error .arithmeticOverflow := by
  unfold narrowed
  dsimp only
  rw [if_neg (fun within => Nat.not_lt.mpr far within.1)]

theorem cut_of_narrowed {cut : LexedToken} (done : token.narrowed = .ok cut) : cut.kind = token.kind ∧
    cut.leading = token.leading.map (fun piece => { piece with length := piece.length % offsetLimit }) := by
  unfold narrowed at done
  dsimp only at done
  split at done
  · split at done
    · cases done
      exact ⟨rfl, rfl⟩
    · cases done
  · cases done

theorem near_of_narrowed {cut : LexedToken} (done : token.narrowed = .ok cut) : token.examinedEnd < sizeLimit := by
  refine Nat.lt_of_not_le fun far => ?_
  rw [narrowed_far far] at done
  cases done

end LexedToken

namespace Lexer

variable {lexer : Lexer} {text : Array UInt8} {position : Nat} {mode : LexMode} {token : LexedToken}

theorem triviaPieces_position (scanner : Scanner) (limit : Nat) (cursor : Cursor) :
    (triviaPieces scanner limit cursor).2.position =
      cursor.position + triviaLength (triviaPieces scanner limit cursor).1 := by
  fun_induction triviaPieces scanner limit cursor with
  | case1 cursor kind next _ moved pieces last passed ih =>
      rw [passed] at ih
      simp only [triviaLength, List.map_cons, sumOf_cons] at ih ⊢
      omega
  | case2 => rfl
  | case3 => rfl

/-- The immediate token is read from where it was asked for, and without one the cursor goes back there. -/
theorem external?_ordered {cursor : Cursor} {answer : Option LexedToken × Cursor}
    (done : lexer.external? mode cursor = .ok answer) :
    (∀ token, answer.1 = some token → token.textStart ≤ token.stop) ∧
      (answer.1 = none → answer.2.position = cursor.position) := by
  unfold external? at done
  split at done
  · cases done
    exact ⟨fun _ none => (nomatch none), fun _ => rfl⟩
  · split at done
    · split at done
      · rename_i next _ advances
        obtain ⟨kind, _, finished⟩ := bind_ok.mp done
        cases pure_ok.mp finished
        refine ⟨fun token same => ?_, fun none => (nomatch none)⟩
        cases same
        exact Nat.le_of_lt advances
      · cases done
        exact ⟨fun _ none => (nomatch none), fun _ => rfl⟩
    · cases done
      exact ⟨fun _ none => (nomatch none), fun _ => rfl⟩

theorem read_ordered (done : lexer.read text position mode = .ok token) : token.textStart ≤ token.stop := by
  unfold read at done
  obtain ⟨⟨immediate, cursor⟩, looked, done⟩ := bind_ok.mp done
  have ordered := external?_ordered looked
  cases immediate with
  | some external =>
      cases pure_ok.mp done
      exact ordered.1 _ rfl
  | none =>
      have place : cursor.position = min position text.size := ordered.2 rfl
      have passes := triviaPieces_position lexer.scanner text.size cursor
      dsimp only at done
      generalize triviaPieces lexer.scanner text.size cursor = passed at done passes
      obtain ⟨leading, after⟩ := passed
      dsimp only at done passes
      rw [place] at passes
      split at done
      · cases pure_ok.mp done
        exact Nat.le_of_eq passes.symm
      · unfold afterTrivia at done
        obtain ⟨valid, _, done⟩ := bind_ok.mp done
        obtain ⟨choice, _, done⟩ := bind_ok.mp done
        cases pure_ok.mp done
        unfold Choice.token
        split
        · exact Nat.le_trans (Nat.le_of_eq passes.symm) (Nat.le_add_right _ _)
        · exact Nat.le_trans (Nat.le_of_eq passes.symm) (Nat.le_add_right _ _)

theorem stop_le_of_read (done : lexer.read text position mode = .ok token) :
    token.stop ≤ token.examinedEnd := by
  unfold read at done
  obtain ⟨⟨immediate, cursor⟩, looked, done⟩ := bind_ok.mp done
  cases immediate with
  | some external =>
      cases pure_ok.mp done
      unfold external? at looked
      split at looked
      · cases looked
      · rw [StateT.run] at looked
        split at looked
        · split at looked
          · obtain ⟨kind, _, finished⟩ := bind_ok.mp looked
            cases pure_ok.mp finished
            exact Nat.le_max_right _ _
          · cases looked
        · cases looked
  | none =>
      dsimp only at done
      split at done
      · cases pure_ok.mp done
        exact Nat.le_max_right _ _
      · unfold afterTrivia at done
        obtain ⟨valid, _, done⟩ := bind_ok.mp done
        obtain ⟨choice, _, done⟩ := bind_ok.mp done
        cases pure_ok.mp done
        unfold Choice.token
        split
        · exact Nat.le_max_right _ _
        · exact Nat.le_max_right _ _

/-- Every byte that is looked at for the token at a position has a place in memory, one past it included. -/
def Addresses (lexer : Lexer) (text : Array UInt8) (position : Nat) (mode : LexMode) : Prop :=
  ∀ token, lexer.read text position mode = .ok token → token.examinedEnd < sizeLimit

/-- The token at a position, if it ends below the limit of offsets and what was examined for it has a place in
memory. -/
theorem next_of_read (done : lexer.read text position mode = .ok token) (short : token.stop < offsetLimit)
    (near : token.examinedEnd < sizeLimit) :
    lexer.next text position mode = .ok { token with examinedEnd := token.examinedEnd % offsetLimit } :=
  bind_ok.mpr ⟨token, done, LexedToken.narrowed_eq (read_ordered done) short near⟩

end Lexer

/-- The parser takes a token as it was read, where it ends below the limit of offsets and what was examined for
it has a place in memory, but for the extent, which is cut down to 32 bits. -/
theorem Job.lex_ok {job : Job} {position : Nat} {mode : LexMode} {token : LexedToken} :
    job.lex position mode = .ok token ↔ ∃ read, job.language.lexer.read job.text position mode = .ok read ∧
      read.stop < offsetLimit ∧ read.examinedEnd < sizeLimit ∧
        token = { read with examinedEnd := read.examinedEnd % offsetLimit } := by
  constructor
  · intro lexed
    obtain ⟨read, found, lexed⟩ := bind_ok.mp lexed
    split at lexed
    · rename_i short
      have near := LexedToken.near_of_narrowed lexed
      rw [LexedToken.narrowed_eq (Lexer.read_ordered found) short near] at lexed
      exact ⟨read, found, short, near, (Except.ok.inj lexed).symm⟩
    · cases lexed
  · rintro ⟨read, found, short, near, rfl⟩
    refine bind_ok.mpr ⟨read, found, ?_⟩
    rw [if_pos short]
    exact LexedToken.narrowed_eq (Lexer.read_ordered found) short near

theorem Job.next_of_lex {job : Job} {position : Nat} {mode : LexMode} {token : LexedToken}
    (lexed : job.lex position mode = .ok token) : job.language.lexer.next job.text position mode = .ok token := by
  obtain ⟨read, found, short, near, rfl⟩ := Job.lex_ok.mp lexed
  exact Lexer.next_of_read found short near

end IncrementalParsing
