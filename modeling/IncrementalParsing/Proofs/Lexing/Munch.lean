import IncrementalParsing.Proofs.Lexing.Literals
import IncrementalParsing.Proofs.Lexing.Oblivious
import IncrementalParsing.Proofs.Lexing.Total

/-!
Maximal munch in a mode. What the token at a place has to be is said here without cursors, buckets or a
best candidate so far: an immediate token that the mode admits comes first; behind the trivia, it is the
longest of the literals that the text goes on with and the token that the scanner finds, among those that
the mode admits if there are any. The lexer answers with that token and with no other.
-/

namespace IncrementalParsing

/-! ### What the token has to be -/

inductive Scanner.Pieces (scanner : Scanner) (text : Array UInt8) : Nat → List TriviaPiece → Nat → Prop
  | done {place : Nat} :
      ((scanner.trivia (.start text place)).1 = none ∨
        (scanner.trivia (.start text place)).2.position ≤ place) →
      Pieces scanner text place [] place
  | piece {place next stop : Nat} {kind : TriviaKind} {rest : List TriviaPiece} :
      (scanner.trivia (.start text place)).1 = some kind →
      (scanner.trivia (.start text place)).2.position = next → place < next →
      Pieces scanner text next rest stop → Pieces scanner text place (⟨kind, next - place⟩ :: rest) stop

structure Scanner.Finds (scanner : Scanner) (text : Array UInt8) (place index stop : Nat) : Prop where
  answer : (scanner.scan (.start text place)).1 = some index
  stop_eq : (scanner.scan (.start text place)).2.position = stop
  advances : place < stop

namespace Lexer

structure FindsImmediate (lexer : Lexer) (text : Array UInt8) (mode : LexMode) (place index stop : Nat) :
    Prop where
  admitted : ∃ kind, kind ∈ lexer.externalKinds ∧ lexer.admits mode kind = true
  answer : (lexer.scanner.scanExternal (lexer.flags mode) (.start text place)).1 = some index
  stop_eq : (lexer.scanner.scanExternal (lexer.flags mode) (.start text place)).2.position = stop
  advances : place < stop

structure IsKeyword (lexer : Lexer) (mode : LexMode) (kind : KindId) (bytes : List UInt8)
    (keyword : KindId) : Prop where
  word : lexer.table.lexical.word = some kind
  literal : lexer.table.IsLiteral bytes keyword
  taken : lexer.TakesForWord bytes
  allowed : mode = .error ∨ lexer.admits mode keyword = true

def bytesBetween (text : Array UInt8) (start stop : Nat) : List UInt8 := (text.extract start stop).toList

/-- What the text could go on with at a place: the literals that are not keywords, and what the scanner
finds, which may stand for a keyword. -/
inductive Offers (lexer : Lexer) (text : Array UInt8) (mode : LexMode) (place : Nat) : Candidate → Prop
  | literal {bytes : List UInt8} {kind : KindId} :
      lexer.table.IsLiteral bytes kind → ¬ lexer.TakesForWord bytes → bytes <+: text.toList.drop place →
      Offers lexer text mode place ⟨bytes.length, kind, true⟩
  | keyword {index stop : Nat} {kind keyword : KindId} :
      lexer.scanner.Finds text place index stop → lexer.tokenKinds[index]? = some kind →
      lexer.IsKeyword mode kind (bytesBetween text place stop) keyword →
      Offers lexer text mode place ⟨stop - place, keyword, true⟩
  | scanned {index stop : Nat} {kind : KindId} :
      lexer.scanner.Finds text place index stop → lexer.tokenKinds[index]? = some kind →
      (∀ keyword, ¬ lexer.IsKeyword mode kind (bytesBetween text place stop) keyword) →
      Offers lexer text mode place ⟨stop - place, kind, false⟩

/-- The longest of some candidates. A literal wins over a scanned token of its length. -/
structure Candidate.Wins (among : Candidate → Prop) (best : Candidate) : Prop where
  member : among best
  longest : ∀ other, among other → other.length ≤ best.length
  literal : ∀ other, among other → other.length = best.length → other.literal = true → best.literal = true

/-- What is chosen of the offers: the longest that the mode admits, or the longest of all if it admits
none. -/
inductive Chooses (lexer : Lexer) (text : Array UInt8) (mode : LexMode) (place : Nat) (best : Candidate) :
    Prop
  | admitted : Candidate.Wins (fun candidate => lexer.Offers text mode place candidate ∧
      lexer.admits mode candidate.kind = true) best → Chooses lexer text mode place best
  | fallback : (∀ candidate, lexer.Offers text mode place candidate → lexer.admits mode candidate.kind = false) →
      Candidate.Wins (lexer.Offers text mode place) best → Chooses lexer text mode place best

inductive Stands (lexer : Lexer) (text : Array UInt8) (mode : LexMode) (place : Nat) : KindId → Nat → Prop
  | ended : text.size ≤ place → Stands lexer text mode place .endOfInput place
  | unrecognised : place < text.size → (∀ candidate, ¬ lexer.Offers text mode place candidate) →
      Stands lexer text mode place .error (place + 1)
  | chosen {best : Candidate} : place < text.size → lexer.Chooses text mode place best →
      Stands lexer text mode place best.kind (place + best.length)

/-- The kind, the trivia in front and the end of the token from `start` on. -/
inductive Munches (lexer : Lexer) (text : Array UInt8) (mode : LexMode) (start : Nat) :
    KindId → List TriviaPiece → Nat → Prop
  | immediate {index stop : Nat} {kind : KindId} :
      lexer.FindsImmediate text mode start index stop → lexer.externalKinds[index]? = some kind →
      Munches lexer text mode start kind [] stop
  | behind {leading : List TriviaPiece} {place stop : Nat} {kind : KindId} :
      (∀ index stop, ¬ lexer.FindsImmediate text mode start index stop) →
      lexer.scanner.Pieces text start leading place → lexer.Stands text mode place kind stop →
      Munches lexer text mode start kind leading stop

end Lexer

/-! ### There is only one -/

section Scanners

variable {scanner : Scanner} {text : Array UInt8}

theorem Scanner.Pieces.unique {start stop : Nat} {pieces : List TriviaPiece}
    (found : scanner.Pieces text start pieces stop) :
    ∀ {other : List TriviaPiece} {last : Nat}, scanner.Pieces text start other last →
      other = pieces ∧ last = stop := by
  induction found with
  | done stands =>
      intro other last again
      cases again with
      | done => exact ⟨rfl, rfl⟩
      | piece answer here moved _ =>
          rcases stands with none | stays
          · cases none.symm.trans answer
          · omega
  | piece answer here moved _ ih =>
      intro other last again
      cases again with
      | done stands =>
          rcases stands with none | stays
          · cases none.symm.trans answer
          · omega
      | piece answerToo hereToo _ rest =>
          cases answer.symm.trans answerToo
          cases here.symm.trans hereToo
          obtain ⟨same, stop⟩ := ih rest
          exact ⟨by rw [same], stop⟩

theorem Scanner.Finds.unique {place index stop other last : Nat} (found : scanner.Finds text place index stop)
    (again : scanner.Finds text place other last) : other = index ∧ last = stop :=
  ⟨Option.some.inj (again.answer.symm.trans found.answer), again.stop_eq.symm.trans found.stop_eq⟩

end Scanners

namespace Lexer

section Unique

variable {lexer : Lexer} {text : Array UInt8} {mode : LexMode}

theorem FindsImmediate.unique {place index stop other last : Nat}
    (found : lexer.FindsImmediate text mode place index stop)
    (again : lexer.FindsImmediate text mode place other last) : other = index ∧ last = stop :=
  ⟨Option.some.inj (again.answer.symm.trans found.answer), again.stop_eq.symm.trans found.stop_eq⟩

theorem length_bytesBetween {start stop : Nat} (inside : stop ≤ text.size) :
    (bytesBetween text start stop).length = stop - start := by
  unfold bytesBetween
  rw [Array.length_toList, Array.size_extract, Nat.min_eq_left inside]

theorem bytesBetween_begins (start stop : Nat) : bytesBetween text start stop <+: text.toList.drop start := by
  unfold bytesBetween
  rw [Array.toList_extract]
  exact List.take_prefix _ _

theorem eq_of_prefixes {left right whole : List UInt8} (first : left <+: whole) (second : right <+: whole)
    (length : left.length = right.length) : left = right :=
  (List.prefix_of_prefix_length_le first second (Nat.le_of_eq length)).eq_of_length length

variable (lettered : lexer.table.Lettered) (through : lexer.scanner.ThroughCursor) {place : Nat}
  (inside : place ≤ text.size)

include through inside in
theorem stop_le_of_finds {index stop : Nat} (found : lexer.scanner.Finds text place index stop) :
    stop ≤ text.size := by
  rw [← found.stop_eq]
  exact through.scan.sound.within (.start text place) inside

include through inside in
/-- A literal that is no keyword is shorter or longer than a keyword that was scanned: the bytes of one
length are the same, and only those of the keyword are taken for the word. -/
theorem IsKeyword.length_ne {index stop : Nat} {kind keyword : KindId} {bytes : List UInt8}
    (found : lexer.scanner.Finds text place index stop)
    (isKeyword : lexer.IsKeyword mode kind (bytesBetween text place stop) keyword)
    (notWord : ¬ lexer.TakesForWord bytes) (begins : bytes <+: text.toList.drop place) :
    bytes.length ≠ stop - place := by
  intro length
  rw [← length_bytesBetween (stop_le_of_finds through inside found)] at length
  rw [eq_of_prefixes begins (bytesBetween_begins place stop) length] at notWord
  exact notWord isKeyword.taken

include lettered through inside

/-- Two offers of one length are the same if both are literals or both are scanned: bytes of one length
from one place are the same, and the scanner finds only one token there. -/
theorem Offers.unique {left right : Candidate} (first : lexer.Offers text mode place left)
    (second : lexer.Offers text mode place right) (length : left.length = right.length)
    (literal : left.literal = right.literal) : left = right := by
  cases first with
  | literal isLiteral notWord begins =>
      cases second with
      | literal otherLiteral _ otherBegins =>
          cases eq_of_prefixes begins otherBegins length
          cases lettered.unique _ _ _ isLiteral otherLiteral
          rfl
      | keyword found _ isKeyword =>
          exact absurd length (isKeyword.length_ne through inside found notWord begins)
      | scanned => cases literal
  | keyword found _ isKeyword =>
      cases second with
      | literal _ notWord begins =>
          exact absurd length.symm (isKeyword.length_ne through inside found notWord begins)
      | keyword again _ isKeywordToo =>
          obtain ⟨rfl, rfl⟩ := found.unique again
          cases lettered.unique _ _ _ isKeyword.literal isKeywordToo.literal
          rfl
      | scanned => cases literal
  | scanned found at_ =>
      cases second with
      | literal => cases literal
      | keyword => cases literal
      | scanned again atToo =>
          obtain ⟨rfl, rfl⟩ := found.unique again
          cases at_.symm.trans atToo
          rfl

omit lettered through inside in
theorem Candidate.Wins.alike {among : Candidate → Prop} {left right : Candidate} (first : Wins among left)
    (second : Wins among right) : left.length = right.length ∧ left.literal = right.literal := by
  have length : left.length = right.length :=
    Nat.le_antisymm (second.longest left first.member) (first.longest right second.member)
  refine ⟨length, Bool.eq_iff_iff.mpr ⟨fun literal => ?_, fun literal => ?_⟩⟩
  · exact second.literal left first.member length literal
  · exact first.literal right second.member length.symm literal

theorem Chooses.unique {left right : Candidate} (first : lexer.Chooses text mode place left)
    (second : lexer.Chooses text mode place right) : left = right := by
  cases first with
  | admitted wins =>
      cases second with
      | admitted winsToo =>
          obtain ⟨length, literal⟩ := wins.alike winsToo
          exact wins.member.1.unique lettered through inside winsToo.member.1 length literal
      | fallback none _ => exact absurd (wins.member.2.symm.trans (none _ wins.member.1)) (by decide)
  | fallback none wins =>
      cases second with
      | admitted winsToo => exact absurd (winsToo.member.2.symm.trans (none _ winsToo.member.1)) (by decide)
      | fallback _ winsToo =>
          obtain ⟨length, literal⟩ := wins.alike winsToo
          exact wins.member.unique lettered through inside winsToo.member length literal

omit lettered through inside in
theorem Chooses.offers {best : Candidate} (chooses : lexer.Chooses text mode place best) :
    lexer.Offers text mode place best := by
  cases chooses with
  | admitted wins => exact wins.member.1
  | fallback _ wins => exact wins.member

omit inside in
theorem Stands.unique {kind other : KindId} {stop last : Nat} (first : lexer.Stands text mode place kind stop)
    (second : lexer.Stands text mode place other last) : other = kind ∧ last = stop := by
  cases first with
  | ended beyond =>
      cases second with
      | ended => exact ⟨rfl, rfl⟩
      | unrecognised more => omega
      | chosen more => omega
  | unrecognised more nothing =>
      cases second with
      | ended beyond => omega
      | unrecognised => exact ⟨rfl, rfl⟩
      | chosen _ chooses => exact absurd chooses.offers (nothing _)
  | chosen more chooses =>
      cases second with
      | ended beyond => omega
      | unrecognised _ nothing => exact absurd chooses.offers (nothing _)
      | chosen _ choosesToo =>
          cases chooses.unique lettered through (Nat.le_of_lt more) choosesToo
          exact ⟨rfl, rfl⟩

omit inside in
theorem Munches.unique {kind other : KindId} {leading pieces : List TriviaPiece} {stop last : Nat}
    (first : lexer.Munches text mode place kind leading stop)
    (second : lexer.Munches text mode place other pieces last) : other = kind ∧ pieces = leading ∧ last = stop := by
  cases first with
  | immediate found at_ =>
      cases second with
      | immediate again atToo =>
          obtain ⟨rfl, rfl⟩ := found.unique again
          cases at_.symm.trans atToo
          exact ⟨rfl, rfl, rfl⟩
      | behind missed => exact absurd found (missed _ _)
  | behind missed passed stands =>
      cases second with
      | immediate again => exact absurd again (missed _ _)
      | behind _ passedToo standsToo =>
          obtain ⟨rfl, rfl⟩ := passed.unique passedToo
          obtain ⟨rfl, rfl⟩ := stands.unique lettered through standsToo
          exact ⟨rfl, rfl, rfl⟩

end Unique

end Lexer

end IncrementalParsing
