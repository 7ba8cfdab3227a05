import IncrementalParsing.Proofs.Grammar.Meaning
import IncrementalParsing.Proofs.Parsing.Accepted

/-!
The literals of a lexer. The lexer of a table asks its scanner once about every literal text: those that
the scanner takes for the word token are keywords and are looked up, the others are found by their first
byte. In the table of a declaration no text stands twice, and none is empty.
-/

namespace IncrementalParsing

namespace Utf8

theorem toList_loop (bytes : ByteArray) (index : Nat) (before : List UInt8) :
    ByteArray.toList.loop bytes index before = before.reverse ++ bytes.data.toList.drop index := by
  induction index, before using ByteArray.toList.loop.induct bytes with
  | case1 index before inside ih =>
      have more : index < bytes.data.toList.length := by simpa using inside
      have byte : bytes.get! index = bytes.data.toList[index] := by simp [ByteArray.get!, inside]
      rw [ByteArray.toList.loop, if_pos inside, ih, List.drop_eq_getElem_cons more, List.reverse_cons, byte,
        List.append_assoc, List.singleton_append]
  | case2 index before outside =>
      have ended : bytes.data.toList.length ≤ index := by simpa using outside
      rw [ByteArray.toList.loop, if_neg outside, List.drop_eq_nil_of_le ended, List.append_nil]

theorem toList_eq (bytes : ByteArray) : bytes.toList = bytes.data.toList := toList_loop bytes 0 []

theorem toUTF8_toList_inj {left right : String} (same : left.toUTF8.toList = right.toUTF8.toList) :
    left = right := by
  rw [toList_eq, toList_eq] at same
  exact String.toByteArray_inj.mp (ByteArray.ext (Array.toList_inj.mp same))

end Utf8

def Table.IsLiteral (table : Table) (bytes : List UInt8) (kind : KindId) : Prop :=
  ∃ text : String, (text, kind) ∈ table.lexical.literals ∧ text.toUTF8.toList = bytes

structure Table.Lettered (table : Table) : Prop where
  ne_nil : ∀ bytes kind, table.IsLiteral bytes kind → bytes ≠ []
  unique : ∀ bytes left right, table.IsLiteral bytes left → table.IsLiteral bytes right → left = right

namespace Declaration

variable {declaration : Declaration}

theorem emptyLiteralRule?_of_normalize {grammar : Grammar} (normalized : declaration.normalize = .ok grammar) :
    declaration.emptyLiteralRule? = none := by
  unfold normalize at normalized
  obtain ⟨_, _, normalized⟩ := bind_ok.mp normalized
  cases empty : declaration.emptyLiteralRule? with
  | none => rfl
  | some rule =>
      rw [empty] at normalized
      cases normalized

theorem mem_lexicalGrammar_literals {text : String} {kind : KindId} :
    (text, kind) ∈ declaration.lexicalGrammar.literals ↔
      ∃ place, declaration.literalTexts[place]? = some text ∧
        kind = .ofIndex (declaration.firstLiteral + place) := by
  change (text, kind) ∈ ((numbered declaration.firstLiteral declaration.literalTexts).map
    (fun entry => (entry.1, KindId.ofIndex entry.2))).toArray ↔ _
  rw [List.mem_toArray, List.mem_map]
  constructor
  · rintro ⟨⟨same, number⟩, member, equal⟩
    cases equal
    obtain ⟨above, here⟩ := mem_numbered.mp member
    exact ⟨number - declaration.firstLiteral, here, by rw [Nat.add_sub_cancel' above]⟩
  · rintro ⟨place, here, rfl⟩
    refine ⟨(text, declaration.firstLiteral + place), mem_numbered.mpr ⟨Nat.le_add_right _ _, ?_⟩, rfl⟩
    rw [Nat.add_sub_cancel_left]
    exact here

theorem lexicalGrammar_literals_unique {text : String} {left right : KindId}
    (first : (text, left) ∈ declaration.lexicalGrammar.literals)
    (second : (text, right) ∈ declaration.lexicalGrammar.literals) : left = right := by
  obtain ⟨place, here, rfl⟩ := mem_lexicalGrammar_literals.mp first
  obtain ⟨other, there, rfl⟩ := mem_lexicalGrammar_literals.mp second
  obtain ⟨inside, _⟩ := List.getElem?_eq_some_iff.mp here
  have same : place = other :=
    (List.getElem?_inj inside (nodup_eraseDups _)).mp (here.trans there.symm)
  rw [same]

theorem ne_empty_of_mem_literals (fine : declaration.emptyLiteralRule? = none) {text : String} {kind : KindId}
    (member : (text, kind) ∈ declaration.lexicalGrammar.literals) : text ≠ "" := by
  rintro rfl
  obtain ⟨place, here, _⟩ := mem_lexicalGrammar_literals.mp member
  have among := List.mem_eraseDups.mp (List.mem_of_getElem? here)
  obtain ⟨rule, stands, used⟩ := List.mem_flatMap.mp among
  have none := List.find?_eq_none.mp (Option.map_eq_none_iff.mp fine) rule stands
  exact none (List.contains_iff_mem.mpr used)

theorem compile_lexical {table : Table} (compiled : declaration.compile = .ok table) :
    table.lexical = declaration.lexicalGrammar ∧ declaration.emptyLiteralRule? = none := by
  unfold Declaration.compile at compiled
  obtain ⟨grammar, normalized, compiled⟩ := bind_ok.mp compiled
  obtain ⟨details⟩ := Lalr.compile_ok compiled
  have lexical : table.lexical = grammar.lexical := by rw [details.table_eq]
  obtain ⟨_, _, _, _, _, grammarEq⟩ := normalize_ok normalized
  exact ⟨lexical.trans (by rw [grammarEq]), emptyLiteralRule?_of_normalize normalized⟩

theorem compile_lettered {table : Table} (compiled : declaration.compile = .ok table) : table.Lettered := by
  obtain ⟨lexical, fine⟩ := compile_lexical compiled
  constructor
  · rintro bytes kind ⟨text, member, rfl⟩ empty
    rw [lexical] at member
    exact ne_empty_of_mem_literals fine member
      (Utf8.toUTF8_toList_inj (empty.trans (Utf8.toList_eq "".toUTF8).symm))
  · rintro bytes left right ⟨text, first, rfl⟩ ⟨other, second, same⟩
    rw [lexical] at first second
    rw [Utf8.toUTF8_toList_inj same] at second
    exact lexicalGrammar_literals_unique first second

end Declaration

namespace Lexer

def TakesForWord (lexer : Lexer) (bytes : List UInt8) : Prop :=
  ∃ index kind, (lexer.scanner.scan (.start bytes.toArray 0)).1 = some index ∧
    (lexer.scanner.scan (.start bytes.toArray 0)).2.position = bytes.length ∧
    lexer.tokenKinds[index]? = some kind ∧ lexer.table.lexical.word = some kind

def admits (lexer : Lexer) (mode : LexMode) (kind : KindId) : Bool :=
  lexer.table.lexModes[mode.index]?.any (fun terminals => terminals.contains kind)

def flags (lexer : Lexer) (mode : LexMode) : List Bool := lexer.externalKinds.toList.map (lexer.admits mode)

structure Arranged (lexer : Lexer) : Prop where
  mem_literals : ∀ (byte : UInt8) (bytes : List UInt8) (kind : KindId),
    (bytes, kind) ∈ lexer.literals[byte.toNat]?.getD [] ↔
      bytes.head? = some byte ∧ lexer.table.IsLiteral bytes kind ∧ ¬ lexer.TakesForWord bytes
  mem_keywords : ∀ (bytes : List UInt8) (kind : KindId),
    (bytes, kind) ∈ lexer.keywords ↔ lexer.table.IsLiteral bytes kind ∧ lexer.TakesForWord bytes
  externalModes_eq : ∀ mode : LexMode, (lexer.externalModes[mode.index]?).getD none =
    if (lexer.flags mode).contains true then some (lexer.flags mode) else none

theorem looksLikeWord_iff {lexer : Lexer} {bytes : List UInt8} {word : Bool}
    (looked : looksLikeWord lexer.table lexer.scanner lexer.tokenKinds bytes = .ok word) :
    word = true ↔ lexer.TakesForWord bytes := by
  unfold looksLikeWord at looked
  rw [StateT.run] at looked
  unfold TakesForWord
  generalize lexer.scanner.scan (.start bytes.toArray 0) = answer at looked ⊢
  obtain ⟨found, cursor⟩ := answer
  cases found with
  | none =>
      cases pure_ok.mp looked
      constructor
      · exact fun impossible => absurd impossible Bool.false_ne_true
      · rintro ⟨_, _, impossible, _⟩
        cases impossible
  | some index =>
      obtain ⟨kind, at_, decided⟩ := bind_ok.mp looked
      cases pure_ok.mp decided
      rw [requireAt_ok] at at_
      rw [Bool.and_eq_true, beq_iff_eq, beq_iff_eq]
      constructor
      · exact fun ⟨isWord, whole⟩ => ⟨index, kind, rfl, whole, at_, isWord⟩
      · rintro ⟨_, other, same, whole, there, isWord⟩
        cases Option.some.inj same
        cases at_.symm.trans there
        exact ⟨isWord, whole⟩

/-- What the lexer of a table keeps: its literals are those that are marked not to look like the word token,
in buckets, and its keywords are the others. -/
theorem make_ok {table : Table} {scanner : Scanner} {lexer : Lexer}
    (made : Lexer.make table scanner = .ok lexer) : lexer.table = table ∧ lexer.scanner = scanner ∧
      ∃ marked : List (List UInt8 × KindId × Bool),
        (∀ bytes kind word, (bytes, kind, word) ∈ marked ↔
          table.IsLiteral bytes kind ∧ (word = true ↔ lexer.TakesForWord bytes)) ∧
        (lexer.literals = (Array.range 256).map fun byte =>
          bucket ((marked.filter (fun entry => entry.2.2 == false)).map (fun entry => (entry.1, entry.2.1)))
            byte.toUInt8) ∧
        lexer.keywords = (marked.filter (fun entry => entry.2.2 == true)).map (fun entry => (entry.1, entry.2.1)) ∧
        lexer.externalModes = table.lexModes.map (fun terminals =>
          if (lexer.externalKinds.toList.map terminals.contains).contains true
            then some (lexer.externalKinds.toList.map terminals.contains) else none) := by
  unfold Lexer.make at made
  obtain ⟨tokenKinds, _, made⟩ := bind_ok.mp made
  obtain ⟨externalKinds, _, made⟩ := bind_ok.mp made
  dsimp only at made
  split at made
  · cases made
  · obtain ⟨marked, markedOk, made⟩ := bind_ok.mp made
    cases pure_ok.mp made
    refine ⟨rfl, rfl, marked, fun bytes kind word => ?_, rfl, rfl, rfl⟩
    obtain ⟨length, each⟩ := mapM_ok _ _ marked markedOk
    constructor
    · intro member
      obtain ⟨place, inside, here⟩ := List.mem_iff_getElem.mp member
      have placed : place < table.lexical.literals.toList.length := length ▸ inside
      obtain ⟨found, there, marks⟩ := each place _ (List.getElem?_eq_getElem placed)
      cases (here ▸ List.getElem?_eq_getElem inside).symm.trans there
      obtain ⟨isWord, looked, same⟩ := bind_ok.mp marks
      cases pure_ok.mp same
      exact ⟨⟨_, Array.mem_toList_iff.mp (List.getElem_mem placed), rfl⟩, looksLikeWord_iff (lift_ok.mp looked)⟩
    · rintro ⟨⟨text, member, rfl⟩, taken⟩
      obtain ⟨place, here⟩ := List.getElem?_of_mem (Array.mem_toList_iff.mpr member)
      obtain ⟨found, there, marks⟩ := each place _ here
      obtain ⟨isWord, looked, same⟩ := bind_ok.mp marks
      cases pure_ok.mp same
      have equal : word = isWord := Bool.eq_iff_iff.mpr (taken.trans (looksLikeWord_iff (lift_ok.mp looked)).symm)
      rw [equal]
      exact List.mem_of_getElem? there

theorem make_arranged {table : Table} {scanner : Scanner} {lexer : Lexer}
    (made : Lexer.make table scanner = .ok lexer) : lexer.Arranged := by
  obtain ⟨rfl, rfl, marked, marks, literals, keywords, modes⟩ := make_ok made
  have entries : ∀ bytes kind word, (bytes, kind) ∈
      (marked.filter (fun entry => entry.2.2 == word)).map (fun entry => (entry.1, entry.2.1)) ↔
        lexer.table.IsLiteral bytes kind ∧ (word = true ↔ lexer.TakesForWord bytes) := by
    intro bytes kind word
    rw [← marks, List.mem_map]
    constructor
    · rintro ⟨⟨_, _, other⟩, member, same⟩
      cases same
      obtain ⟨among, equal⟩ := List.mem_filter.mp member
      cases beq_iff_eq.mp equal
      exact among
    · exact fun member => ⟨_, List.mem_filter.mpr ⟨member, beq_self_eq_true word⟩, rfl⟩
  constructor
  · intro byte bytes kind
    have at_ : lexer.literals[byte.toNat]?.getD [] = bucket ((marked.filter (fun entry => entry.2.2 == false)).map
        (fun entry => (entry.1, entry.2.1))) byte := by
      rw [literals, Array.getElem?_map, Array.getElem?_range, if_pos byte.toNat_lt, Option.map_some,
        Option.getD_some, Nat.toUInt8_eq, UInt8.ofNat_toNat]
    rw [at_, mem_bucket, entries, and_comm]
    simp only [Bool.false_eq_true, false_iff]
  · intro bytes kind
    rw [keywords, entries]
    simp only [true_iff]
  · intro mode
    have flags : lexer.flags mode = lexer.externalKinds.toList.map (lexer.admits mode) := rfl
    unfold admits at flags
    rw [modes, Array.getElem?_map]
    cases known : lexer.table.lexModes[mode.index]? with
    | none =>
        rw [known] at flags
        have blank : (lexer.flags mode).contains true = false := by
          rw [flags]
          simp
        rw [blank]
        rfl
    | some terminals =>
        rw [known] at flags
        rw [flags]
        rfl

theorem known_of_make {declaration : Declaration} {table : Table} {scanner : Scanner} {lexer : Lexer}
    (compiled : declaration.compile = .ok table) (through : scanner.ThroughCursor)
    (made : Lexer.make table scanner = .ok lexer) : lexer.Sound ∧ lexer.table.Lettered ∧ lexer.Arranged := by
  have language : Language.compile declaration scanner = .ok ⟨lexer⟩ :=
    bind_ok.mpr ⟨table, compiled, bind_ok.mpr ⟨lexer, made, rfl⟩⟩
  have lettered := Declaration.compile_lettered compiled
  rw [← make_table made] at lettered
  exact ⟨(Language.compile_sound through language).lexer, lettered, make_arranged made⟩

end Lexer

end IncrementalParsing
