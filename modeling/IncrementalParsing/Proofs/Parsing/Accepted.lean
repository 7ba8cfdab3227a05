import IncrementalParsing.Proofs.Lalr.Modes
import IncrementalParsing.Proofs.Lexing.Token

/-!
Accepted languages. A declaration that compiles gives a table with a chart and a lexer whose kinds are
terminals of that table. What is proved about parsing starts from here.
-/

namespace IncrementalParsing

/-- The number of productions that 16 bits can tell apart. -/
def Table.Small (table : Table) : Prop := table.productions.size ≤ 65536

namespace Lexer

theorem mem_of_resolve {table : Table} {declared : Array KindId} {names : List String}
    {kinds : List KindId} (resolved : resolve table declared names = .ok kinds) {kind : KindId}
    (member : kind ∈ kinds) : kind ∈ declared := by
  unfold resolve at resolved
  obtain ⟨length, each⟩ := mapM_ok _ names kinds resolved
  obtain ⟨place, inside, at_⟩ := List.mem_iff_getElem.mp member
  obtain ⟨found, here, looked⟩ := each place (names.get ⟨place, length ▸ inside⟩)
    (List.getElem?_eq_getElem _)
  rw [List.getElem?_eq_getElem inside, at_] at here
  cases here
  split at looked
  · split at looked
    · rename_i known
      cases looked
      simpa using known
    · cases looked
  · cases looked

theorem mem_insertLiteral (literal other : List UInt8 × KindId) :
    ∀ literals, other ∈ insertLiteral literal literals ↔ other = literal ∨ other ∈ literals
  | [] => by simp [insertLiteral]
  | first :: rest => by
      unfold insertLiteral
      split
      · exact List.mem_cons
      · rw [List.mem_cons, mem_insertLiteral literal other rest, List.mem_cons]
        exact or_left_comm

theorem mem_bucket {literals : List (List UInt8 × KindId)} {byte : UInt8}
    {other : List UInt8 × KindId} :
    other ∈ bucket literals byte ↔ other ∈ literals ∧ other.1.head? = some byte := by
  have sorted : ∀ items : List (List UInt8 × KindId),
      other ∈ items.foldr insertLiteral [] ↔ other ∈ items := by
    intro items
    induction items with
    | nil => exact Iff.rfl
    | cons first rest ih => rw [List.foldr_cons, mem_insertLiteral, ih, List.mem_cons]
  unfold bucket
  rw [sorted, List.mem_filter, beq_iff_eq]

theorem make_resolves {table : Table} {scanner : Scanner} {lexer : Lexer}
    (made : Lexer.make table scanner = .ok lexer) : lexer.table = table ∧ lexer.scanner = scanner ∧
      resolve table table.lexical.tokens scanner.tokens = .ok lexer.tokenKinds.toList ∧
      resolve table table.lexical.externals scanner.externals = .ok lexer.externalKinds.toList := by
  unfold Lexer.make at made
  obtain ⟨_, tokensResolved, made⟩ := bind_ok.mp made
  obtain ⟨_, externalsResolved, made⟩ := bind_ok.mp made
  dsimp only at made
  split at made
  · cases made
  · obtain ⟨_, _, made⟩ := bind_ok.mp made
    cases pure_ok.mp made
    exact ⟨rfl, rfl, tokensResolved, externalsResolved⟩

theorem make_table {table : Table} {scanner : Scanner} {lexer : Lexer}
    (made : Lexer.make table scanner = .ok lexer) : lexer.table = table := (make_resolves made).1

theorem make_sound {table : Table} {scanner : Scanner} {lexer : Lexer}
    (through : scanner.ThroughCursor) (reserved : 2 ≤ table.terminalCount)
    (tokens : ∀ kind, kind ∈ table.lexical.tokens → table.IsLexical kind)
    (externals : ∀ kind, kind ∈ table.lexical.externals → table.IsLexical kind)
    (literals : ∀ text kind, (text, kind) ∈ table.lexical.literals → table.IsLexical kind)
    (made : Lexer.make table scanner = .ok lexer) : lexer.Sound := by
  unfold Lexer.make at made
  obtain ⟨tokenKinds, tokensResolved, made⟩ := bind_ok.mp made
  obtain ⟨externalKinds, externalsResolved, made⟩ := bind_ok.mp made
  dsimp only at made
  split at made
  · cases made
  · obtain ⟨marked, markedOk, made⟩ := bind_ok.mp made
    cases pure_ok.mp made
    obtain ⟨length, each⟩ := mapM_ok _ _ marked markedOk
    have lexicalOf : ∀ bytes kind word, (bytes, kind, word) ∈ marked → table.IsLexical kind := by
      intro bytes kind word member
      obtain ⟨place, inside, at_⟩ := List.mem_iff_getElem.mp member
      have placed : place < table.lexical.literals.toList.length := length ▸ inside
      obtain ⟨found, here, looked⟩ := each place _ (List.getElem?_eq_getElem placed)
      rw [List.getElem?_eq_getElem inside, at_] at here
      cases here
      obtain ⟨isWord, _, same⟩ := bind_ok.mp looked
      cases pure_ok.mp same
      exact literals _ _ (Array.mem_toList_iff.mp (List.getElem_mem placed))
    constructor
    · exact through
    · exact reserved
    · intro index kind found
      exact tokens kind (mem_of_resolve tokensResolved (List.mem_of_getElem? (by simpa using found)))
    · intro index kind found
      exact externals kind
        (mem_of_resolve externalsResolved (List.mem_of_getElem? (by simpa using found)))
    · intro byte bytes kind member
      dsimp only at member
      rw [Array.getElem?_map, Array.getElem?_range] at member
      split at member
      · obtain ⟨among, head⟩ := mem_bucket.mp member
        obtain ⟨⟨other, otherKind, word⟩, marks, same⟩ := List.mem_map.mp among
        cases same
        refine ⟨fun empty => ?_, lexicalOf _ _ _ (List.mem_filter.mp marks).1⟩
        subst empty
        cases head
      · cases member
    · intro bytes kind found
      obtain ⟨⟨other, otherKind, word⟩, marks, same⟩ := List.mem_map.mp (Lalr.mem_of_lookup found)
      cases same
      exact lexicalOf _ _ _ (List.mem_filter.mp marks).1

end Lexer

structure Language.Sound (language : Language) : Prop where
  lexer : language.lexer.Sound
  table : language.table.Numbered
  framed : language.table.Framed
  ends : language.table.EndsOnce
  chart : language.table.Small → ∃ items, language.table.Chart items

theorem Language.compile_ok {declaration : Declaration} {scanner : Scanner} {language : Language} :
    Language.compile declaration scanner = .ok language ↔
      declaration.compile = .ok language.table ∧ Lexer.make language.table scanner = .ok language.lexer := by
  unfold Language.compile
  constructor
  · intro compiled
    obtain ⟨table, tableCompiled, compiled⟩ := bind_ok.mp compiled
    obtain ⟨lexer, made, compiled⟩ := bind_ok.mp compiled
    cases pure_ok.mp compiled
    obtain rfl := Lexer.make_table made
    exact ⟨tableCompiled, made⟩
  · rintro ⟨tableCompiled, made⟩
    exact bind_ok.mpr ⟨_, tableCompiled, bind_ok.mpr ⟨_, made, rfl⟩⟩

theorem Language.compile_sound {declaration : Declaration} {scanner : Scanner} {language : Language}
    (through : scanner.ThroughCursor) (compiled : Language.compile declaration scanner = .ok language) :
    language.Sound := by
  obtain ⟨tableCompiled, made⟩ := compile_ok.mp compiled
  unfold Declaration.compile at tableCompiled
  obtain ⟨grammar, normalized, tableCompiled⟩ := bind_ok.mp tableCompiled
  have numbered := Declaration.normalize_numbered normalized
  obtain ⟨details⟩ := Lalr.compile_ok tableCompiled
  have lexicalEq : language.table.lexical = grammar.lexical := by rw [details.table_eq]
  have isLexical : ∀ kind : KindId, 2 ≤ kind.index ∧ kind.index < grammar.terminalCount →
      language.table.IsLexical kind := by
    intro kind bounds
    unfold Table.IsLexical
    rw [details.terminalCount_eq]
    exact bounds
  have sound := Lexer.make_sound through
    (details.terminalCount_eq ▸ numbered.reserved)
    (fun kind member => isLexical kind (numbered.tokens kind (lexicalEq ▸ member)))
    (fun kind member => isLexical kind (numbered.externals kind (lexicalEq ▸ member)))
    (fun text kind member => isLexical kind (numbered.literals text kind (lexicalEq ▸ member))) made
  refine ⟨sound, Lalr.compile_numbered numbered details, Lalr.compile_framed details,
    Lalr.compile_endsOnce numbered details, fun small => ⟨details.Items, ?_⟩⟩
  exact Lalr.compile_chart numbered details (details.productions_size ▸ small)

end IncrementalParsing
