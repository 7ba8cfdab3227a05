import IncrementalParsing.Proofs.Lexing.MaximalMunch
import IncrementalParsing.Proofs.Parsing.Produced

/-!
Trivia in front of a token. An immediate token has none, and in front of any other token the scanner finds
the same trivia in every mode. Immediate tokens have kinds of their own, so tokens of one kind that are read
at one place have the same trivia in front of them, whatever the modes in which they are read.
-/

namespace IncrementalParsing

/-- Immediate tokens are neither literals nor other tokens of the scanner, nor reserved. -/
structure Table.ExternalsApart (table : Table) : Prop where
  reserved : ∀ kind, kind ∈ table.lexical.externals → 2 ≤ kind.index
  tokens : ∀ kind, kind ∈ table.lexical.externals → kind ∉ table.lexical.tokens
  literals : ∀ kind, kind ∈ table.lexical.externals → ∀ text, (text, kind) ∉ table.lexical.literals

namespace Declaration

variable {declaration : Declaration}

theorem externals_between (fits : declaration.names.terminalCount ≤ symbolLimit) {kind : KindId}
    (member : kind ∈ declaration.lexicalGrammar.externals) :
    2 + declaration.tokens.size ≤ kind.index ∧
      kind.index < 2 + declaration.tokens.size + declaration.externals.size := by
  simp only [lexicalGrammar, Array.mem_map, Array.mem_range] at member
  obtain ⟨index, small, rfl⟩ := member
  have limit : symbolLimit < 65536 := by decide
  simp only [names] at fits
  rw [KindId.index_ofIndex (by omega)]
  simp only [reservedKinds, List.size_toArray, List.length_cons, List.length_nil] at fits ⊢
  omega

theorem tokens_below (fits : declaration.names.terminalCount ≤ symbolLimit) {kind : KindId}
    (member : kind ∈ declaration.lexicalGrammar.tokens) : kind.index < 2 + declaration.tokens.size := by
  simp only [lexicalGrammar, Array.mem_map, Array.mem_range] at member
  obtain ⟨index, small, rfl⟩ := member
  have limit : symbolLimit < 65536 := by decide
  simp only [names] at fits
  rw [KindId.index_ofIndex (by omega)]
  simp only [reservedKinds, List.size_toArray, List.length_cons, List.length_nil] at fits ⊢
  omega

theorem literals_above (fits : declaration.names.terminalCount ≤ symbolLimit) {text : String} {kind : KindId}
    (member : (text, kind) ∈ declaration.lexicalGrammar.literals) :
    2 + declaration.tokens.size + declaration.externals.size ≤ kind.index := by
  simp only [lexicalGrammar, List.mem_toArray, List.mem_map] at member
  obtain ⟨⟨name, number⟩, among, same⟩ := member
  cases same
  obtain ⟨above, below⟩ := numbered_bounds among
  have limit : symbolLimit < 65536 := by decide
  simp only [names] at fits
  have length : ∀ first, (numbered first declaration.literalTexts).length = declaration.literalTexts.length :=
    fun first => by simp [numbered]
  rw [length] at fits
  rw [KindId.index_ofIndex (by omega)]
  simp only [reservedKinds, List.size_toArray, List.length_cons, List.length_nil] at above
  omega

theorem compile_externalsApart {table : Table} (compiled : declaration.compile = .ok table) :
    table.ExternalsApart := by
  unfold compile at compiled
  obtain ⟨grammar, normalized, compiled⟩ := bind_ok.mp compiled
  obtain ⟨details⟩ := Lalr.compile_ok compiled
  have numbered := normalize_numbered normalized
  obtain ⟨_, final, _, _, _, rfl⟩ := normalize_ok normalized
  have fits : declaration.names.terminalCount ≤ symbolLimit := by
    have rules := numbered.rules_le
    have kinds := numbered.kinds_le
    dsimp only at rules kinds
    omega
  have lexical : table.lexical = declaration.lexicalGrammar := by rw [details.table_eq]
  constructor
  · intro kind member
    rw [lexical] at member
    have between := externals_between fits member
    omega
  · intro kind member other
    rw [lexical] at member other
    have between := externals_between fits member
    have below := tokens_below fits other
    omega
  · intro kind member text other
    rw [lexical] at member other
    have between := externals_between fits member
    have above := literals_above fits other
    omega

end Declaration

namespace Lexer

variable {lexer : Lexer}

structure Resolved (lexer : Lexer) : Prop where
  tokens : ∀ (index : Nat) (kind : KindId), lexer.tokenKinds[index]? = some kind → kind ∈ lexer.table.lexical.tokens
  externals : ∀ (index : Nat) (kind : KindId), lexer.externalKinds[index]? = some kind →
    kind ∈ lexer.table.lexical.externals

theorem make_resolved {table : Table} {scanner : Scanner} (made : Lexer.make table scanner = .ok lexer) :
    lexer.Resolved := by
  obtain ⟨rfl, _, tokens, externals⟩ := make_resolves made
  exact ⟨fun index kind found => mem_of_resolve tokens (List.mem_of_getElem? (by simpa using found)),
    fun index kind found => mem_of_resolve externals (List.mem_of_getElem? (by simpa using found))⟩

theorem Stands.not_external (apart : lexer.table.ExternalsApart) (resolved : lexer.Resolved) {text : Array UInt8}
    {mode : LexMode} {place stop : Nat} {kind : KindId} (stands : lexer.Stands text mode place kind stop) :
    kind ∉ lexer.table.lexical.externals := by
  intro external
  cases stands with
  | ended => exact absurd (apart.reserved _ external) (by decide)
  | unrecognised => exact absurd (apart.reserved _ external) (by decide)
  | chosen _ chooses =>
      cases chooses.offers with
      | literal isLiteral _ _ =>
          obtain ⟨name, member, _⟩ := isLiteral
          exact apart.literals _ external name member
      | keyword _ _ isKeyword =>
          obtain ⟨name, member, _⟩ := isKeyword.literal
          exact apart.literals _ external name member
      | scanned _ found _ => exact apart.tokens _ external (resolved.tokens _ _ found)

theorem Munches.leading_eq (apart : lexer.table.ExternalsApart) (resolved : lexer.Resolved) {text : Array UInt8}
    {mode other : LexMode} {start stop last : Nat} {kind : KindId} {leading trivia : List TriviaPiece}
    (munches : lexer.Munches text mode start kind leading stop)
    (munchesToo : lexer.Munches text other start kind trivia last) : trivia = leading := by
  cases munches with
  | immediate _ isExternal =>
      cases munchesToo with
      | immediate _ _ => rfl
      | behind _ _ stands => exact absurd (resolved.externals _ _ isExternal) (stands.not_external apart resolved)
  | behind _ pieces stands =>
      cases munchesToo with
      | immediate _ isExternal => exact absurd (resolved.externals _ _ isExternal) (stands.not_external apart resolved)
      | behind _ piecesToo _ => exact (pieces.unique piecesToo).1

end Lexer

theorem Language.Accepted.leading_eq {language : Language} (accepted : language.Accepted) {text : Array UInt8}
    {position : Nat} {mode other : LexMode} {token second : LexedToken}
    (lexed : language.lexer.next text position mode = .ok token)
    (lexedToo : language.lexer.next text position other = .ok second) (same : token.kind = second.kind) :
    token.leading = second.leading := by
  obtain ⟨declaration, scanner, through, compiled⟩ := accepted
  obtain ⟨tableCompiled, made⟩ := Language.compile_ok.mp compiled
  have apart := Declaration.compile_externalsApart tableCompiled
  obtain ⟨sound, lettered, arranged⟩ := Lexer.known_of_make tableCompiled through made
  obtain ⟨read, found, cut⟩ := bind_ok.mp lexed
  obtain ⟨readToo, foundToo, cutToo⟩ := bind_ok.mp lexedToo
  obtain ⟨kind, leading⟩ := LexedToken.cut_of_narrowed cut
  obtain ⟨kindToo, leadingToo⟩ := LexedToken.cut_of_narrowed cutToo
  have munches := Lexer.read_munches lettered arranged sound.scanner found
  have munchesToo := Lexer.read_munches lettered arranged sound.scanner foundToo
  rw [← kindToo, ← same, kind] at munchesToo
  rw [leading, leadingToo,
    Lexer.Munches.leading_eq apart (Lexer.make_resolved made) munches munchesToo]

end IncrementalParsing
