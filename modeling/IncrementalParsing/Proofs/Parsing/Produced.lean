import IncrementalParsing.Proofs.Lexing.ClassScanner
import IncrementalParsing.Proofs.Parsing.Invariant

/-!
Trees that parsers make. A tree is made by parsing a text, or by parsing the text of an edit again with
such a tree at hand. Its root covers its text, and its elements are sound for the table of every
language of the same identity.
-/

namespace IncrementalParsing

open Green

/-- A language that was accepted, together with the declaration and the scanner that it was made of. -/
structure Language.Accepted (language : Language) : Prop where
  compiled : ∃ declaration scanner, scanner.ThroughCursor ∧
    Language.compile declaration scanner = .ok language

theorem Language.Accepted.sound {language : Language} (accepted : language.Accepted) : language.Sound := by
  obtain ⟨declaration, scanner, through, compiled⟩ := accepted.compiled
  exact Language.compile_sound through compiled

/-- Trees that some parser has returned. -/
inductive ParsedTree.Produced : ParsedTree → Prop
  | parsed {parser : Parser} {limit : Nat} {text : Array UInt8} {tree : ParsedTree} :
      parser.language.Accepted → parser.parseWithin limit text = .ok tree → Produced tree
  | reparsed {parser : Parser} {limit : Nat} {old : ParsedTree} {edit : InputEdit} {text : Array UInt8}
      {tree : ParsedTree} : parser.language.Accepted → Produced old →
      parser.reparseWithin limit old edit text = .ok tree → Produced tree

namespace Parser

variable {parser : Parser} {limit : Nat} {text : Array UInt8} {tree : ParsedTree}

theorem runFrom_ok {machine : Machine} (done : parser.runFrom limit text machine = .ok tree) :
    ∃ root, Machine.run (parser.job limit text) limit machine = .ok root ∧ tree.root = root ∧
      tree.text = text ∧ tree.kinds = parser.language.table.kinds ∧
      tree.language = parser.language.id := by
  unfold runFrom at done
  obtain ⟨root, ran, done⟩ := bind_ok.mp done
  obtain ⟨made, isMade, done⟩ := bind_ok.mp done
  unfold Tree.make at isMade
  split at isMade
  · cases isMade
    cases pure_ok.mp done
    exact ⟨root, ran, rfl, rfl, rfl, rfl⟩
  · cases isMade

/-- Parsing again returns the old tree if nothing changed, and else what a run over the old tree
returns. -/
theorem reparseWithin_ok {old : ParsedTree} {edit : InputEdit}
    (done : parser.reparseWithin limit old edit text = .ok tree) :
    old.language = parser.language.id ∧ edit.validate old.text.size text.size = .ok () ∧
      ((Change.narrow edit old.text text).isEmpty = true ∧ tree = old ∨
        (Change.narrow edit old.text text).isEmpty = false ∧
        parser.runFrom limit text (.start
          (some (ReuseCursor.start old.root (Change.narrow edit old.text text))) old.serialBound) =
            .ok tree) := by
  unfold reparseWithin at done
  dsimp only at done
  split at done
  · obtain ⟨_, impossible, _⟩ := bind_ok.mp done
    exact absurd impossible refuse_ne_ok
  · rename_i compatible
    obtain ⟨_, valid, done⟩ := bind_ok.mp done
    refine ⟨Decidable.not_not.mp compatible, ?_, ?_⟩
    · cases checked : edit.validate old.text.size text.size with
      | ok _ => rfl
      | error failure =>
          rw [checked] at valid
          cases valid
    · split at done
      · rename_i unchanged
        cases pure_ok.mp done
        exact Or.inl ⟨unchanged, rfl⟩
      · rename_i changed
        exact Or.inr ⟨Bool.eq_false_iff.mpr changed, lift_ok.mp done⟩

theorem runFrom_isRoot {machine : Machine} (sound : parser.language.Sound)
    (fits : machine.Fits (parser.job limit text))
    (done : parser.runFrom limit text machine = .ok tree) :
    tree.root.IsRoot parser.language.table tree.text.size := by
  obtain ⟨root, ran, rootEq, textEq, _, _⟩ := runFrom_ok done
  rw [rootEq, textEq]
  exact Machine.run_fits (parser.job limit text) sound limit fits ran

end Parser

namespace Green

variable {left right : Table} (terminals : left.terminalCount = right.terminalCount)
  (kinds : left.kinds.size = right.kinds.size)

include terminals kinds

theorem Element.Sound.transfer {element : Element} (sound : element.Sound left) : element.Sound right := by
  refine sound.mono (fun other proper => ?_)
  unfold Element.Proper Table.isTerminal Table.HasKind at proper ⊢
  rw [terminals, kinds] at proper
  exact proper

theorem Node.IsRoot.transfer {size : Nat} {root : Node} (isRoot : root.IsRoot left size) :
    root.IsRoot right size := by
  obtain ⟨inner, last, shape, sound, ending⟩ := isRoot.children
  exact ⟨isRoot.made, ⟨inner, last, shape, fun child member => (sound child member).transfer terminals kinds,
    ending⟩, isRoot.length_eq⟩

end Green

theorem Language.Sound.same_counts {left right : Language} (leftSound : left.Sound)
    (rightSound : right.Sound) (same : left.id = right.id) :
    left.table.terminalCount = right.table.terminalCount ∧
      left.table.kinds.size = right.table.kinds.size :=
  leftSound.framed.same_counts rightSound.framed (congrArg LanguageId.fingerprint same)

/-- The root of a tree that a parser has made covers the text of the tree, for the table of every
language of the same identity. -/
theorem ParsedTree.Produced.isRoot {tree : ParsedTree} (produced : tree.Produced) :
    ∀ {language : Language}, language.Sound → tree.language = language.id →
      tree.root.IsRoot language.table tree.text.size := by
  induction produced with
  | @parsed parser limit text tree accepted done =>
      intro language sound same
      obtain ⟨_, _, _, _, _, identity⟩ := Parser.runFrom_ok done
      obtain ⟨terminals, kinds⟩ := accepted.sound.same_counts sound (identity.symm.trans same)
      have fits : (Machine.start none 0).Fits (parser.job limit text) :=
        Machine.start_fits 0 (fun _ none => by cases none)
      exact (Parser.runFrom_isRoot accepted.sound fits done).transfer terminals kinds
  | @reparsed parser limit old edit text tree accepted _ done ih =>
      intro language sound same
      obtain ⟨compatible, valid, unchanged | ⟨_, done⟩⟩ := Parser.reparseWithin_ok done
      · obtain ⟨_, rfl⟩ := unchanged
        exact ih sound same
      · obtain ⟨_, _, _, _, _, identity⟩ := Parser.runFrom_ok done
        obtain ⟨terminals, kinds⟩ := accepted.sound.same_counts sound (identity.symm.trans same)
        have cursorFits := ReuseCursor.start_fits (ih accepted.sound compatible)
          (Change.narrow_between valid)
        have fits : (Machine.start (some (ReuseCursor.start old.root (Change.narrow edit old.text text)))
            old.serialBound).Fits (parser.job limit text) :=
          Machine.start_fits _ (fun cursor same => by cases same; exact ⟨_, cursorFits⟩)
        exact (Parser.runFrom_isRoot accepted.sound fits done).transfer terminals kinds

theorem ParsedTree.Produced.exists_language {tree : ParsedTree} (produced : tree.Produced) :
    ∃ language : Language, language.Accepted ∧ tree.language = language.id ∧
      tree.kinds = language.table.kinds := by
  induction produced with
  | @parsed parser limit text tree accepted done =>
      obtain ⟨_, _, _, _, kinds, identity⟩ := Parser.runFrom_ok done
      exact ⟨parser.language, accepted, identity, kinds⟩
  | @reparsed parser limit old edit text tree accepted _ done ih =>
      obtain ⟨_, _, ⟨_, rfl⟩ | ⟨_, done⟩⟩ := Parser.reparseWithin_ok done
      · exact ih
      · obtain ⟨_, _, _, _, kinds, identity⟩ := Parser.runFrom_ok done
        exact ⟨parser.language, accepted, identity, kinds⟩

/-- How runs of a parser over a text begin: with nothing, or with a tree that was made before and a
valid edit of its text. -/
inductive Parser.Begins (parser : Parser) (text : Array UInt8) : Machine → Prop
  | fresh : Begins parser text (.start none 0)
  | again {old : ParsedTree} {edit : InputEdit} : old.Produced → old.language = parser.language.id →
      edit.validate old.text.size text.size = .ok () →
      Begins parser text
        (.start (some (ReuseCursor.start old.root (Change.narrow edit old.text text))) old.serialBound)

theorem Parser.Begins.fits {parser : Parser} {text : Array UInt8} {machine : Machine}
    (begins : parser.Begins text machine) (sound : parser.language.Sound) (limit : Nat) :
    machine.Fits (parser.job limit text) := by
  cases begins with
  | fresh => exact Machine.start_fits 0 (fun _ none => by cases none)
  | again produced compatible valid =>
      have cursorFits := ReuseCursor.start_fits (produced.isRoot sound compatible)
        (Change.narrow_between valid)
      exact Machine.start_fits _ (fun cursor same => by cases same; exact ⟨_, cursorFits⟩)

/-! ### Languages of literals -/

namespace Lexer

/-- The lexer of a table whose terminals are literals, none of which looks like a word. -/
def ofLiterals (table : Table) (scanner : Scanner) (literals : List (List UInt8 × KindId)) : Lexer where
  table
  scanner
  tokenKinds := #[]
  externalKinds := #[]
  literals := ((List.range 256).map (fun byte => bucket literals byte.toUInt8)).toArray
  keywords := []
  externalModes := table.lexModes.map (fun _ => none)

/-- A literal with its bytes, and whether it looks like the word token. -/
def markLiteral (table : Table) (scanner : Scanner) (literal : String × KindId) :
    Outcome (List UInt8 × KindId × Bool) := do
  let word ← (looksLikeWord table scanner #[] literal.1.toUTF8.toList : Except Fault Bool)
  return (literal.1.toUTF8.toList, literal.2, word)

theorem make_ofLiterals {table : Table} {scanner : Scanner} {literals : List (List UInt8 × KindId)}
    (tokens : table.lexical.tokens = #[]) (externals : table.lexical.externals = #[])
    (noTokens : scanner.tokens = []) (noExternals : scanner.externals = [])
    (marked : table.lexical.literals.toList.mapM (markLiteral table scanner) =
      .ok (literals.map (fun literal => (literal.1, literal.2, false)))) :
    make table scanner = .ok (ofLiterals table scanner literals) := by
  unfold make
  rw [tokens, externals, noTokens, noExternals]
  refine bind_ok.mpr ⟨[], rfl, bind_ok.mpr ⟨[], rfl, ?_⟩⟩
  refine bind_ok.mpr ⟨_, marked, ?_⟩
  have plain : ((literals.map (fun literal => (literal.1, literal.2, false))).filter
      (fun entry => entry.2.2 == false)).map (fun entry => (entry.1, entry.2.1)) = literals := by
    simp [List.filter_map, Function.comp_def]
  have words : ((literals.map (fun literal => (literal.1, literal.2, false))).filter
      (fun entry => entry.2.2 == true)).map (fun entry => (entry.1, entry.2.1)) = [] := by
    simp [List.filter_map, Function.comp_def]
  unfold ofLiterals
  dsimp only
  rw [← List.map_toArray, List.toArray_range, plain, words]
  rfl

end Lexer

/-! ### A small language -/

/-! Lists of pairs, with spaces between the tokens. -/

namespace Pairs

def declaration : Declaration :=
  { Declaration.empty "pairs" with
    rules := #[("list", .repeated (.symbol "pair")), ("pair", .sequence [.literal "a", .literal "b"])] }

def scanner : Scanner := ClassScanner.toScanner ⟨[], [], ⟨true, false, false, false⟩⟩

def table : Table where
  name := "pairs"
  version := 1
  kinds :=
    ⟨#[⟨"end", true, true, true⟩, ⟨"ERROR", true, true, true⟩, ⟨"a", false, true, true⟩,
      ⟨"b", false, true, true⟩, ⟨"list", true, true, false⟩, ⟨"pair", true, true, false⟩,
      ⟨"list_repeat1", true, false, false⟩], #[]⟩
  terminalCount := 4
  ruleCount := 2
  productions :=
    #[⟨⟨6⟩, [.nonterminal ⟨1⟩], [none], .repeatBase⟩,
      ⟨⟨6⟩, [.nonterminal ⟨2⟩, .nonterminal ⟨2⟩], [none, none], .repeatJoin⟩,
      ⟨⟨4⟩, [.nonterminal ⟨2⟩], [none], .plain⟩,
      ⟨⟨5⟩, [.terminal ⟨2⟩, .terminal ⟨3⟩], [none, none], .plain⟩]
  actions :=
    #[.error, .error, .shift ⟨4⟩, .error,
      .accept, .error, .error, .error,
      .reduce ⟨2⟩, .error, .shift ⟨4⟩, .error,
      .reduce ⟨0⟩, .error, .reduce ⟨0⟩, .error,
      .error, .error, .error, .shift ⟨6⟩,
      .reduce ⟨1⟩, .error, .reduce ⟨1⟩, .error,
      .reduce ⟨3⟩, .error, .reduce ⟨3⟩, .error]
  gotos :=
    #[some ⟨1⟩, some ⟨3⟩, some ⟨2⟩,
      none, none, none,
      none, some ⟨3⟩, some ⟨5⟩,
      none, none, none,
      none, none, none,
      none, some ⟨3⟩, some ⟨5⟩,
      none, none, none]
  stateModes := #[⟨1⟩, ⟨2⟩, ⟨3⟩, ⟨3⟩, ⟨4⟩, ⟨3⟩, ⟨3⟩]
  lexModes :=
    #[⟨1, 13, by decide⟩, ⟨1, 4, by decide⟩, ⟨1, 1, by decide⟩, ⟨1, 5, by decide⟩, ⟨1, 8, by decide⟩]
  lexical := ⟨#[("a", ⟨2⟩), ("b", ⟨3⟩)], #[], #[], none⟩
  conflicts := 0

theorem evaluates : declaration.compile.toOption = some table ∧
    (table.lexical.literals.toList.mapM (Lexer.markLiteral table scanner)).toOption =
      some [([97], ⟨2⟩, false), ([98], ⟨3⟩, false)] := by
  decide +kernel

theorem compile_table : declaration.compile = .ok table := eq_ok_of_toOption evaluates.1

def bucket (byte : Nat) : List (List UInt8 × KindId) :=
  Lexer.bucket [([97], ⟨2⟩), ([98], ⟨3⟩)] byte.toUInt8

def lexer : Lexer where
  table := table
  scanner := scanner
  tokenKinds := #[]
  externalKinds := #[]
  literals := ((List.range 256).map bucket).toArray
  keywords := []
  externalModes := table.lexModes.map (fun _ => none)

theorem make_eq : Lexer.make table scanner = .ok lexer :=
  @Lexer.make_ofLiterals table scanner [([97], ⟨2⟩), ([98], ⟨3⟩)] rfl rfl rfl rfl (eq_ok_of_toOption evaluates.2)

theorem compile_eq : Language.compile declaration scanner = .ok ⟨lexer⟩ :=
  bind_ok.mpr ⟨table, compile_table, bind_ok.mpr ⟨lexer, make_eq, rfl⟩⟩

theorem compiles : (Language.compile declaration scanner).toOption.isSome = true := by
  rw [compile_eq]
  rfl

def language : Language := (Language.compile declaration scanner).toOption.get compiles

theorem language_eq : language = ⟨lexer⟩ := by
  have same : Except.ok language = Except.ok (⟨lexer⟩ : Language) := (eq_ok_get compiles).symm.trans compile_eq
  exact Except.ok.inj same

theorem small : language.table.Small := by
  rw [language_eq]
  unfold Table.Small
  decide

theorem accepted : language.Accepted :=
  ⟨declaration, scanner, ClassScanner.toScanner_throughCursor _, eq_ok_get compiles⟩

def parser : Parser := .ofLanguage language

theorem parser_eq : parser = .ofLanguage ⟨lexer⟩ := congrArg Parser.ofLanguage language_eq

def text : Array UInt8 := #[97, 98, 32, 97, 98]

/-- The text `ab a ab`, in which the second pair is not finished. -/
def longer : Array UInt8 := #[97, 98, 32, 97, 32, 97, 98]

theorem parses_quickly : ((Parser.ofLanguage ⟨lexer⟩).parseWithin 100 text).toOption.isSome = true := by
  decide +kernel

theorem parses : (parser.parseWithin 100 text).toOption.isSome = true := by
  rw [parser_eq]
  exact parses_quickly

def tree : ParsedTree := (parser.parseWithin 100 text).toOption.get parses

theorem tree_eq :
    tree = ((Parser.ofLanguage ⟨lexer⟩).parseWithin 100 text).toOption.get parses_quickly := by
  simp only [tree, parser_eq]

theorem parse_eq : parser.parseWithin 100 text = .ok tree := eq_ok_get parses

theorem produced : tree.Produced := .parsed accepted parse_eq

theorem compatible : tree.language = parser.language.id := by
  obtain ⟨_, _, _, _, _, identity⟩ := Parser.runFrom_ok parse_eq
  exact identity

end Pairs

end IncrementalParsing
