import IncrementalParsing.Proofs.Parsing.Conforming

/-!
Parsers make trees that conform to the grammar. What is proved about runs carries over to trees that
were made by parsing again and again, since a tree is only taken up by languages of one identity, and
these agree in their productions and in what they hide.
-/

namespace IncrementalParsing

open Green

/-! ### Tables that agree -/

structure Table.Agrees (left right : Table) : Prop where
  productions : left.productions = right.productions
  terminals : left.terminalCount = right.terminalCount
  hidden : ∀ kind, left.isHidden kind = right.isHidden kind

namespace Table.Agrees

variable {left right : Table} (agrees : left.Agrees right)

include agrees

theorem symm : right.Agrees left :=
  ⟨agrees.productions.symm, agrees.terminals.symm, fun kind => (agrees.hidden kind).symm⟩

theorem small (small : left.Small) : right.Small := by
  unfold Table.Small at small ⊢
  rw [← agrees.productions]
  exact small

theorem labelled_eq (production : ProductionInfo) :
    production.labelled left = production.labelled right := by
  have kinds : left.symbolKind = right.symbolKind := by
    funext symbol
    cases symbol with
    | terminal kind => rfl
    | nonterminal id =>
        unfold Table.symbolKind
        rw [agrees.terminals]
  unfold ProductionInfo.labelled
  rw [kinds]

theorem unfolds {first last : List (Labelled KindId)} (unfolds : left.Unfolds first last) :
    right.Unfolds first last := by
  induction unfolds with
  | nil => exact .nil
  | keep seen _ ih =>
      rw [agrees.hidden] at seen
      unfold Table.isTerminal at seen
      rw [agrees.terminals] at seen
      exact .keep seen ih
  | expand hides known lhs _ _ innerIh ih =>
      rw [agrees.hidden] at hides
      rw [agrees.productions] at known
      rw [agrees.labelled_eq] at innerIh
      exact .expand hides known lhs innerIh ih

theorem conforms (element : Element) (conforms : element.Conforms left) : element.Conforms right := by
  cases element with
  | token leaf => exact trivial
  | node head children =>
      rcases conforms with error | derived
      · exact Or.inl error
      · obtain ⟨production, known, lhs, unfolds⟩ := derived.produced
        rw [agrees.productions] at known
        refine Or.inr ⟨⟨production, known, lhs, ?_⟩, ?_, derived.uniform⟩
        · rw [← agrees.labelled_eq]
          exact agrees.unfolds unfolds
        · intro rope
          rw [← agrees.hidden]
          exact derived.hidden rope

end Table.Agrees

theorem Language.Sound.agrees {left right : Language} (leftSound : left.Sound) (rightSound : right.Sound)
    (same : left.id = right.id) : left.table.Agrees right.table := by
  have print : left.table.fingerprint = right.table.fingerprint := congrArg LanguageId.fingerprint same
  refine ⟨congrArg Fingerprint.productions print, (leftSound.same_counts rightSound same).1, ?_⟩
  intro kind
  have entry := congrArg (fun print : Fingerprint => print.kinds[kind.index]?.map (·.2)) print
  simp only [Table.fingerprint, List.getElem?_map, Option.map_map, Array.getElem?_toList] at entry
  unfold Table.isHidden
  cases found : left.table.kinds.kinds[kind.index]? with
  | none =>
      rw [found, Option.map_none] at entry
      rw [Option.map_eq_none_iff.mp entry.symm]
  | some info =>
      rw [found, Option.map_some] at entry
      obtain ⟨other, foundToo, visible⟩ := Option.map_eq_some_iff.mp entry.symm
      rw [foundToo]
      exact congrArg (!·) visible.symm

/-! ### Accepted languages -/

namespace Language.Accepted

variable {language : Language} (accepted : language.Accepted)

include accepted

theorem compiled_table : ∃ declaration grammar, Declaration.normalize declaration = .ok grammar ∧
    Nonempty (Lalr.Compiled grammar language.table) := by
  obtain ⟨declaration, scanner, _, compiled⟩ := accepted.compiled
  have tableCompiled := (Language.compile_ok.mp compiled).1
  unfold Declaration.compile at tableCompiled
  obtain ⟨grammar, normalized, tableCompiled⟩ := bind_ok.mp tableCompiled
  exact ⟨declaration, grammar, normalized, Lalr.compile_ok tableCompiled⟩

theorem declared : language.table.Declared := by
  obtain ⟨_, _, normalized, ⟨compiled⟩⟩ := accepted.compiled_table
  exact Lalr.compile_declared normalized compiled

theorem acceptsStart : language.table.AcceptsStart := by
  obtain ⟨_, _, normalized, ⟨compiled⟩⟩ := accepted.compiled_table
  exact Lalr.compile_acceptsStart (Declaration.normalize_numbered normalized) compiled

theorem start_ne_accept {terminal : KindId} (isTerminal : language.table.isTerminal terminal = true) :
    language.table.action .start terminal ≠ .accept := by
  obtain ⟨_, _, normalized, ⟨compiled⟩⟩ := accepted.compiled_table
  exact Lalr.compile_start_ne_accept (Declaration.normalize_numbered normalized) compiled isTerminal

end Language.Accepted

/-! ### Trees -/

theorem Parser.runFrom_conforms {parser : Parser} {limit : Nat} {text : Array UInt8} {tree : ParsedTree}
    {machine : Machine} (accepted : parser.language.Accepted) (small : parser.language.table.Small)
    (fits : machine.Fits (parser.job limit text)) (conforms : machine.Conforms parser.language.table)
    (done : parser.runFrom limit text machine = .ok tree) :
    tree.root.element.Everywhere (Element.Conforms parser.language.table) := by
  obtain ⟨items, chart⟩ := accepted.sound.chart small
  obtain ⟨root, ran, rootEq, _⟩ := runFrom_ok done
  rw [rootEq]
  exact @Machine.run_conforms (parser.job limit text) items accepted.sound accepted.declared
    accepted.acceptsStart chart limit _ root fits conforms ran

/-- The elements of a tree that a parser has made conform to the grammar of every language of the same
identity. -/
theorem ParsedTree.Produced.everywhere {tree : ParsedTree} (produced : tree.Produced) :
    ∀ {language : Language}, language.Sound → language.table.Small → tree.language = language.id →
      tree.root.element.Everywhere (Element.Conforms language.table) := by
  induction produced with
  | @parsed parser limit text tree accepted done =>
      intro language sound small same
      obtain ⟨_, _, _, _, _, identity⟩ := Parser.runFrom_ok done
      have agrees := accepted.sound.agrees sound (identity.symm.trans same)
      have fits : (Machine.start none 0).Fits (parser.job limit text) :=
        Machine.start_fits 0 (fun _ none => by cases none)
      have conforms : (Machine.start none 0).Conforms parser.language.table :=
        Machine.start_conforms 0 (fun _ none => by cases none)
      exact (Parser.runFrom_conforms accepted (agrees.symm.small small) fits conforms done).mono agrees.conforms
  | @reparsed parser limit old edit text tree accepted oldProduced done ih =>
      intro language sound small same
      obtain ⟨compatible, valid, unchanged | ⟨_, done⟩⟩ := Parser.reparseWithin_ok done
      · obtain ⟨_, rfl⟩ := unchanged
        exact ih sound small same
      · obtain ⟨_, _, _, _, _, identity⟩ := Parser.runFrom_ok done
        have agrees := accepted.sound.agrees sound (identity.symm.trans same)
        have parserSmall := agrees.symm.small small
        have begins : parser.Begins text (.start
            (some (ReuseCursor.start old.root (Change.narrow edit old.text text))) old.serialBound) :=
          .again oldProduced compatible valid
        have conforms : (Machine.start
            (some (ReuseCursor.start old.root (Change.narrow edit old.text text))) old.serialBound).Conforms
              parser.language.table := by
          refine Machine.start_conforms _ (fun cursor same => ?_)
          cases same
          exact ReuseCursor.everywhere_start _ (ih accepted.sound parserSmall compatible)
        exact (Parser.runFrom_conforms accepted parserSmall (begins.fits accepted.sound limit) conforms
          done).mono agrees.conforms

/-- In every tree that parsers return, by parsing a text or by parsing again any number of times, every
node that is no error node comes from a production of its kind by expanding hidden nonterminals; these
are the rules with a hidden name and the helpers of repetitions. -/
theorem Parser.trees_conform {language : Language} (accepted : language.Accepted)
    (small : language.table.Small) :
    (∀ kind, language.table.isTerminal kind = false → language.table.HasKind kind →
      (language.table.isHidden kind = true ↔
        isHiddenName (language.table.kinds.name kind) = true ∨ language.table.isRepeat kind = true)) ∧
    (∀ production, production ∈ language.table.productions →
      (production.labelled language.table).map (·.element) =
        production.symbols.map language.table.symbolKind ∧
      (production.labelled language.table).map (·.field) = production.fields) ∧
    ∀ tree : ParsedTree, tree.Produced → tree.language = language.id → tree.Conforms language.table := by
  have declared := accepted.declared
  refine ⟨declared.hidden_iff, ?_, ?_⟩
  · intro production known
    refine map_zipWith_labelled _ _ ?_
    rw [List.length_map]
    exact declared.labels production known
  · intro tree produced same
    exact Tree.conforms_of_everywhere (produced.everywhere accepted.sound small same)

/-- The tree of `ab ab`, whose root comes from the list that is expanded to two pairs. -/
theorem Parser.trees_conform_pairs : Pairs.tree.Conforms Pairs.language.table ∧
    Pairs.tree.placedRoot.kind = Pairs.language.table.startKind ∧
    Pairs.tree.placedRoot.symbols.map (·.element) = [⟨5⟩, ⟨5⟩] := by
  refine ⟨(Parser.trees_conform Pairs.accepted Pairs.small).2.2 Pairs.tree Pairs.produced Pairs.compatible,
    ?_, ?_⟩
  · rw [Pairs.tree_eq, Pairs.language_eq]
    decide +kernel
  · rw [Pairs.tree_eq]
    decide +kernel

end IncrementalParsing
