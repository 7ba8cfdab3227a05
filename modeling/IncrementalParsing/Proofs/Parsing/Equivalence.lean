import IncrementalParsing.Proofs.Parsing.Limits
import IncrementalParsing.Proofs.Parsing.Narrowing
import IncrementalParsing.Proofs.Parsing.Rebuilding
import IncrementalParsing.Proofs.Parsing.Rejoining
import IncrementalParsing.Proofs.Parsing.Reported

/-!
Parsing again and parsing from the beginning. Over a whole run a machine with an old tree keeps in step with one
without, so they come to roots that look alike. The trees that one gets from another by edits, however many, recall
their texts, and so each of them has the dump that parsing its text has.
-/

namespace IncrementalParsing

open Green

/-! ### Runs -/

namespace Machine

theorem Reaches.run_le {job : Job} {first machine : Machine} (reached : Reaches job first machine) {fuel : Nat}
    {root : Node} (done : Machine.run job fuel first = .ok root) :
    ∃ rest, rest ≤ fuel ∧ Machine.run job rest machine = .ok root := by
  induction reached with
  | refl => exact ⟨fuel, Nat.le_refl fuel, done⟩
  | step _ stepped ih =>
      obtain ⟨rest, le, done⟩ := ih
      cases rest with
      | zero => cases done
      | succ rest =>
          unfold Machine.run at done
          rw [stepped] at done
          exact ⟨rest, Nat.le_of_succ_le le, done⟩

theorem Reaches.run_back {job : Job} {first machine : Machine} (reached : Reaches job first machine) {root : Node} :
    ∀ {fuel : Nat}, Machine.run job fuel machine = .ok root → ∃ more, Machine.run job more first = .ok root := by
  induction reached with
  | refl => exact fun done => ⟨_, done⟩
  | step _ stepped ih =>
      intro fuel done
      refine @ih (fuel + 1) ?_
      unfold Machine.run
      rw [stepped]
      exact done

/-- Where a machine without an old tree comes to a root, one with an old tree that matches it comes to one that looks
like it. -/
theorem InStep.run {prior job : Job} {root : Node} {change : Change} (revises : Revises prior job root change)
    {final : Node} (fuel : Nat) : ∀ {aided plain : Machine}, InStep prior job root change aided plain →
    Machine.run job fuel plain = .ok final →
    ∃ steps other, Machine.run job steps aided = .ok other ∧ final.LooksLike other := by
  induction fuel using Nat.strong_induction_on with
  | _ fuel fewer =>
      intro aided
      induction rankIs : aided.rank using Nat.strong_induction_on generalizing aided with
      | _ rank lower =>
          intro plain inStep done
          cases fuel with
          | zero => cases done
          | succ fuel =>
              have ran := done
              unfold Machine.run at ran
              obtain ⟨answer, stepped, ran⟩ := bind_ok.mp ran
              cases inStep.step revises stepped with
              | ends doneToo looks =>
                  cases pure_ok.mp ran
                  refine ⟨1, _, ?_, looks⟩
                  unfold Machine.run
                  rw [doneToo]
                  rfl
              | moves steppedToo matching _ =>
                  obtain ⟨steps, other, doneToo, looks⟩ := fewer fuel (Nat.lt_succ_self fuel) matching ran
                  obtain ⟨more, doneToo⟩ := (Reaches.step .refl steppedToo).run_back doneToo
                  exact ⟨more, other, doneToo, looks⟩
              | pushes pushes settles reached matching =>
                  obtain ⟨rest, le, rests⟩ := reached.run_le ran
                  obtain ⟨steps, other, doneToo, looks⟩ := fewer rest (Nat.lt_succ_of_le le) matching rests
                  obtain ⟨more, doneToo⟩ := (settles.reaches.head pushes.step).run_back doneToo
                  exact ⟨more, other, doneToo, looks⟩
              | closer steppedToo matching smaller =>
                  obtain ⟨steps, other, doneToo, looks⟩ := lower _ (rankIs ▸ smaller) rfl matching done
                  refine ⟨steps + 1, other, ?_, looks⟩
                  unfold Machine.run
                  rw [steppedToo]
                  exact doneToo

end Machine

/-! ### Edits -/

/-- An edit that leads from one text to another: it comes from the replacement of a range, or it is valid and what
it leaves alone is the same in both texts, or it replaces the whole text. -/
inductive InputEdit.Leads : InputEdit → Array UInt8 → Array UInt8 → Prop
  | replaced {old new insert : Array UInt8} {start oldEnd : Nat} {edit : InputEdit} :
      InputEdit.replace old start oldEnd insert = .ok (edit, new) → Leads edit old new
  | described {old new : Array UInt8} {edit : InputEdit} :
      edit.validate old.size new.size = .ok () → edit.Describes old new → Leads edit old new
  | whole (old new : Array UInt8) : Leads (Parser.wholeEdit old new) old new

theorem InputEdit.Leads.valid {old new : Array UInt8} {edit : InputEdit} (leads : edit.Leads old new)
    (small : new.size < offsetLimit) : edit.validate old.size new.size = .ok () ∧ edit.Describes old new := by
  cases leads with
  | replaced done =>
      obtain ⟨describes, valid⟩ := InputEdit.replace_describes done
      exact ⟨valid small, describes⟩
  | described valid describes => exact ⟨valid, describes⟩
  | whole =>
      refine ⟨InputEdit.validate_of_sizes (Nat.zero_le _) (Nat.zero_le _) (Nat.le_refl _) ?_ small,
        fun index below => absurd below (Nat.not_lt_zero index), fun index => ?_⟩
      · change old.size - old.size + new.size = new.size
        omega
      · change (old[old.size + index]? : Option UInt8) = new[new.size + index]?
        rw [Array.getElem?_eq_none (Nat.le_add_right _ _), Array.getElem?_eq_none (Nat.le_add_right _ _)]

/-! ### Trees of one parser -/

/-- The trees that a parser makes of texts from their beginning, and of the trees that it has made by edits. -/
inductive Parser.Yields (parser : Parser) : ParsedTree → Prop
  | parsed {limit : Nat} {text : Array UInt8} {tree : ParsedTree} : parser.Measures text →
      parser.parseWithin limit text = .ok tree → Yields parser tree
  | reparsed {limit : Nat} {old tree : ParsedTree} {edit : InputEdit} {text : Array UInt8} : Yields parser old →
      parser.Measures text → edit.Leads old.text text → parser.reparseWithin limit old edit text = .ok tree →
      Yields parser tree

namespace Parser.Yields

variable {parser : Parser} {tree : ParsedTree}

theorem produced (accepted : parser.language.Accepted) (yields : parser.Yields tree) : tree.Produced := by
  induction yields with
  | parsed _ done => exact .parsed accepted done
  | reparsed _ _ _ done ih => exact .reparsed accepted ih done

theorem measures (yields : parser.Yields tree) : parser.Measures tree.text := by
  induction yields with
  | parsed measures done =>
      obtain ⟨_, _, _, text, _⟩ := runFrom_ok done
      rw [text]
      exact measures
  | reparsed _ measures _ done ih =>
      obtain ⟨_, _, ⟨_, rfl⟩ | ⟨_, run⟩⟩ := reparseWithin_ok done
      · exact ih
      · obtain ⟨_, _, _, text, _⟩ := runFrom_ok run
        rw [text]
        exact measures

theorem language_eq (yields : parser.Yields tree) :
    tree.language = parser.language.id ∧ tree.kinds = parser.language.table.kinds := by
  induction yields with
  | parsed _ done =>
      obtain ⟨_, _, _, _, kinds, language⟩ := runFrom_ok done
      exact ⟨language, kinds⟩
  | reparsed _ _ _ done ih =>
      obtain ⟨_, _, ⟨_, rfl⟩ | ⟨_, run⟩⟩ := reparseWithin_ok done
      · exact ih
      · obtain ⟨_, _, _, _, kinds, language⟩ := runFrom_ok run
        exact ⟨language, kinds⟩

end Parser.Yields

section Sessions

variable {parser : Parser} (accepted : parser.language.Accepted) (small : parser.language.table.Small)
  (first : parser.language.table.JoinsFirst)

include accepted

theorem Machine.start_alone (text : Array UInt8) (limit : Nat) :
    (Machine.start none 0).Alone (parser.job limit text) where
  fits := Parser.Begins.fits .fresh accepted.sound limit
  foresees := ⟨.empty, fun _ _ => trivial, trivial, fun _ none => (by cases none), fun _ none => by cases none⟩
  unaided := ⟨rfl, fun _ none => by cases none⟩

theorem Machine.start_assisted {old : ParsedTree} (yields : parser.Yields old) {edit : InputEdit} {text : Array UInt8}
    (measures : parser.Measures text) (leads : edit.Leads old.text text) {prior : Nat}
    (recalls : (parser.job prior old.text).RecallsAll 0 old.root.children) (limit : Nat) :
    (Machine.start (some (ReuseCursor.start old.root (Change.narrow edit old.text text))) old.serialBound).Assisted
      (parser.job prior old.text) (parser.job limit text) old.root (Change.narrow edit old.text text) := by
  obtain ⟨valid, describes⟩ := leads.valid measures.small
  have isRoot := (yields.produced accepted).isRoot accepted.sound yields.language_eq.1
  refine ⟨Parser.Begins.fits (.again (yields.produced accepted) yields.language_eq.1 valid) accepted.sound limit,
    ⟨.empty, fun _ _ => trivial, trivial, fun _ none => (by cases none), ?_⟩, _, Machine.start_heeds _⟩
  intro cursor here
  cases here
  exact ⟨ReuseCursor.start_fits isRoot (Change.narrow_between valid), Change.narrow_describes valid describes,
    recalls⟩

include small first

theorem Machine.revises {old : ParsedTree} (yields : parser.Yields old) {edit : InputEdit} {text : Array UInt8}
    (measures : parser.Measures text) (leads : edit.Leads old.text text) (prior limit : Nat) :
    Machine.Revises (parser.job prior old.text) (parser.job limit text) old.root
      (Change.narrow edit old.text text) where
  accepted := accepted
  small := small
  first := first
  language := rfl
  priorReports := yields.measures.reports
  reports := measures.reports
  whole := ((yields.produced accepted).isRoot accepted.sound yields.language_eq.1).spans
  between := Change.narrow_between (leads.valid measures.small).1

theorem Parser.Yields.recalls {tree : ParsedTree} (yields : parser.Yields tree) :
    ∃ limit, (parser.job limit tree.text).RecallsAll 0 tree.root.children := by
  obtain ⟨items, chart⟩ := accepted.sound.chart small
  induction yields with
  | @parsed limit text tree measures done =>
      obtain ⟨root, ran, rootIs, textIs, _⟩ := Parser.runFrom_ok done
      have alone := Machine.start_alone accepted text limit
      have recalls := @Machine.run_recalls (parser.job limit text) (parser.job limit text) _ items chart accepted
        first measures.reports measures.reports rfl limit root alone.fits alone.foresees ran
      rw [textIs, rootIs]
      exact ⟨limit, recalls⟩
  | @reparsed limit old tree edit text yields measures leads done ih =>
      obtain ⟨_, _, ⟨_, rfl⟩ | ⟨_, run⟩⟩ := Parser.reparseWithin_ok done
      · exact ih
      · obtain ⟨root, ran, rootIs, textIs, _⟩ := Parser.runFrom_ok run
        obtain ⟨prior, recalls⟩ := ih
        have assisted := Machine.start_assisted accepted yields measures leads recalls limit
        have recallsNew := @Machine.run_recalls (parser.job limit text) (parser.job prior old.text) _ items chart
          accepted first measures.reports yields.measures.reports rfl limit root assisted.fits assisted.foresees ran
        rw [textIs, rootIs]
        exact ⟨limit, recallsNew⟩

end Sessions

/-! ### Trees that show the same -/

/-- Trees with the same dump, whichever characters are not seen, and the same trivia in front of their tokens. -/
structure ParsedTree.ShowsAs (tree other : ParsedTree) : Prop where
  dump : ∀ unseen, tree.dump unseen = other.dump unseen
  leading : tree.root.element.tokens.map (·.leading) = other.root.element.tokens.map (·.leading)

theorem Green.Node.LooksLike.refl (node : Node) : node.LooksLike node := ⟨rfl, rfl, rfl⟩

theorem Green.Node.LooksLike.symm {node other : Node} (looks : node.LooksLike other) : other.LooksLike node :=
  ⟨looks.kind.symm, looks.textLength.symm, looks.children.symm⟩

theorem ParsedTree.ShowsAs.of_looksLike {table : Table} {size : Nat} {tree other : ParsedTree}
    (text : tree.text = other.text) (kinds : tree.kinds = other.kinds) (isRoot : tree.root.IsRoot table size)
    (isRootToo : other.root.IsRoot table size) (looks : tree.root.LooksLike other.root) : tree.ShowsAs other where
  dump := Tree.dump_of_looksLike text kinds isRoot.spans isRootToo.spans looks
  leading := by
    have leading := congrArg (List.map (·.leading)) looks.tokens
    rw [List.map_map, List.map_map] at leading
    exact leading

section Sessions

variable {parser : Parser} {limit : Nat} {text : Array UInt8}

theorem Machine.run_unique {machine : Machine} {other : Nat} {root final : Node}
    (done : Machine.run (parser.job limit text) limit machine = .ok root)
    (doneToo : Machine.run (parser.job other text) other machine = .ok final) : root = final := by
  have first := Machine.run_carries (Nat.le_max_left limit other) machine (Nat.le_max_left limit other) root done
  have second := Machine.run_carries (Nat.le_max_right limit other) machine (Nat.le_max_right limit other) final doneToo
  exact Except.ok.inj (first.symm.trans second)

variable (accepted : parser.language.Accepted) (small : parser.language.table.Small)
  (first : parser.language.table.JoinsFirst) {old plain : ParsedTree} (yields : parser.Yields old)
  {edit : InputEdit} (measures : parser.Measures text) (leads : edit.Leads old.text text)
  (parses : parser.parseWithin limit text = .ok plain)

include accepted small first yields measures leads parses

theorem Parser.Yields.run_revised : ∃ least root, plain.root.LooksLike root ∧
    (∃ steps, Machine.run (parser.job limit text) steps (.start (some (ReuseCursor.start old.root
      (Change.narrow edit old.text text))) old.serialBound) = .ok root) ∧ ∀ more, least ≤ more →
    Machine.run (parser.job more text) more (.start (some (ReuseCursor.start old.root
      (Change.narrow edit old.text text))) old.serialBound) = .ok root := by
  obtain ⟨final, ran, rootIs, _⟩ := Parser.runFrom_ok parses
  obtain ⟨prior, recalls⟩ := yields.recalls accepted small first
  have inStep := Machine.InStep.of_mode (Machine.start_assisted accepted yields measures leads recalls limit)
    (Machine.start_alone accepted text limit) rfl rfl
  obtain ⟨steps, root, done, looks⟩ :=
    Machine.InStep.run (Machine.revises accepted small first yields measures leads prior limit) limit inStep ran
  refine ⟨max limit steps, root, rootIs ▸ looks, ⟨steps, done⟩, fun more enough => ?_⟩
  exact Machine.run_carries (Nat.le_trans (Nat.le_max_left limit steps) enough) _
    (Nat.le_trans (Nat.le_max_right limit steps) enough) root done

end Sessions

theorem Parser.Yields.showsAs {parser : Parser} (accepted : parser.language.Accepted)
    (small : parser.language.table.Small) (first : parser.language.table.JoinsFirst) {tree : ParsedTree}
    (yields : parser.Yields tree) {limit : Nat} {plain : ParsedTree}
    (parses : parser.parseWithin limit tree.text = .ok plain) : tree.ShowsAs plain := by
  have plainYields : parser.Yields plain := .parsed yields.measures parses
  have isRoot := (yields.produced accepted).isRoot accepted.sound yields.language_eq.1
  have plainIsRoot := (plainYields.produced accepted).isRoot accepted.sound plainYields.language_eq.1
  obtain ⟨final, plainRan, plainRoot, plainText, _⟩ := Parser.runFrom_ok parses
  have alike : tree.root.LooksLike plain.root → tree.ShowsAs plain := by
    intro looks
    rw [plainText] at plainIsRoot
    exact .of_looksLike plainText.symm (yields.language_eq.2.trans plainYields.language_eq.2.symm) isRoot plainIsRoot
      looks
  induction yields with
  | parsed measures done =>
      obtain ⟨root, ran, rootIs, textIs, _⟩ := Parser.runFrom_ok done
      rw [textIs] at plainRan
      refine alike ?_
      rw [rootIs, plainRoot, Machine.run_unique ran plainRan]
      exact .refl final
  | @reparsed other old tree edit text yields measures leads done ih =>
      obtain ⟨_, _, ⟨_, rfl⟩ | ⟨_, run⟩⟩ := Parser.reparseWithin_ok done
      · exact ih parses isRoot plainRan plainText alike
      · obtain ⟨root, ran, rootIs, textIs, _⟩ := Parser.runFrom_ok run
        rw [textIs] at parses
        obtain ⟨least, last, looks, _, runs⟩ := yields.run_revised accepted small first measures leads parses
        refine alike ?_
        rw [rootIs, Machine.run_unique ran (runs least (Nat.le_refl least))]
        exact looks.symm

theorem Parser.runFrom_eq {parser : Parser} (accepted : parser.language.Accepted) {limit : Nat} {text : Array UInt8}
    (short : text.size < offsetLimit) {machine : Machine} (begins : parser.Begins text machine) {root : Node}
    (ran : Machine.run (parser.job limit text) limit machine = .ok root) :
    parser.runFrom limit text machine =
      .ok ⟨⟨root, text, parser.language.table.kinds⟩, parser.language.id, root.head.serial + 1⟩ := by
  have isRoot := Machine.run_fits (parser.job limit text) accepted.sound limit (begins.fits accepted.sound limit) ran
  exact bind_ok.mpr ⟨root, ran, bind_ok.mpr ⟨⟨root, text, parser.language.table.kinds⟩,
    if_pos ⟨isRoot.length_eq, short⟩,
    rfl⟩⟩

/-- Parsing again where nothing stands against it. -/
theorem Parser.Yields.reparseWithin_eq {parser : Parser} (accepted : parser.language.Accepted) {old : ParsedTree}
    (yields : parser.Yields old) {edit : InputEdit} {text : Array UInt8} (measures : parser.Measures text)
    (leads : edit.Leads old.text text) (limit : Nat) :
    ((Change.narrow edit old.text text).isEmpty = true → parser.reparseWithin limit old edit text = .ok old) ∧
    ((Change.narrow edit old.text text).isEmpty = false → ∀ root,
      Machine.run (parser.job limit text) limit (.start (some (ReuseCursor.start old.root
        (Change.narrow edit old.text text))) old.serialBound) = .ok root →
      parser.reparseWithin limit old edit text =
        .ok ⟨⟨root, text, parser.language.table.kinds⟩, parser.language.id, root.head.serial + 1⟩) := by
  obtain ⟨valid, _⟩ := leads.valid measures.small
  have compatible := yields.language_eq.1
  have again : parser.reparseWithin limit old edit text =
      (if (Change.narrow edit old.text text).isEmpty then .ok old
      else parser.runFrom limit text (.start (some (ReuseCursor.start old.root
        (Change.narrow edit old.text text))) old.serialBound) : Except Fault ParsedTree) := by
    unfold reparseWithin
    dsimp only
    rw [if_neg (not_not_intro compatible), valid]
    cases (Change.narrow edit old.text text).isEmpty <;> rfl
  refine ⟨fun empty => by rw [again, if_pos empty]; rfl, fun changed root ran => ?_⟩
  rw [again, if_neg (by rw [changed]; exact Bool.false_ne_true),
    runFrom_eq accepted measures.small (.again (yields.produced accepted) compatible valid) ran]
  rfl

/-- Parsing again and parsing from the beginning show the same. A parser's language is one in which repetitions are
joined before anything else is done with them, and its trees come from texts by parsing and by any number of edits;
then each of them shows what parsing its text shows, and whatever edit leads from there to a text that can be parsed
from the beginning, parsing again returns a tree for that text, which shows the same. -/
theorem Parser.reparse_matches {parser : Parser} (accepted : parser.language.Accepted)
    (small : parser.language.table.Small) (first : parser.language.table.JoinsFirst) {old : ParsedTree}
    (yields : parser.Yields old) :
    (∀ limit plain, parser.parseWithin limit old.text = .ok plain → old.ShowsAs plain) ∧
    ∀ edit text, parser.Measures text → edit.Leads old.text text → ∀ limit plain,
      parser.parseWithin limit text = .ok plain →
      ∃ tree, (∃ least, ∀ more, least ≤ more → parser.reparseWithin more old edit text = .ok tree) ∧
        parser.Yields tree ∧ tree.text = text ∧ tree.ShowsAs plain := by
  refine ⟨fun limit plain parses => yields.showsAs accepted small first parses,
    fun edit text measures leads limit plain parses => ?_⟩
  obtain ⟨valid, describes⟩ := leads.valid measures.small
  have again := yields.reparseWithin_eq accepted measures leads
  cases empty : (Change.narrow edit old.text text).isEmpty with
  | true =>
      have same : old.text = text := (Change.narrow_describes valid describes).eq_of_isEmpty empty
      refine ⟨old, ⟨0, fun more _ => (again more).1 empty⟩, yields, same, ?_⟩
      rw [← same] at parses
      exact yields.showsAs accepted small first parses
  | false =>
      obtain ⟨least, root, looks, _, runs⟩ := yields.run_revised accepted small first measures leads parses
      have reparses := fun more enough => (again more).2 empty root (runs more enough)
      have treeYields := Parser.Yields.reparsed yields measures leads (reparses least (Nat.le_refl least))
      exact ⟨_, ⟨least, reparses⟩, treeYields, rfl, treeYields.showsAs accepted small first parses⟩

/-! ### A language in which repetitions are joined first -/

namespace Table

def joinsAt (table : Table) (joint : StateId) (terminal : KindId) : Bool :=
  match table.action joint terminal with
  | .error => true
  | .reduce id => table.productions[id.index]?.any (·.kind == .repeatJoin)
  | _ => false

def joinsFrom (table : Table) (below : StateId) (kind : KindId) : Bool :=
  match (table.goto below kind).bind (table.goto · kind) with
  | some joint => (List.range table.terminalCount).all fun terminal => table.joinsAt joint (.ofIndex terminal)
  | none => true

def joinsEverywhere (table : Table) : Bool :=
  (List.range table.gotos.size).all fun below => (List.range table.kinds.size).all fun kind =>
    !table.isRepeat (.ofIndex kind) || table.joinsFrom (.ofIndex below) (.ofIndex kind)

variable {table : Table}

theorem joinsOn_of_joinsAt {joint : StateId} {terminal : KindId} (joins : table.joinsAt joint terminal = true) :
    table.action joint terminal = .error ∨ table.JoinsOn joint terminal := by
  unfold joinsAt at joins
  split at joins
  · exact Or.inl ‹_›
  · rename_i id acts
    obtain ⟨production, found, kind⟩ := (Option.any_eq_true _ _).mp joins
    exact Or.inr ⟨id, production, acts, requireAt_ok.mpr found, eq_of_beq kind⟩
  · cases joins

theorem joinsFirst_of_joinsEverywhere (everywhere : table.joinsEverywhere = true) : table.JoinsFirst := by
  rintro kind joint terminal repeats ⟨below, state, led, leads⟩ isTerminal
  have repeatsToo := repeats
  unfold isRepeat at repeatsToo
  simp only [Bool.and_eq_true, decide_eq_true_eq] at repeatsToo
  have inside : below.index < table.gotos.size := by
    unfold goto at led
    rw [Numbered.not_isTerminal_of_repeat repeats] at led
    obtain ⟨place, _⟩ := Array.getElem?_eq_some_iff.mp (Option.getD_eq_iff.mp led |>.resolve_right (by simp))
    have columns : 0 < table.nonterminalCount := by
      unfold nonterminalCount
      omega
    have row := Nat.le_mul_of_pos_right below.index columns
    omega
  have here := List.all_eq_true.mp (List.all_eq_true.mp everywhere below.index (List.mem_range.mpr inside)) kind.index
    (List.mem_range.mpr repeatsToo.2)
  rw [KindId.ofIndex_index, StateId.ofIndex_index, repeats] at here
  change table.joinsFrom below kind = true at here
  unfold joinsFrom at here
  rw [led, Option.bind_some, leads] at here
  have joins := List.all_eq_true.mp here terminal.index (List.mem_range.mpr (of_decide_eq_true isTerminal))
  rw [KindId.ofIndex_index] at joins
  exact joinsOn_of_joinsAt joins

end Table

namespace Pairs

theorem joinsFirst : parser.language.table.JoinsFirst := by
  rw [parser_eq]
  exact Table.joinsFirst_of_joinsEverywhere (by decide +kernel)

theorem yields : parser.Yields tree := .parsed (measures (by decide)) parse_eq

theorem replace_eq : InputEdit.replace text 3 3 #[97, 32] =
    .ok ((InputEdit.ofOffsets 3 3 5).withPoints (.ofText text) (.ofText longer), longer) :=
  InputEdit.replace_ok_iff.mpr ⟨by decide, rfl, rfl⟩

end Pairs

/-- The tree of `ab ab` is parsed again with an unfinished pair put in. -/
theorem Parser.reparse_matches_pairs : ∃ edit tree,
    InputEdit.replace Pairs.text 3 3 #[97, 32] = .ok (edit, Pairs.longer) ∧
    Pairs.parser.parseWithin 100 Pairs.longer = .ok Pairs.brokenTree ∧
    (∃ least, ∀ more, least ≤ more → Pairs.parser.reparseWithin more Pairs.tree edit Pairs.longer = .ok tree) ∧
    tree.text = Pairs.longer ∧ tree.ShowsAs Pairs.brokenTree := by
  have leads := InputEdit.Leads.replaced Pairs.replace_eq
  have textIs : Pairs.tree.text = Pairs.text := by
    obtain ⟨_, _, _, same, _, _⟩ := Parser.runFrom_ok Pairs.parse_eq
    exact same
  rw [← textIs] at leads
  have parses : Pairs.parser.parseWithin 100 Pairs.longer = .ok Pairs.brokenTree := eq_ok_get Pairs.parses_longer
  obtain ⟨tree, reparses, _, text, shows⟩ :=
    (Parser.reparse_matches Pairs.accepted Pairs.small Pairs.joinsFirst Pairs.yields).2 _ Pairs.longer
      (Pairs.measures (by decide)) leads 100 Pairs.brokenTree parses
  exact ⟨_, tree, Pairs.replace_eq, parses, reparses, text, shows⟩

/-! ### Repetitions that are not joined first

An `x`, and then a `y` after one or more repetitions of `b`, or of `a` behind an empty node, or else a `z`. Between
two repetitions and an `a` the empty node is begun before they are joined, so they wait on the stack until a `y`
comes. -/

namespace Unjoined

def declaration : Declaration :=
  { Declaration.empty "unjoined" with
    rules := #[("s", .choice [.sequence [.literal "x", .symbol "t", .literal "y"],
        .sequence [.literal "x", .literal "z"]]),
      ("e", .blank), ("t", .repeated (.choice [.literal "b", .sequence [.symbol "e", .literal "a"]]))] }

def table : Table where
  name := "unjoined"
  version := 1
  kinds :=
    ⟨#[⟨"end", true, true, true⟩, ⟨"ERROR", true, true, true⟩, ⟨"x", false, true, true⟩,
      ⟨"y", false, true, true⟩, ⟨"z", false, true, true⟩, ⟨"b", false, true, true⟩, ⟨"a", false, true, true⟩,
      ⟨"s", true, true, false⟩, ⟨"e", true, true, false⟩, ⟨"t", true, true, false⟩,
      ⟨"t_repeat1", true, false, false⟩], #[]⟩
  terminalCount := 7
  ruleCount := 3
  productions :=
    #[⟨⟨7⟩, [.terminal ⟨2⟩, .nonterminal ⟨2⟩, .terminal ⟨3⟩], [none, none, none], .plain⟩,
      ⟨⟨7⟩, [.terminal ⟨2⟩, .terminal ⟨4⟩], [none, none], .plain⟩,
      ⟨⟨8⟩, [], [], .plain⟩,
      ⟨⟨10⟩, [.terminal ⟨5⟩], [none], .repeatBase⟩,
      ⟨⟨10⟩, [.nonterminal ⟨1⟩, .terminal ⟨6⟩], [none, none], .repeatBase⟩,
      ⟨⟨10⟩, [.nonterminal ⟨3⟩, .nonterminal ⟨3⟩], [none, none], .repeatJoin⟩,
      ⟨⟨9⟩, [.nonterminal ⟨3⟩], [none], .plain⟩]
  actions :=
    #[.error, .error, .shift ⟨2⟩, .error, .error, .error, .error,
      .accept, .error, .error, .error, .error, .error, .error,
      .error, .error, .error, .error, .shift ⟨4⟩, .shift ⟨6⟩, .reduce ⟨2⟩,
      .error, .error, .error, .shift ⟨8⟩, .error, .error, .error,
      .reduce ⟨1⟩, .error, .error, .error, .error, .error, .error,
      .error, .error, .error, .reduce ⟨6⟩, .error, .shift ⟨6⟩, .reduce ⟨2⟩,
      .error, .error, .error, .reduce ⟨3⟩, .error, .reduce ⟨3⟩, .reduce ⟨3⟩,
      .error, .error, .error, .error, .error, .error, .shift ⟨10⟩,
      .reduce ⟨0⟩, .error, .error, .error, .error, .error, .error,
      .error, .error, .error, .reduce ⟨5⟩, .error, .reduce ⟨5⟩, .reduce ⟨2⟩,
      .error, .error, .error, .reduce ⟨4⟩, .error, .reduce ⟨4⟩, .reduce ⟨4⟩]
  gotos :=
    #[some ⟨1⟩, none, none, none,
      none, none, none, none,
      none, some ⟨7⟩, some ⟨3⟩, some ⟨5⟩,
      none, none, none, none,
      none, none, none, none,
      none, some ⟨7⟩, none, some ⟨9⟩,
      none, none, none, none,
      none, none, none, none,
      none, none, none, none,
      none, some ⟨7⟩, none, some ⟨9⟩,
      none, none, none, none]
  stateModes := #[⟨1⟩, ⟨2⟩, ⟨3⟩, ⟨4⟩, ⟨2⟩, ⟨5⟩, ⟨5⟩, ⟨6⟩, ⟨2⟩, ⟨5⟩, ⟨5⟩]
  lexModes :=
    #[.ofList [⟨0⟩, ⟨2⟩, ⟨3⟩, ⟨4⟩, ⟨5⟩, ⟨6⟩], .ofList [⟨2⟩], .ofList [⟨0⟩], .ofList [⟨4⟩, ⟨5⟩, ⟨6⟩], .ofList [⟨3⟩],
      .ofList [⟨3⟩, ⟨5⟩, ⟨6⟩], .ofList [⟨6⟩]]
  lexical := ⟨#[("x", ⟨2⟩), ("y", ⟨3⟩), ("z", ⟨4⟩), ("b", ⟨5⟩), ("a", ⟨6⟩)], #[], #[], none⟩
  conflicts := 0

theorem compile_table : declaration.compile = .ok table := eq_ok_of_toOption (by decide +kernel)

def lexer : Lexer :=
  .ofLiterals table Pairs.scanner [([120], ⟨2⟩), ([121], ⟨3⟩), ([122], ⟨4⟩), ([98], ⟨5⟩), ([97], ⟨6⟩)]

theorem make_eq : Lexer.make table Pairs.scanner = .ok lexer :=
  Lexer.make_ofLiterals rfl rfl rfl rfl (eq_ok_of_toOption (by decide +kernel))

theorem compile_eq : Language.compile declaration Pairs.scanner = .ok ⟨lexer⟩ :=
  bind_ok.mpr ⟨table, compile_table, bind_ok.mpr ⟨lexer, make_eq, rfl⟩⟩

def parser : Parser := .ofLanguage ⟨lexer⟩

theorem accepted : parser.language.Accepted :=
  ⟨declaration, Pairs.scanner, ClassScanner.toScanner_throughCursor _, compile_eq⟩

theorem small : parser.language.table.Small := by
  unfold Table.Small
  decide

theorem measures {text : Array UInt8} (short : text.size + 2 < offsetLimit) : parser.Measures text :=
  ClassScanner.measures compile_eq short

theorem not_joinsFirst : ¬ parser.language.table.JoinsFirst := by
  intro first
  rcases first ⟨10⟩ ⟨9⟩ ⟨6⟩ rfl ⟨⟨2⟩, ⟨5⟩, rfl, rfl⟩ rfl with errs | ⟨id, production, acts, found, kind⟩
  · exact absurd errs (by decide)
  · have same : id = ⟨2⟩ := Action.reduce.inj (acts.symm.trans (show _ = Action.reduce ⟨2⟩ by decide))
    subst same
    cases found
    exact absurd kind (by decide)

def text : Array UInt8 := #[120, 98, 97, 97, 97, 121]

def longer : Array UInt8 := #[120, 98, 97, 97, 97, 122, 122, 122, 122, 122, 121]

def insertion : InputEdit := (InputEdit.ofOffsets 5 5 10).withPoints (.ofText text) (.ofText longer)

theorem replace_eq : InputEdit.replace text 5 5 #[122, 122, 122, 122, 122] = .ok (insertion, longer) :=
  InputEdit.replace_ok_iff.mpr ⟨by decide, rfl, rfl⟩

theorem parses : (parser.parseWithin 100 text).toOption.isSome = true := by decide +kernel

def tree : ParsedTree := (parser.parseWithin 100 text).toOption.get parses

theorem yields : parser.Yields tree := .parsed (measures (by decide)) (eq_ok_get parses)

theorem tree_text : tree.text = text := by
  obtain ⟨_, _, _, same, _, _⟩ := Parser.runFrom_ok (eq_ok_get parses)
  exact same

/-- The repetitions on the stack are dearer to pop than every `z` is to skip. -/
def skipping : List String :=
  ["s@0..11", "  'x'@0..1", "  t@1..5", "    'b'@1..2", "    e@2..2", "    'a'@2..3", "    e@3..3", "    'a'@3..4",
    "    e@4..4", "    'a'@4..5", "  ERROR@5..10", "    'z'@5..6", "    'z'@6..7", "    'z'@7..8", "    'z'@8..9",
    "    'z'@9..10", "  'y'@10..11"]

def popping : List String :=
  ["s@0..11", "  'x'@0..1", "  ERROR@1..9", "    'b'@1..2", "    e@2..2", "    'a'@2..3", "    e@3..3",
    "    'a'@3..4", "    e@4..4", "    'a'@4..5", "    'z'@5..6", "    'z'@6..7", "    'z'@7..8", "    'z'@8..9",
    "  'z'@9..10", "  ERROR@10..11", "    'y'@10..11"]

theorem dumps :
    ((parser.parseWithin 100 longer).toOption.bind fun tree => (tree.dump fun _ => false).toOption) =
      some skipping ∧
    ((parser.reparseWithin 100 tree insertion longer).toOption.bind
      fun tree => (tree.dump fun _ => false).toOption) = some popping := by
  decide +kernel

end Unjoined

/-- A tree that differs. The production that begins an empty node is declared before any that joins repetitions, so
where both could be done the repetitions are kept apart. Where a parse from scratch has the first two of them on its
stack, the run over the old tree has the rope that they make up there. What recovery does depends on the number of
entries that it would pop, and there is one less. -/
theorem Parser.reparse_differs :
    Unjoined.parser.language.Accepted ∧ Unjoined.parser.language.table.Small ∧
    ¬ Unjoined.parser.language.table.JoinsFirst ∧ Unjoined.parser.Yields Unjoined.tree ∧
    Unjoined.parser.Measures Unjoined.longer ∧
    InputEdit.replace Unjoined.tree.text 5 5 #[122, 122, 122, 122, 122] = .ok (Unjoined.insertion, Unjoined.longer) ∧
    ∃ plain tree, Unjoined.parser.parseWithin 100 Unjoined.longer = .ok plain ∧
      Unjoined.parser.reparseWithin 100 Unjoined.tree Unjoined.insertion Unjoined.longer = .ok tree ∧
      ∀ unseen, plain.dump unseen = .ok Unjoined.skipping ∧ tree.dump unseen = .ok Unjoined.popping ∧
        tree.dump unseen ≠ plain.dump unseen := by
  obtain ⟨skips, pops⟩ := Unjoined.dumps
  obtain ⟨plain, parses, skips⟩ := Option.bind_eq_some_iff.mp skips
  obtain ⟨tree, reparses, pops⟩ := Option.bind_eq_some_iff.mp pops
  have parses := eq_ok_of_toOption parses
  have reparses := eq_ok_of_toOption reparses
  have ascii : ∀ byte, byte ∈ Unjoined.longer.toList → byte < 0x80 := by decide +kernel
  have skips : ∀ unseen, plain.dump unseen = .ok Unjoined.skipping := by
    intro unseen
    obtain ⟨_, _, _, text, _, _⟩ := Parser.runFrom_ok parses
    exact (Tree.dump_ascii (text ▸ ascii)).trans (eq_ok_of_toOption skips)
  have pops : ∀ unseen, tree.dump unseen = .ok Unjoined.popping := by
    intro unseen
    have same : tree.text.toList ⊆ Unjoined.longer.toList := by
      obtain ⟨_, _, ⟨_, rfl⟩ | ⟨_, run⟩⟩ := Parser.reparseWithin_ok reparses
      · rw [Unjoined.tree_text]
        decide +kernel
      · obtain ⟨_, _, _, text, _, _⟩ := Parser.runFrom_ok run
        exact text ▸ List.Subset.refl _
    exact (Tree.dump_ascii fun byte member => ascii byte (same member)).trans (eq_ok_of_toOption pops)
  refine ⟨Unjoined.accepted, Unjoined.small, Unjoined.not_joinsFirst, Unjoined.yields,
    Unjoined.measures (by decide), Unjoined.tree_text ▸ Unjoined.replace_eq, plain, tree, parses, reparses,
    fun unseen => ⟨skips unseen, pops unseen, ?_⟩⟩
  rw [skips, pops]
  exact fun same => absurd (Except.ok.inj same) (by decide)

end IncrementalParsing
