import IncrementalParsing.Proofs.Parsing.Produced

/-!
What the identity of a language tells. The values that it is made of determine the kinds but for whether they are
named, the productions, the automaton and the terminals of every mode but that of recovery. They do not determine
the names of fields, nor which of the terminals are literals, tokens and immediate tokens; where languages of one
identity agree on these as well, they agree on everything.
-/

namespace IncrementalParsing

open Lalr

/-! ### Tables that agree -/

/-- Tables that cannot be told apart in parsing and in the trees that they make. -/
structure Table.Coincides (left right : Table) : Prop where
  kinds : left.kinds.kinds = right.kinds.kinds
  fields : left.kinds.fields = right.kinds.fields
  terminalCount : left.terminalCount = right.terminalCount
  productions : left.productions = right.productions
  actions : left.actions = right.actions
  gotos : left.gotos = right.gotos
  stateModes : left.stateModes = right.stateModes
  lexModes : left.lexModes = right.lexModes
  lexical : left.lexical = right.lexical

def KindInfo.unnamed (info : KindInfo) : String × Bool × Bool := (info.name, info.visible, info.terminal)

/-- Tables that agree but for the names of fields, the origins of the terminals and the mode of recovery. -/
structure Table.Alike (left right : Table) : Prop where
  kinds : left.kinds.kinds.map (·.unnamed) = right.kinds.kinds.map (·.unnamed)
  terminalCount : left.terminalCount = right.terminalCount
  productions : left.productions = right.productions
  actions : left.actions = right.actions
  gotos : left.gotos = right.gotos
  stateModes : left.stateModes = right.stateModes
  stateSets : left.lexModes.toList.drop 1 = right.lexModes.toList.drop 1

/-! ### Kinds -/

namespace Declaration

theorem terminalKinds_flags (declaration : Declaration) {index : Nat} {info : KindInfo}
    (found : declaration.terminalKinds[index]? = some info) : info.terminal = true ∧
      info.named = decide (index < 2 + declaration.lexicalGrammar.tokens.size +
        declaration.lexicalGrammar.externals.size) := by
  have sizes : declaration.lexicalGrammar.tokens.size = declaration.tokens.size ∧
      declaration.lexicalGrammar.externals.size = declaration.externals.size := by
    simp [lexicalGrammar]
  rw [sizes.1, sizes.2]
  have declared : (reservedKinds ++ (declaration.tokens ++ declaration.externals).map (declaredInfo true)).size =
      2 + declaration.tokens.size + declaration.externals.size := by
    simp [reservedKinds]
    omega
  unfold terminalKinds at found
  rcases Nat.lt_or_ge index (2 + declaration.tokens.size + declaration.externals.size) with low | high
  · rw [Array.getElem?_append_left (by rw [declared]; exact low)] at found
    rw [decide_eq_true low]
    rcases Array.mem_append.mp (Array.mem_of_getElem? found) with reserved | named
    · simp only [reservedKinds, List.mem_toArray, List.mem_cons, List.not_mem_nil, or_false] at reserved
      rcases reserved with rfl | rfl <;> exact ⟨rfl, rfl⟩
    · obtain ⟨name, _, rfl⟩ := Array.mem_map.mp named
      exact ⟨rfl, rfl⟩
  · rw [Array.getElem?_append_right (by rw [declared]; exact high)] at found
    rw [decide_eq_false (Nat.not_lt_of_le high)]
    have member := Array.mem_of_getElem? found
    rw [List.mem_toArray] at member
    obtain ⟨text, _, rfl⟩ := List.mem_map.mp member
    exact ⟨rfl, rfl⟩

theorem normalize_flags {declaration : Declaration} {grammar : Grammar}
    (normalized : declaration.normalize = .ok grammar) {index : Nat} {info : KindInfo}
    (found : grammar.kinds.kinds[index]? = some info) :
    info.terminal = decide (index < grammar.terminalCount) ∧
      info.named = (decide (grammar.terminalCount ≤ index) ||
        decide (index < 2 + grammar.lexical.tokens.size + grammar.lexical.externals.size)) := by
  have lexical : grammar.lexical = declaration.lexicalGrammar := by
    obtain ⟨_, _, _, _, _, rfl⟩ := normalize_ok normalized
    rfl
  obtain ⟨terminals, _, helpers, kinds, helping⟩ := normalize_kinds normalized
  rw [kinds, Array.append_assoc] at found
  rw [lexical]
  rcases Nat.lt_or_ge index grammar.terminalCount with low | high
  · rw [Array.getElem?_append_left (by rw [← terminals]; exact low)] at found
    rw [decide_eq_true low, decide_eq_false (Nat.not_le_of_lt low), Bool.false_or]
    exact terminalKinds_flags declaration found
  · rw [Array.getElem?_append_right (by rw [← terminals]; exact high)] at found
    rw [decide_eq_false (Nat.not_lt_of_le high), decide_eq_true high, Bool.true_or]
    rcases Array.mem_append.mp (Array.mem_of_getElem? found) with rule | helper
    · rw [List.mem_toArray] at rule
      obtain ⟨name, _, rfl⟩ := List.mem_map.mp rule
      exact ⟨rfl, rfl⟩
    · obtain ⟨rule, number, rfl⟩ := helping info helper
      exact ⟨rfl, rfl⟩

end Declaration

namespace Lalr

/-! ### Rows and modes -/

/-- Rows of one width are found again in the order in which they are laid out. -/
theorem layout_injective {α β : Type} (row : β → Array α) (width : Nat) {left right : List β}
    (leftSizes : ∀ item, item ∈ left → (row item).size = width)
    (rightSizes : ∀ item, item ∈ right → (row item).size = width) (length : left.length = right.length)
    (same : left.foldl (fun all item => all ++ row item) #[] = right.foldl (fun all item => all ++ row item) #[]) :
    left.map row = right.map row := by
  refine List.ext_getElem (by simpa using length) (fun place leftLt rightLt => ?_)
  rw [List.length_map] at leftLt rightLt
  rw [List.getElem_map, List.getElem_map]
  have leftSize := leftSizes _ (List.getElem_mem leftLt)
  have rightSize := rightSizes _ (List.getElem_mem rightLt)
  refine Array.ext_getElem? (fun column => ?_)
  by_cases inside : column < width
  · have leftCell := layout_getElem? row width inside left place leftSizes
    have rightCell := layout_getElem? row width inside right place rightSizes
    rw [List.getElem?_eq_getElem leftLt] at leftCell
    rw [List.getElem?_eq_getElem rightLt, ← same] at rightCell
    exact leftCell.symm.trans rightCell
  · rw [Array.getElem?_eq_none (by omega), Array.getElem?_eq_none (by omega)]

structure Modes.Beyond (left right : Modes) : Prop where
  some : 0 < left.sets.size
  size_eq : left.sets.size = right.sets.size
  sets_eq : left.sets.toList.drop 1 = right.sets.toList.drop 1
  states_eq : left.ofStates = right.ofStates

/-- States get the same modes whatever the mode of recovery is. -/
theorem Modes.Beyond.assign {left right leftAfter rightAfter : Modes} (beyond : left.Beyond right)
    {row : Array Action} (leftDone : left.assign row = .ok leftAfter) (rightDone : right.assign row = .ok rightAfter) :
    leftAfter.Beyond rightAfter := by
  have numbers : left.number? (admitted row) = right.number? (admitted row) := by
    unfold Modes.number?
    rw [beyond.sets_eq]
  have leftSome := beyond.some
  have rightSome := beyond.some
  rw [beyond.size_eq] at rightSome
  unfold Modes.assign at leftDone rightDone
  dsimp only at leftDone rightDone
  rw [numbers] at leftDone
  cases known : right.number? (admitted row) with
  | some mode =>
      rw [known] at leftDone rightDone
      cases leftDone
      cases rightDone
      exact ⟨leftSome, beyond.size_eq, beyond.sets_eq, congrArg (·.push mode) beyond.states_eq⟩
  | none =>
      rw [known] at leftDone rightDone
      rw [beyond.size_eq] at leftDone
      dsimp only at leftDone rightDone
      split at rightDone
      · cases rightDone
      · rename_i room
        rw [if_neg room] at leftDone
        cases leftDone
        cases rightDone
        refine ⟨?_, ?_, ?_, ?_⟩
        · rw [Array.size_push]
          omega
        · rw [Array.size_push, Array.size_push, beyond.size_eq]
        · rw [Array.toList_push, Array.toList_push,
            List.drop_append_of_le_length (by rw [Array.length_toList]; exact leftSome),
            List.drop_append_of_le_length (by rw [Array.length_toList]; exact rightSome), beyond.sets_eq]
        · dsimp only
          rw [beyond.states_eq]

def Modes.assignAll (modes : Modes) (rows : List (Array Action)) :
    Except (Failure ConfigurationError) Modes :=
  rows.foldlM (fun modes row => (modes.assign row : Except (Failure ConfigurationError) Modes)) modes

theorem Modes.Beyond.assignAll : ∀ (rows : List (Array Action)) {left right leftAfter rightAfter : Modes},
    left.Beyond right → left.assignAll rows = .ok leftAfter → right.assignAll rows = .ok rightAfter →
    leftAfter.Beyond rightAfter
  | [], _, _, _, _, beyond, leftDone, rightDone => by
      cases leftDone
      cases rightDone
      exact beyond
  | row :: rest, _, _, _, _, beyond, leftDone, rightDone => by
      unfold Modes.assignAll at leftDone rightDone
      rw [List.foldlM_cons] at leftDone rightDone
      obtain ⟨leftMiddle, leftFirst, leftRest⟩ := bind_ok.mp leftDone
      obtain ⟨rightMiddle, rightFirst, rightRest⟩ := bind_ok.mp rightDone
      exact Modes.Beyond.assignAll rest (beyond.assign (lift_ok.mp leftFirst) (lift_ok.mp rightFirst))
        leftRest rightRest

section Compiled

variable {grammar : Grammar} {table : Table} (compiled : Compiled grammar table)

include compiled

def Compiled.actionLists : List (Array Action) := compiled.rows.toList.map (·.actions)

theorem Compiled.assignAll_eq :
    Modes.assignAll ⟨#[Modes.recovery grammar], #[]⟩ compiled.actionLists = .ok compiled.modes := by
  have assigned := compiled.assigned
  rw [← Array.foldlM_toList] at assigned
  unfold Modes.assignAll Compiled.actionLists
  rw [List.foldlM_map]
  exact assigned

theorem Compiled.stateModes_size : table.stateModes.size = compiled.rows.toList.length := by
  have initially : Modes.Fit 0 ⟨#[Modes.recovery grammar], #[]⟩ :=
    ⟨Nat.zero_lt_one, show 1 < 65536 by decide, rfl, fun mode none => absurd none (Array.not_mem_empty mode)⟩
  have assigned := compiled.assigned
  rw [← Array.foldlM_toList] at assigned
  have fit := Modes.assignAll_fit compiled.rows.toList initially assigned
  rw [compiled.stateModes_eq, fit.states_eq, Nat.zero_add]

end Compiled

section Two

variable {left right : Grammar} {leftTable rightTable : Table} (leftCompiled : Compiled left leftTable)
  (rightCompiled : Compiled right rightTable)

include leftCompiled rightCompiled

theorem actionLists_eq (same : leftTable.fingerprint = rightTable.fingerprint) :
    leftCompiled.actionLists = rightCompiled.actionLists := by
  obtain ⟨terminals, _⟩ := (compile_framed leftCompiled).same_counts (compile_framed rightCompiled) same
  rw [leftCompiled.terminalCount_eq, rightCompiled.terminalCount_eq] at terminals
  have actions : leftTable.actions = rightTable.actions := congrArg Fingerprint.actions same
  have modes : leftTable.stateModes = rightTable.stateModes := congrArg Fingerprint.stateModes same
  have laid : ∀ {grammar : Grammar} {table : Table} (compiled : Compiled grammar table), table.actions =
      compiled.rows.toList.foldl (fun actions row => actions ++ row.actions) #[] :=
    fun compiled => (congrArg Table.actions compiled.table_eq).trans (Array.foldl_toList _).symm
  refine layout_injective (fun row : SettledRow => row.actions) left.terminalCount leftCompiled.row_size ?_ ?_ ?_
  · rw [terminals]
    exact rightCompiled.row_size
  · rw [← leftCompiled.stateModes_size, ← rightCompiled.stateModes_size, modes]
  · rw [← laid leftCompiled, ← laid rightCompiled, actions]

theorem modes_beyond (same : leftTable.fingerprint = rightTable.fingerprint) :
    leftCompiled.modes.Beyond rightCompiled.modes := by
  have initially : Modes.Beyond ⟨#[Modes.recovery left], #[]⟩ ⟨#[Modes.recovery right], #[]⟩ :=
    ⟨Nat.one_pos, rfl, rfl, rfl⟩
  refine initially.assignAll leftCompiled.actionLists leftCompiled.assignAll_eq ?_
  rw [actionLists_eq leftCompiled rightCompiled same]
  exact rightCompiled.assignAll_eq

theorem lexModes_eq_of_lexical (same : leftTable.fingerprint = rightTable.fingerprint)
    (lexical : leftTable.lexical = rightTable.lexical) : leftTable.lexModes = rightTable.lexModes := by
  obtain ⟨terminals, _⟩ := (compile_framed leftCompiled).same_counts (compile_framed rightCompiled) same
  rw [leftCompiled.terminalCount_eq, rightCompiled.terminalCount_eq] at terminals
  rw [leftCompiled.lexical_eq, rightCompiled.lexical_eq] at lexical
  have recovery : Modes.recovery left = Modes.recovery right := by
    unfold Modes.recovery
    rw [terminals, lexical]
  have assigned := leftCompiled.assignAll_eq
  rw [actionLists_eq leftCompiled rightCompiled same, recovery, rightCompiled.assignAll_eq] at assigned
  rw [leftCompiled.lexModes_eq, rightCompiled.lexModes_eq, Except.ok.inj assigned]

/-- Kinds of one number differ in whether they are named at most, and in nothing if the vocabulary is the same. -/
theorem kinds_alike {leftDeclaration rightDeclaration : Declaration}
    (leftNormalized : leftDeclaration.normalize = .ok left) (rightNormalized : rightDeclaration.normalize = .ok right)
    (same : leftTable.fingerprint = rightTable.fingerprint) {index : Nat} {first second : KindInfo}
    (leftFound : leftTable.kinds.kinds[index]? = some first)
    (rightFound : rightTable.kinds.kinds[index]? = some second) :
    first.unnamed = second.unnamed ∧ (leftTable.lexical = rightTable.lexical → first = second) := by
  obtain ⟨terminals, _⟩ := (compile_framed leftCompiled).same_counts (compile_framed rightCompiled) same
  rw [leftCompiled.terminalCount_eq, rightCompiled.terminalCount_eq] at terminals
  have shown : (first.name, first.visible) = (second.name, second.visible) := by
    have printed := congrArg (fun print : Fingerprint => print.kinds[index]?) same
    simp only [Table.fingerprint, List.getElem?_map, Array.getElem?_toList, leftFound, rightFound,
      Option.map_some, Option.some.injEq] at printed
    exact printed
  rw [leftCompiled.kinds_eq] at leftFound
  rw [rightCompiled.kinds_eq] at rightFound
  obtain ⟨leftTerminal, leftNamed⟩ := Declaration.normalize_flags leftNormalized leftFound
  obtain ⟨rightTerminal, rightNamed⟩ := Declaration.normalize_flags rightNormalized rightFound
  obtain ⟨name, visible⟩ := Prod.mk.inj shown
  have terminal : first.terminal = second.terminal := by rw [leftTerminal, rightTerminal, terminals]
  constructor
  · unfold KindInfo.unnamed
    rw [name, visible, terminal]
  · intro lexical
    rw [leftCompiled.lexical_eq, rightCompiled.lexical_eq] at lexical
    have named : first.named = second.named := by rw [leftNamed, rightNamed, terminals, lexical]
    cases first
    cases second
    cases name
    cases named
    cases visible
    cases terminal
    rfl

end Two

end Lalr

/-! ### Languages of one identity -/

namespace Table

variable {left right : Table}

theorem fingerprint_of_alike (name : left.name = right.name) (version : left.version = right.version)
    (alike : left.Alike right) : left.fingerprint = right.fingerprint := by
  have kinds := congrArg (fun kinds => (kinds.map (fun info => (info.1, info.2.1))).toList) alike.kinds
  simp only [Array.map_map, Array.toList_map] at kinds
  unfold fingerprint
  rw [name, version, alike.productions, alike.actions, alike.gotos, alike.stateModes]
  exact congrArg (fun kinds => (⟨right.name, right.version, kinds, right.productions, right.actions, right.gotos,
    right.stateModes⟩ : Fingerprint)) kinds

variable {leftDeclaration rightDeclaration : Declaration} (leftCompiled : leftDeclaration.compile = .ok left)
  (rightCompiled : rightDeclaration.compile = .ok right) (same : left.fingerprint = right.fingerprint)

include leftCompiled rightCompiled same

theorem alike_of_fingerprint : left.Alike right := by
  obtain ⟨leftGrammar, leftNormalized, leftMade⟩ := bind_ok.mp leftCompiled
  obtain ⟨rightGrammar, rightNormalized, rightMade⟩ := bind_ok.mp rightCompiled
  obtain ⟨leftParts⟩ := compile_ok leftMade
  obtain ⟨rightParts⟩ := compile_ok rightMade
  obtain ⟨terminals, sizes⟩ := (compile_framed leftParts).same_counts (compile_framed rightParts) same
  have size : left.kinds.kinds.size = right.kinds.kinds.size := sizes
  have beyond := modes_beyond leftParts rightParts same
  constructor
  · refine Array.ext_getElem? (fun index => ?_)
    rw [Array.getElem?_map, Array.getElem?_map]
    by_cases inside : index < left.kinds.kinds.size
    · have leftFound := Array.getElem?_eq_getElem inside
      have rightFound := Array.getElem?_eq_getElem (size ▸ inside)
      rw [leftFound, rightFound]
      exact congrArg some (kinds_alike leftParts rightParts leftNormalized rightNormalized same leftFound rightFound).1
    · rw [Array.getElem?_eq_none (Nat.le_of_not_lt inside),
        Array.getElem?_eq_none (Nat.le_of_not_lt (size ▸ inside))]
  · exact terminals
  · exact congrArg Fingerprint.productions same
  · exact congrArg Fingerprint.actions same
  · exact congrArg Fingerprint.gotos same
  · exact congrArg Fingerprint.stateModes same
  · rw [leftParts.lexModes_eq, rightParts.lexModes_eq]
    exact beyond.sets_eq

/-- Tables of one fingerprint agree on everything if they agree on the names of fields and on the vocabulary. -/
theorem coincides_of_fingerprint (fields : left.kinds.fields = right.kinds.fields)
    (lexical : left.lexical = right.lexical) : left.Coincides right := by
  have alike := alike_of_fingerprint leftCompiled rightCompiled same
  obtain ⟨leftGrammar, leftNormalized, leftMade⟩ := bind_ok.mp leftCompiled
  obtain ⟨rightGrammar, rightNormalized, rightMade⟩ := bind_ok.mp rightCompiled
  obtain ⟨leftParts⟩ := compile_ok leftMade
  obtain ⟨rightParts⟩ := compile_ok rightMade
  obtain ⟨_, size⟩ := (compile_framed leftParts).same_counts (compile_framed rightParts) same
  have kinds : left.kinds.kinds = right.kinds.kinds := by
    refine Array.ext size (fun index leftLt rightLt => ?_)
    exact (kinds_alike leftParts rightParts leftNormalized rightNormalized same
      (Array.getElem?_eq_getElem leftLt) (Array.getElem?_eq_getElem rightLt)).2 lexical
  exact ⟨kinds, fields, alike.terminalCount, alike.productions, alike.actions, alike.gotos, alike.stateModes,
    lexModes_eq_of_lexical leftParts rightParts same lexical, lexical⟩

end Table

/-- Languages have one identity exactly if they have the same name and version and their tables are alike. Such
languages agree on everything exactly if they also agree on the names of fields and on the vocabulary. -/
theorem Language.identity_determines {leftDeclaration rightDeclaration : Declaration} {left right : Language}
    (leftCompiled : leftDeclaration.compile = .ok left.table)
    (rightCompiled : rightDeclaration.compile = .ok right.table) :
    (left.id = right.id ↔ left.table.name = right.table.name ∧ left.table.version = right.table.version ∧
      left.table.Alike right.table) ∧
    (left.id = right.id → (left.table.Coincides right.table ↔
      left.table.kinds.fields = right.table.kinds.fields ∧ left.table.lexical = right.table.lexical)) := by
  refine ⟨⟨fun same => ?_, ?_⟩, fun same => ⟨?_, ?_⟩⟩
  · exact ⟨congrArg LanguageId.name same, congrArg LanguageId.version same,
      Table.alike_of_fingerprint leftCompiled rightCompiled (congrArg LanguageId.fingerprint same)⟩
  · rintro ⟨name, version, alike⟩
    unfold Language.id
    rw [name, version, Table.fingerprint_of_alike name version alike]
  · exact fun coincide => ⟨coincide.fields, coincide.lexical⟩
  · rintro ⟨fields, lexical⟩
    exact Table.coincides_of_fingerprint leftCompiled rightCompiled (congrArg LanguageId.fingerprint same)
      fields lexical

/-! ### Languages that are taken for one another -/

namespace Namesakes

def scanned : Declaration :=
  { Declaration.empty "namesake" with tokens := #["x"], rules := #[("s", .symbol "x")] }

def labelled (label : String) : Declaration :=
  { Declaration.empty "namesake" with rules := #[("s", .field label (.literal "x"))] }

def literal : Declaration :=
  { Declaration.empty "namesake" with rules := #[("s", .literal "x")] }

def scanner : Scanner :=
  ClassScanner.toScanner ⟨[⟨"x", .ofBytes [120], .ofBytes []⟩], [], ⟨true, false, false, false⟩⟩

theorem compiles : (Language.compile scanned scanner).toOption.isSome = true ∧
    (Language.compile literal Pairs.scanner).toOption.isSome = true ∧
    ∀ label, label = "left" ∨ label = "right" →
      (Language.compile (labelled label) Pairs.scanner).toOption.isSome = true := by
  refine ⟨by decide +kernel, by decide +kernel, ?_⟩
  rintro label (rfl | rfl) <;> decide +kernel

def ofToken : Language := (Language.compile scanned scanner).toOption.get compiles.1

def ofLiteral : Language := (Language.compile literal Pairs.scanner).toOption.get compiles.2.1

def ofLeft : Language := (Language.compile (labelled "left") Pairs.scanner).toOption.get (compiles.2.2 _ (.inl rfl))

def ofRight : Language := (Language.compile (labelled "right") Pairs.scanner).toOption.get (compiles.2.2 _ (.inr rfl))

theorem confused : ofToken.id = ofLiteral.id ∧ ofToken.table.lexical ≠ ofLiteral.table.lexical := by decide +kernel

theorem accepted : ofToken.Accepted ∧ ofLiteral.Accepted ∧ ofLeft.Accepted ∧ ofRight.Accepted :=
  ⟨⟨_, _, ClassScanner.toScanner_throughCursor _, eq_ok_get _⟩,
    ⟨_, _, ClassScanner.toScanner_throughCursor _, eq_ok_get _⟩,
    ⟨_, _, ClassScanner.toScanner_throughCursor _, eq_ok_get _⟩,
    ⟨_, _, ClassScanner.toScanner_throughCursor _, eq_ok_get _⟩⟩

end Namesakes

/-- A letter that the scanner finds and a literal of one letter: the languages are alike, and they do not agree on
everything. -/
theorem Language.identity_determines_namesakes : Namesakes.ofToken.table.Alike Namesakes.ofLiteral.table ∧
    ¬ Namesakes.ofToken.table.Coincides Namesakes.ofLiteral.table := by
  obtain ⟨alike, coincide⟩ := @Language.identity_determines Namesakes.scanned Namesakes.literal Namesakes.ofToken
    Namesakes.ofLiteral (Language.compile_ok.mp (eq_ok_get _)).1 (Language.compile_ok.mp (eq_ok_get _)).1
  obtain ⟨same, other⟩ := Namesakes.confused
  exact ⟨(alike.mp same).2.2, fun all => other ((coincide same).mp all).2⟩

/-- Accepted languages of one identity of which one scans a token where the other has a literal, and others that
label the children of their nodes differently. -/
theorem Language.identity_confuses :
    (∃ left right : Language, left.Accepted ∧ right.Accepted ∧ left.id = right.id ∧
      left.table.kinds.kinds ≠ right.table.kinds.kinds ∧ left.table.lexical ≠ right.table.lexical) ∧
    ∃ left right : Language, left.Accepted ∧ right.Accepted ∧ left.id = right.id ∧
      left.table.kinds.fields ≠ right.table.kinds.fields := by
  obtain ⟨token, literal, left, right⟩ := Namesakes.accepted
  obtain ⟨same, other⟩ := Namesakes.confused
  refine ⟨⟨Namesakes.ofToken, Namesakes.ofLiteral, token, literal, same, ?_, other⟩,
    Namesakes.ofLeft, Namesakes.ofRight, left, right, ?_⟩
  · decide +kernel
  · decide +kernel

end IncrementalParsing
