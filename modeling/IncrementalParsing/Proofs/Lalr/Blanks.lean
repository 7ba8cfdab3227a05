import IncrementalParsing.Proofs.Lalr.Exact

/-!
A grammar with many productions. The only rule is either a sequence of blanks, each of which is optional, or
a letter. An optional blank has two ways, which are the same, so that each blank of the sequence doubles its
empty productions; there are three states however many productions there are. The production of the letter
is the last one, and it is what is reduced behind the letter.
-/

namespace IncrementalParsing.Blanks

open Lalr

def declaration (name : String) (count : Nat) : Declaration :=
  { Declaration.empty name with
    policy := .preferShift
    rules := #[("s", .choice [.sequence (List.replicate count (.optional .blank)), .literal "a"])] }

def letterKind : KindId := .ofIndex 2

def blank : Production := ⟨Grammar.start, [], 0, .none, .plain⟩

def letter : Production := ⟨Grammar.start, [⟨.terminal letterKind, none, 0⟩], 0, .none, .plain⟩

structure Normal (copies : Nat) (grammar : Grammar) : Prop where
  numbered : grammar.Numbered
  productive : grammar.unproductive? = none
  policy : grammar.policy = .preferShift
  single : grammar.nonterminalCount = 1
  productions : grammar.productions.toList = List.replicate copies blank ++ [letter]

variable {name : String} {count : Nat}

/-! ### The normal form -/

theorem literalsOfAll_blanks : ∀ count, Rule.literalsOfAll (List.replicate count (.optional .blank)) = []
  | 0 => rfl
  | count + 1 => literalsOfAll_blanks count

theorem literals_body :
    (Rule.choice [.sequence (List.replicate count (.optional .blank)), .literal "a"]).literals = ["a"] := by
  change Rule.literalsOfAll (List.replicate count (.optional .blank)) ++ ["a"] = ["a"]
  rw [literalsOfAll_blanks]
  rfl

theorem literalTexts_eq : (declaration name count).literalTexts = ["a"] := by
  change (List.flatMap _ [_]).eraseDups = _
  rw [List.flatMap_singleton, literals_body]
  rfl

theorem emptyLiteralRule?_eq : (declaration name count).emptyLiteralRule? = none := by
  unfold Declaration.emptyLiteralRule?
  change Option.map _ (List.find? _ [_]) = _
  rw [List.find?_singleton, literals_body]
  rfl

theorem checkNames_eq : (declaration name count).checkNames = .ok () := by
  have rules : (declaration name count).ruleNames = ["s"] := rfl
  have once : firstRepeated? ∅ ["s"] = none := by decide +kernel
  have apart : firstRepeated? ∅ ((declaration name count).tokens.toList ++
      (declaration name count).externals.toList ++ ["s"]) = none := once
  unfold Declaration.checkNames
  rw [rules]
  dsimp only [List.head?_cons]
  rw [show isHiddenName "s" = false by decide, once, apart]
  rfl

section Flattening

theorem expandSequence_blanks (names : Flatten.Names) (state : Flatten.State) : ∀ count copies,
    Flatten.expandSequence names .plain (List.replicate copies ⟨[], none⟩)
      (List.replicate count (.optional .blank)) state =
      .ok (List.replicate (copies * 2 ^ count) ⟨[], none⟩, state)
  | 0, copies => by
      rw [List.replicate_zero, Nat.pow_zero, Nat.mul_one]
      unfold Flatten.expandSequence
      rfl
  | count + 1, copies => by
      have ways : Flatten.expand names .plain (.optional .blank) state =
          .ok (List.replicate 2 ⟨[], none⟩, state) := by
        unfold Rule.optional
        simp only [Flatten.expand, Flatten.expandChoice, ok_bind]
        rfl
      have doubled : Flatten.combine (List.replicate copies ⟨[], none⟩) (List.replicate 2 ⟨[], none⟩) =
          List.replicate (copies * 2) ⟨[], none⟩ := by
        unfold Flatten.combine
        rw [List.flatMap_replicate, List.map_replicate, List.flatten_replicate_replicate]
        rfl
      rw [List.replicate_succ]
      unfold Flatten.expandSequence
      rw [ways, ok_bind]
      dsimp only
      rw [doubled, expandSequence_blanks names state count, Nat.mul_assoc, Nat.pow_succ']

theorem rules_eq {names : Flatten.Names} (found : names.literals["a"]? = some letterKind) (kinds : KindTable) :
    Flatten.rules names 0 (declaration name count).rules.toList ⟨kinds, #[], 0⟩ =
      .ok ⟨kinds, (List.replicate (2 ^ count) blank ++ [letter]).toArray, 0⟩ := by
  have blanks : Flatten.expand { names with rule := "s" } .plain
      (.sequence (List.replicate count (.optional .blank))) ⟨kinds, #[], 0⟩ =
      .ok (List.replicate (2 ^ count) ⟨[], none⟩, ⟨kinds, #[], 0⟩) := by
    have expanded := expandSequence_blanks { names with rule := "s" } ⟨kinds, #[], 0⟩ count 1
    unfold Flatten.expand
    rw [Nat.one_mul] at expanded
    exact expanded
  have text : Flatten.expand { names with rule := "s" } .plain (.literal "a") ⟨kinds, #[], 0⟩ =
      .ok ([.single .plain (.terminal letterKind)], ⟨kinds, #[], 0⟩) := by
    unfold Flatten.expand
    dsimp only
    rw [found]
  have expanded : Flatten.expand { names with rule := "s" } .plain
      (.choice [.sequence (List.replicate count (.optional .blank)), .literal "a"]) ⟨kinds, #[], 0⟩ =
      .ok (List.replicate (2 ^ count) ⟨[], none⟩ ++ [.single .plain (.terminal letterKind)], ⟨kinds, #[], 0⟩) := by
    unfold Flatten.expand
    simp only [Flatten.expandChoice, blanks, text, ok_bind]
    rfl
  change Flatten.rules names 0 [_] _ = _
  unfold Flatten.rules Flatten.rule
  dsimp only
  rw [expanded, ok_bind]
  unfold Flatten.rules
  simp only [pure, Except.pure, ok_bind, Array.empty_append, List.map_append, List.map_replicate]
  rfl

end Flattening

theorem exists_normal (name : String) (count : Nat) :
    ∃ grammar, (declaration name count).normalize = .ok grammar ∧ Normal (2 ^ count) grammar := by
  have terminals : (declaration name count).names.terminalCount = 3 := by
    rw [Declaration.terminalCount_eq, literalTexts_eq]
    rfl
  have literals : (declaration name count).names.literals["a"]? = some letterKind := by
    refine Declaration.literals_lookup.mpr ⟨2, Declaration.mem_numbered.mpr ⟨Nat.le_refl _, ?_⟩, rfl⟩
    rw [literalTexts_eq]
    rfl
  obtain ⟨kinds, kindsEq⟩ : ∃ kinds, kinds = (declaration name count).terminalKinds ++
      ((declaration name count).ruleNames.map (Declaration.declaredInfo false)).toArray := ⟨_, rfl⟩
  have size : kinds.size = 4 := by
    rw [kindsEq, Array.size_append, Declaration.terminalKinds_size, terminals]
    rfl
  have flattened := @rules_eq name count _ literals ⟨kinds, #[]⟩
  obtain ⟨grammar, grammarEq⟩ : ∃ grammar : Grammar, grammar =
      { name := name
        version := 1
        kinds := ⟨kinds, #[]⟩
        terminalCount := (declaration name count).names.terminalCount
        ruleCount := 1
        productions := (List.replicate (2 ^ count) blank ++ [letter]).toArray
        lexical := (declaration name count).lexicalGrammar
        policy := .preferShift } := ⟨_, rfl⟩
  have listed : grammar.productions.toList = List.replicate (2 ^ count) blank ++ [letter] := by rw [grammarEq]
  have single : grammar.nonterminalCount = 1 := by
    rw [grammarEq]
    change kinds.size - (declaration name count).names.terminalCount = 1
    rw [size, terminals]
  have productive : grammar.unproductive? = none := by
    apply Grammar.unproductive?_of_single single
    · intro production member
      rw [listed] at member
      rcases List.mem_append.mp member with copy | last
      · rw [List.eq_of_mem_replicate copy]
        rfl
      · rw [List.mem_singleton.mp last]
        rfl
    · rw [listed]
      exact ⟨letter, List.mem_append_right _ (List.mem_singleton_self _), rfl⟩
  have normalized : (declaration name count).normalize = .ok grammar := by
    subst kindsEq
    refine Declaration.normalize_of checkNames_eq emptyLiteralRule?_eq flattened ?_ productive grammarEq
    exact Nat.le_trans (Nat.le_of_eq size) (by decide)
  exact ⟨grammar, normalized, Declaration.normalize_numbered normalized, productive, by rw [grammarEq], single, listed⟩

/-! ### The automaton -/

def kernels (copies : Nat) : List (List Item) := [[⟨copies + 1, 0⟩], [⟨copies + 1, 1⟩], [⟨copies, 1⟩]]

section Automaton

variable {copies : Nat} {grammar : Grammar} (normal : Normal copies grammar)

include normal

theorem Normal.size : grammar.productions.size = copies + 1 := by
  have length := congrArg List.length normal.productions
  simpa using length

theorem Normal.letter_eq : grammar.productions[copies]? = some letter := by
  rw [← Array.getElem?_toList, normal.productions, List.getElem?_append_right (by simp)]
  simp

theorem Normal.next_letter (dot : Nat) :
    (Rules.ofGrammar grammar).nextSymbol ⟨copies, dot⟩ = [Symbol.terminal letterKind][dot]? :=
  Rules.nextSymbol_production grammar normal.letter_eq dot

theorem Normal.next_seed (dot : Nat) :
    (Rules.ofGrammar grammar).nextSymbol ⟨copies + 1, dot⟩ = [Symbol.nonterminal Grammar.start][dot]? := by
  rw [← normal.size]
  exact Rules.nextSymbol_augmented grammar dot

theorem Normal.next_production {number dot : Nat} {production : Production} {symbol : Symbol}
    (found : grammar.productions[number]? = some production)
    (next : (Rules.ofGrammar grammar).nextSymbol ⟨number, dot⟩ = some symbol) : number = copies := by
  have inside := (Array.getElem?_eq_some_iff.mp found).1
  rw [normal.size] at inside
  rcases Nat.lt_succ_iff_lt_or_eq.mp inside with copy | last
  · have empty : production = blank := by
      rw [← Array.getElem?_toList, normal.productions, List.getElem?_append_left (by simpa using copy)] at found
      exact List.eq_of_mem_replicate (List.mem_of_getElem? found)
    rw [Rules.nextSymbol_production grammar found, empty] at next
    cases next
  · exact last

/-- What stands behind a mark in a closure: the rule where it is due, or the letter. -/
theorem Normal.goes {kernel : List Item} (member : kernel ∈ kernels copies) {item : Item} {symbol : Symbol}
    (closed : Closed (.ofGrammar grammar) kernel item)
    (next : (Rules.ofGrammar grammar).nextSymbol item = some symbol) :
    (item = ⟨copies + 1, 0⟩ ∧ symbol = .nonterminal Grammar.start) ∨
      (item = ⟨copies, 0⟩ ∧ symbol = .terminal letterKind) := by
  cases closed with
  | kernel listed =>
      rcases List.mem_cons.mp member with rfl | others
      · cases List.mem_singleton.mp listed
        rw [normal.next_seed] at next
        exact Or.inl ⟨rfl, (Option.some.inj next).symm⟩
      rcases List.mem_cons.mp others with rfl | last
      · cases List.mem_singleton.mp listed
        rw [normal.next_seed] at next
        cases next
      · cases List.mem_singleton.mp last
        cases List.mem_singleton.mp listed
        rw [normal.next_letter] at next
        cases next
  | start _ _ produced =>
      obtain ⟨_, production, found, _⟩ := (Rules.mem_productionsOf grammar).mp produced
      cases normal.next_production found next
      rw [normal.next_letter] at next
      exact Or.inr ⟨rfl, (Option.some.inj next).symm⟩

theorem Normal.successor {kernel target : List Item} (member : kernel ∈ kernels copies) {symbol : Symbol}
    (among : (symbol, target) ∈ successors (.ofGrammar grammar) kernel) :
    (symbol = .nonterminal Grammar.start ∧ target = [⟨copies + 1, 1⟩]) ∨
      (symbol = .terminal letterKind ∧ target = [⟨copies, 1⟩]) := by
  have consistent := Rules.ofGrammar_consistent grammar
  have alone : ∀ {before : Item}, before ∈ closure (.ofGrammar grammar) kernel →
      (Rules.ofGrammar grammar).nextSymbol before = some symbol →
      (∀ other, other ∈ closure (.ofGrammar grammar) kernel →
        (Rules.ofGrammar grammar).nextSymbol other = some symbol → other = before) → target = [before.advance] := by
    intro before inClosure next only
    apply Increasing.ext (increasing_of_successor among) (List.pairwise_singleton _ _)
    intro item
    rw [mem_successor among, List.mem_singleton]
    constructor
    · rintro ⟨other, inside, behind, rfl⟩
      rw [only other inside behind]
    · rintro rfl
      exact ⟨before, inClosure, next, rfl⟩
  obtain ⟨item, inClosure, next⟩ := successor_begun among
  rcases normal.goes member ((mem_closure consistent).mp inClosure) next with ⟨rfl, rfl⟩ | ⟨rfl, rfl⟩
  · refine Or.inl ⟨rfl, alone inClosure next fun other inside behind => ?_⟩
    rcases normal.goes member ((mem_closure consistent).mp inside) behind with ⟨rfl, _⟩ | ⟨_, impossible⟩
    · rfl
    · cases impossible
  · refine Or.inr ⟨rfl, alone inClosure next fun other inside behind => ?_⟩
    rcases normal.goes member ((mem_closure consistent).mp inside) behind with ⟨_, impossible⟩ | ⟨rfl, _⟩
    · cases impossible
    · rfl

theorem Normal.exists_automaton : ∃ automaton, Automaton.ofRules (.ofGrammar grammar) = .ok automaton ∧
    automaton.kernels.size ≤ 3 := by
  have first : Automaton.startKernel (.ofGrammar grammar) ∈ kernels copies := by
    unfold Automaton.startKernel
    rw [Rules.augmented_ofGrammar, normal.size]
    exact List.mem_cons_self
  have leads : ∀ kernel, kernel ∈ kernels copies → ∀ pair, pair ∈ successors (.ofGrammar grammar) kernel →
      pair.2 ∈ kernels copies := by
    intro kernel member pair among
    rcases normal.successor member among with ⟨_, target⟩ | ⟨_, target⟩
    · rw [target]
      exact List.mem_cons_of_mem _ List.mem_cons_self
    · rw [target]
      exact List.mem_cons_of_mem _ (List.mem_cons_of_mem _ List.mem_cons_self)
  obtain ⟨automaton, made, drawn⟩ := @Automaton.exists_ofRules (kernels copies)
    (show 3 ≤ Automaton.stateLimit by decide) _ leads first
  exact ⟨automaton, made, drawn.distinct.length_le_of_subset drawn.among⟩

theorem Normal.produced : copies ∈ (Rules.ofGrammar grammar).productionsOf Grammar.start := by
  refine (Rules.mem_productionsOf grammar).mpr ⟨?_, letter, normal.letter_eq, rfl⟩
  rw [normal.single]
  decide

theorem Normal.closed_letter {item : Item} (closed : Closed (.ofGrammar grammar) [⟨copies, 1⟩] item) :
    item = ⟨copies, 1⟩ := by
  induction closed with
  | kernel member => exact List.mem_singleton.mp member
  | start _ next _ ih =>
      rw [ih, normal.next_letter] at next
      cases next

theorem Normal.canonical_letter : Canonical grammar [.terminal letterKind] ⟨copies, 1⟩ .endOfInput := by
  have seed : Canonical grammar [] ⟨copies + 1, 0⟩ .endOfInput := by
    refine .kernel ⟨?_, rfl⟩
    rw [Rules.augmented_ofGrammar, normal.size]
  have last : (Rules.ofGrammar grammar).rest ⟨copies + 1, 0⟩ = [] := by
    unfold Rules.rest
    rw [← normal.size, Rules.rhs_augmented]
    rfl
  have start : Canonical grammar [] ⟨copies, 0⟩ .endOfInput :=
    seed.start (normal.next_seed 0) normal.produced (last.symm ▸ ⟨[], .refl⟩)
  exact start.advance (normal.next_letter 0)

section Compiled

variable {table : Table} (compiled : Compiled grammar table)

include compiled

theorem Normal.exists_behind : ∃ state : StateId,
    compiled.automaton.kernels[state.index]? = some [⟨copies, 1⟩] ∧
      compiled.automaton.Leads [.terminal letterKind] state.index := by
  have explored := compiled.explored
  have first : compiled.automaton.kernels[0]? = some [⟨copies + 1, 0⟩] := by
    rw [explored.first]
    unfold Automaton.startKernel
    rw [Rules.augmented_ofGrammar, normal.size]
  have begun : ⟨copies, 0⟩ ∈ closure (.ofGrammar grammar) [⟨copies + 1, 0⟩] :=
    (mem_closure (Rules.ofGrammar_consistent grammar)).mpr
      (.start (.kernel (List.mem_singleton_self _)) (normal.next_seed 0) normal.produced)
  obtain ⟨target, lookup⟩ := explored.lookup_edge first begun (normal.next_letter 0)
  have edge := mem_of_lookup lookup
  obtain ⟨kernel, found, among⟩ := explored.edge_kernel first edge
  have kernelEq : kernel = [⟨copies, 1⟩] := by
    rcases normal.successor List.mem_cons_self among with ⟨impossible, _⟩ | ⟨_, same⟩
    · cases impossible
    · exact same
  have inside := (Array.getElem?_eq_some_iff.mp found).1
  have fits := explored.size_le
  unfold Automaton.stateLimit at fits
  refine ⟨.ofIndex target, ?_⟩
  rw [StateId.index_ofIndex (by omega), ← kernelEq]
  exact ⟨found, .step .start edge⟩

/-- What is chosen behind the letter at the end of the input is the production of the letter, and what is
stored for it is the lower half of its number. -/
theorem Normal.reduces : ∃ state : StateId,
    (compiled.claims state.index).reducing KindId.endOfInput.index = some copies ∧
      table.action state .endOfInput = .reduce (.ofIndex copies) := by
  have consistent := Rules.ofGrammar_consistent grammar
  obtain ⟨state, found, leads⟩ := normal.exists_behind compiled
  have chosen : (compiled.claims state.index).reducing KindId.endOfInput.index = some copies := by
    have claims := compiled.reducing_ne_none normal.numbered normal.productive leads normal.canonical_letter
      (normal.next_letter 1)
    cases claimed : (compiled.claims state.index).reducing KindId.endOfInput.index with
    | none => exact absurd claimed claims
    | some number =>
        obtain ⟨item, closed, _, same⟩ := closed_of_reducing found claimed
        rw [← same, normal.closed_letter ((mem_closure consistent).mp closed)]
  have alone : (compiled.claims state.index).Ranges KindId.endOfInput.index fun _ => False := by
    apply claimsAt_ranges found
    intro item closed next
    rw [normal.closed_letter ((mem_closure consistent).mp closed), normal.next_letter] at next
    cases next
  refine ⟨state, chosen, ?_⟩
  rw [compiled.action_reduces (Array.getElem?_eq_some_iff.mp found).1
    (normal.canonical_letter.terminal_lt normal.numbered) chosen fun lowest highest shifts =>
      (alone lowest highest shifts).1.elim]
  unfold reduction
  rw [if_pos (by rw [normal.size]; exact Nat.lt_succ_self _)]

end Compiled

end Automaton

/-- However many blanks there are, the grammar is compiled, and the production of the letter is chosen behind
the letter. -/
theorem exists_reduction (name : String) (count : Nat) :
    ∃ (table : Table) (grammar : Grammar) (compiled : Compiled grammar table) (state : StateId),
      (declaration name count).compile = .ok table ∧ (declaration name count).normalize = .ok grammar ∧
      (compiled.claims state.index).reducing KindId.endOfInput.index = some (2 ^ count) ∧
      table.action state .endOfInput = .reduce (.ofIndex (2 ^ count)) := by
  obtain ⟨grammar, normalized, normal⟩ := exists_normal name count
  obtain ⟨automaton, made, few⟩ := normal.exists_automaton
  obtain ⟨table, compiles⟩ := exists_compile_of_few normal.numbered normal.productive normal.policy made
    (Nat.lt_of_le_of_lt few (by decide))
  obtain ⟨compiled⟩ := compile_ok compiles
  obtain ⟨state, chosen, acts⟩ := normal.reduces compiled
  exact ⟨table, grammar, compiled, state, bind_ok.mpr ⟨grammar, normalized, compiles⟩, normalized, chosen, acts⟩

/-- With sixteen blanks the production of the letter has the number 65536, and the first of the empty ones is
reduced in its place. -/
theorem reduces_first_copy : ∃ (table : Table) (grammar : Grammar) (compiled : Compiled grammar table)
    (state : StateId) (id : ProductionId),
    (declaration "blanks" 16).compile = .ok table ∧ (declaration "blanks" 16).normalize = .ok grammar ∧
    (compiled.claims state.index).reducing KindId.endOfInput.index = some 65536 ∧
    table.action state .endOfInput = .reduce id ∧ id.index = 0 := by
  obtain ⟨table, grammar, compiled, state, compiles, normalized, chosen, acts⟩ := exists_reduction "blanks" 16
  exact ⟨table, grammar, compiled, state, _, compiles, normalized, chosen, acts, rfl⟩

end IncrementalParsing.Blanks
