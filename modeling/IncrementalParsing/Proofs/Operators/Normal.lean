import IncrementalParsing.Proofs.Grammar.Derivation
import IncrementalParsing.Proofs.Grammar.Meaning
import IncrementalParsing.Proofs.Operators.Grouping
import Mathlib.Data.List.FinRange

/-!
The normal form of a grammar of operators. An expression is an operand or two expressions with an operator
between them. Every operator has one production, which carries its level and its side; the production of
operands comes last.
-/

namespace IncrementalParsing

def Side.assoc : Side → Assoc
  | left => .left
  | right => .right

def Operator.rule (operator : Operator) : Rule :=
  .precedence operator.level operator.side.assoc (.sequence [.symbol "e", .literal operator.text, .symbol "e"])

namespace Operators

variable (operators : Operators)

/-- The grammar with operands `n` and the single rule `e`. -/
def declaration (name : String) : Declaration :=
  { Declaration.empty name with
    tokens := #["n"]
    rules := #[("e", .choice (operators.list.map Operator.rule ++ [.symbol "n"]))] }

def operandKind : KindId := .ofIndex 2

def kind (index : operators.Index) : KindId := .ofIndex (3 + index)

def production (index : operators.Index) : Production :=
  let step (symbol : Symbol) : Step := ⟨symbol, none, operators.level index⟩
  { lhs := Grammar.start
    steps := [step (.nonterminal Grammar.start), step (.terminal (operators.kind index)),
      step (.nonterminal Grammar.start)]
    precedence := operators.level index
    assoc := (operators.side index).assoc
    kind := .plain }

def operandProduction : Production :=
  { lhs := Grammar.start
    steps := [⟨.terminal operandKind, none, 0⟩]
    precedence := 0
    assoc := .none
    kind := .plain }

def productions : List Production :=
  (List.finRange operators.list.length).map operators.production ++ [operandProduction]

structure Normal (grammar : Grammar) : Prop where
  numbered : grammar.Numbered
  productive : grammar.unproductive? = none
  terminals : grammar.terminalCount = operators.list.length + 3
  kinds : grammar.kinds.size = operators.list.length + 4
  productions : grammar.productions.toList = operators.productions

variable {operators} {name : String}

theorem length_pos : 0 < operators.list.length := List.length_pos_iff.mpr operators.nonempty

theorem length_lt : operators.list.length < 32767 := by
  have fit := operators.fit
  unfold Lalr.Automaton.stateLimit at fit
  omega

/-! ### Names -/

theorem eraseDups_of_nodup : ∀ {names : List String}, names.Nodup → names.eraseDups = names
  | [], _distinct => rfl
  | name :: rest, distinct => by
      obtain ⟨fresh, others⟩ := List.nodup_cons.mp distinct
      have kept : rest.filter (fun other => !other == name) = rest := by
        apply List.filter_eq_self.mpr
        intro other member
        have away : other ≠ name := fun same => fresh (same ▸ member)
        simpa using away
      rw [List.eraseDups_cons, kept, eraseDups_of_nodup others]

theorem literalsOfAll_rules : ∀ list : List Operator,
    Rule.literalsOfAll (list.map Operator.rule ++ [.symbol "n"]) = list.map (·.text)
  | [] => rfl
  | operator :: rest => congrArg (operator.text :: ·) (literalsOfAll_rules rest)

theorem literals_body :
    (Rule.choice (operators.list.map Operator.rule ++ [.symbol "n"])).literals = operators.list.map (·.text) :=
  literalsOfAll_rules operators.list

theorem literalTexts_eq : (operators.declaration name).literalTexts = operators.list.map (·.text) := by
  change (List.flatMap _ [_]).eraseDups = _
  rw [List.flatMap_singleton, literals_body]
  exact eraseDups_of_nodup operators.distinct

theorem emptyLiteralRule?_eq : (operators.declaration name).emptyLiteralRule? = none := by
  have none : (operators.list.map (·.text)).contains "" = false := by
    rw [List.contains_eq_mem, decide_eq_false_iff_not]
    intro member
    obtain ⟨operator, listed, empty⟩ := List.mem_map.mp member
    exact operators.named operator listed empty
  unfold Declaration.emptyLiteralRule?
  change Option.map _ (List.find? _ [_]) = _
  rw [List.find?_singleton, literals_body, none]
  rfl

theorem checkNames_eq : (operators.declaration name).checkNames = .ok () := by
  have rules : (operators.declaration name).ruleNames = ["e"] := rfl
  have once : firstRepeated? ∅ ["e"] = none := by decide +kernel
  have apart : firstRepeated? ∅ ((operators.declaration name).tokens.toList ++
      (operators.declaration name).externals.toList ++ ["e"]) = none := by
    change firstRepeated? ∅ ["n", "e"] = none
    decide +kernel
  unfold Declaration.checkNames
  rw [rules]
  dsimp only [List.head?_cons]
  rw [show isHiddenName "e" = false by decide, once, apart]
  rfl

variable (operators) in
structure Named (names : Flatten.Names) : Prop where
  expression : names.symbols["e"]? = some (.nonterminal Grammar.start)
  operand : names.symbols["n"]? = some (.terminal operandKind)
  operator : ∀ index : operators.Index, names.literals[(operators.list.get index).text]? = some (operators.kind index)

theorem names_named : operators.Named (operators.declaration name).names := by
  have symbols : (operators.declaration name).names.symbols =
      Std.TreeMap.ofList [("n", Symbol.terminal operandKind), ("e", .nonterminal Grammar.start)] := rfl
  have apart : (([("n", .terminal operandKind), ("e", .nonterminal Grammar.start)] :
      List (String × Symbol)).map (·.1)).Nodup := by decide
  have literals : (operators.declaration name).names.literals = Std.TreeMap.ofList
      ((Declaration.numbered 3 (operators.list.map (·.text))).map fun entry => (entry.1, KindId.ofIndex entry.2)) := by
    rw [← literalTexts_eq]
    rfl
  have keys : ((Declaration.numbered 3 (operators.list.map (·.text))).map
      fun entry => (entry.1, KindId.ofIndex entry.2)).map (·.1) = operators.list.map (·.text) := by
    unfold Declaration.numbered
    rw [List.map_map]
    exact List.zipIdx_map_fst _ _
  constructor
  · rw [symbols]
    exact (ofList_getElem?_iff apart).mpr (List.mem_cons_of_mem _ List.mem_cons_self)
  · rw [symbols]
    exact (ofList_getElem?_iff apart).mpr List.mem_cons_self
  · intro index
    rw [literals]
    apply (ofList_getElem?_iff (keys.symm ▸ operators.distinct)).mpr
    refine List.mem_map.mpr ⟨(_, 3 + index), Declaration.mem_numbered.mpr ⟨Nat.le_add_right _ _, ?_⟩, rfl⟩
    rw [Nat.add_sub_cancel_left, List.getElem?_map, List.getElem?_eq_getElem index.isLt]
    rfl

/-! ### Productions -/

theorem expand_rule {names : Flatten.Names} (named : operators.Named names) (index : operators.Index)
    (state : Flatten.State) :
    ∃ alternative, Flatten.expand names .plain (operators.list.get index).rule state = .ok ([alternative], state) ∧
      alternative.production Grammar.start .plain .plain = operators.production index := by
  unfold Operator.rule
  simp only [Flatten.expand, Flatten.expandSequence, named.expression, named.operator, ok_bind]
  exact ⟨_, rfl, rfl⟩

theorem expandChoice_rules {names : Flatten.Names} (named : operators.Named names) (state : Flatten.State) :
    ∀ indices : List operators.Index, ∃ alternatives,
      Flatten.expandChoice names .plain
        (indices.map (fun index => (operators.list.get index).rule) ++ [.symbol "n"]) state =
          .ok (alternatives, state) ∧
      alternatives.map (·.production Grammar.start .plain .plain) =
        indices.map operators.production ++ [operandProduction]
  | [] => by
      have single : Flatten.expand names .plain (.symbol "n") state =
          .ok ([.single .plain (.terminal operandKind)], state) := by
        unfold Flatten.expand
        rw [named.operand]
      refine ⟨[.single .plain (.terminal operandKind)], ?_, rfl⟩
      rw [List.map_nil, List.nil_append]
      unfold Flatten.expandChoice
      rw [single, ok_bind]
      unfold Flatten.expandChoice
      rfl
  | index :: rest => by
      obtain ⟨alternative, here, same⟩ := expand_rule named index state
      obtain ⟨alternatives, later, others⟩ := expandChoice_rules named state rest
      refine ⟨alternative :: alternatives, ?_, ?_⟩
      · rw [List.map_cons, List.cons_append]
        unfold Flatten.expandChoice
        rw [here, ok_bind]
        dsimp only
        rw [later]
        rfl
      · rw [List.map_cons, List.map_cons, List.cons_append, same, others]

theorem rules_eq {names : Flatten.Names} (named : operators.Named names) (kinds : KindTable) :
    ∃ helpers, Flatten.rules names 0 (operators.declaration name).rules.toList ⟨kinds, #[], 0⟩ =
      .ok ⟨kinds, operators.productions.toArray, helpers⟩ := by
  have indices : (List.finRange operators.list.length).map (fun index => (operators.list.get index).rule) =
      operators.list.map Operator.rule := by
    have listed := congrArg (List.map Operator.rule) (List.map_getElem_finRange operators.list)
    rwa [List.map_map] at listed
  have renamed : operators.Named { names with rule := "e" } := ⟨named.expression, named.operand, named.operator⟩
  obtain ⟨alternatives, flattened, same⟩ :=
    expandChoice_rules renamed ⟨kinds, #[], 0⟩ (List.finRange operators.list.length)
  rw [indices] at flattened
  have expanded : Flatten.expand { names with rule := "e" } .plain
      (.choice (operators.list.map Operator.rule ++ [.symbol "n"])) ⟨kinds, #[], 0⟩ =
      .ok (alternatives, ⟨kinds, #[], 0⟩) := by
    unfold Flatten.expand
    exact flattened
  refine ⟨0, ?_⟩
  change Flatten.rules names 0 [_] _ = _
  unfold Flatten.rules Flatten.rule
  dsimp only
  rw [expanded, ok_bind]
  unfold Flatten.rules
  unfold productions
  rw [← same]
  simp only [pure, Except.pure, ok_bind, Array.empty_append]
  rfl

theorem unproductive?_eq {grammar : Grammar} (productions : grammar.productions.toList = operators.productions)
    (single : grammar.nonterminalCount = 1) : grammar.unproductive? = none := by
  apply Grammar.unproductive?_of_single single
  · intro production member
    rw [productions] at member
    rcases List.mem_append.mp member with binary | operand
    · obtain ⟨index, _, rfl⟩ := List.mem_map.mp binary
      rfl
    · rw [List.mem_singleton.mp operand]
      rfl
  · rw [productions]
    exact ⟨operandProduction, List.mem_append_right _ (List.mem_singleton_self _), rfl⟩

theorem exists_normal (operators : Operators) (name : String) :
    ∃ grammar, (operators.declaration name).normalize = .ok grammar ∧ operators.Normal grammar := by
  have small := @length_lt operators
  have terminals : (operators.declaration name).names.terminalCount = operators.list.length + 3 := by
    rw [Declaration.terminalCount_eq, literalTexts_eq, List.length_map]
    change 3 + _ = _
    omega
  obtain ⟨kinds, kindsEq⟩ : ∃ kinds, kinds = (operators.declaration name).terminalKinds ++
      ((operators.declaration name).ruleNames.map (Declaration.declaredInfo false)).toArray := ⟨_, rfl⟩
  have size : kinds.size = operators.list.length + 4 := by
    rw [kindsEq, Array.size_append, Declaration.terminalKinds_size, terminals]
    rfl
  have named : operators.Named (operators.declaration name).names := names_named
  obtain ⟨helpers, flattened⟩ := @rules_eq operators name _ named ⟨kinds, #[]⟩
  obtain ⟨grammar, grammarEq⟩ : ∃ grammar : Grammar, grammar =
      { name := name
        version := 1
        kinds := ⟨kinds, #[]⟩
        terminalCount := (operators.declaration name).names.terminalCount
        ruleCount := 1
        productions := operators.productions.toArray
        lexical := (operators.declaration name).lexicalGrammar
        policy := .strict } := ⟨_, rfl⟩
  have listed : grammar.productions.toList = operators.productions := by rw [grammarEq]
  have productive : grammar.unproductive? = none := by
    apply unproductive?_eq listed
    rw [grammarEq]
    change kinds.size - (operators.declaration name).names.terminalCount = 1
    omega
  have fits : kinds.size ≤ Declaration.symbolLimit := by
    unfold Declaration.symbolLimit
    omega
  have normalized : (operators.declaration name).normalize = .ok grammar := by
    subst kindsEq
    exact Declaration.normalize_of checkNames_eq emptyLiteralRule?_eq flattened fits productive grammarEq
  refine ⟨grammar, normalized, Declaration.normalize_numbered normalized, productive, ?_, ?_, listed⟩
  · rw [grammarEq]
    exact terminals
  · rw [grammarEq]
    exact size

end Operators

end IncrementalParsing
