import IncrementalParsing.Proofs.Grammar.Meaning
import IncrementalParsing.Proofs.Parsing.Identity

/-!
Names of declarations. A token, an immediate token and a rule each get a number when they are
declared, and the kind of this number bears the name. A name is looked up among the named kinds, the
first of which wins; declarations come before the helpers of repetitions and have different names, so
a name finds its own declaration unless it is the name of a reserved kind. The scanner keeps tokens
from having such a name, and nothing keeps rules from it.
-/

namespace IncrementalParsing

def KindTable.Lists (table : KindTable) (number : Nat) (name : String) : Prop :=
  (table.kinds[number]?).map (fun info => (info.name, info.named)) = some (name, true)

/-- The number that a declaration gives to a name of its own. -/
inductive Declaration.Allots (declaration : Declaration) : String → Nat → Prop
  | token {name : String} {place : Nat} : declaration.tokens[place]? = some name →
      Allots declaration name (Declaration.reservedKinds.size + place)
  | external {name : String} {place : Nat} : declaration.externals[place]? = some name →
      Allots declaration name (Declaration.reservedKinds.size + declaration.tokens.size + place)
  | rule {name : String} {place : Nat} {body : Rule} : declaration.rules[place]? = some (name, body) →
      Allots declaration name (declaration.names.terminalCount + place)

/-! ### Looking names up -/

namespace KindTable

variable {table : KindTable} {name : String} {number : Nat}

theorem Lists.exists_info (lists : table.Lists number name) :
    ∃ info, table.kinds[number]? = some info ∧ info.name = name ∧ info.named = true := by
  obtain ⟨info, found, same⟩ := Option.map_eq_some_iff.mp lists
  exact ⟨info, found, (Prod.mk.inj same).1, (Prod.mk.inj same).2⟩

theorem kindId?_of_first (lists : table.Lists number name)
    (first : ∀ earlier, earlier < number → ¬ table.Lists earlier name) :
    table.kindId? name = some (.ofIndex number) := by
  obtain ⟨info, found, rfl, named⟩ := lists.exists_info
  obtain ⟨inside, here⟩ := Array.getElem?_eq_some_iff.mp found
  have place : table.kinds.findIdx? (fun other => other.named && other.name == info.name) = some number := by
    refine Array.findIdx?_eq_some_iff_getElem.mpr ⟨inside, ?_, fun earlier before matched => ?_⟩
    · rw [here, named, Bool.true_and]
      exact beq_self_eq_true _
    · refine first earlier before ?_
      rw [Bool.and_eq_true, beq_iff_eq] at matched
      unfold Lists
      rw [Array.getElem?_eq_getElem (Nat.lt_trans before inside), Option.map_some, matched.1, matched.2]
  unfold kindId?
  rw [place]

theorem kindId?_of_listed {wanted : String} (fits : table.kinds.size ≤ 65536)
    (found : table.kindId? wanted = some (.ofIndex number)) (lists : table.Lists number name) :
    table.kindId? name = some (.ofIndex number) := by
  obtain ⟨info, there, rfl, named⟩ := lists.exists_info
  obtain ⟨inside, here⟩ := Array.getElem?_eq_some_iff.mp there
  have same : ∀ other, other < table.kinds.size → KindId.ofIndex other = .ofIndex number → other = number := by
    intro other within equal
    have indices := congrArg KindId.index equal
    rw [KindId.index_ofIndex (by omega), KindId.index_ofIndex (by omega)] at indices
    exact indices
  have looked := found
  unfold kindId? at looked
  split at looked
  · rename_i place first
    obtain ⟨within, matched, _⟩ := Array.findIdx?_eq_some_iff_getElem.mp first
    cases same place within (Option.some.inj looked)
    rw [here, Bool.and_eq_true, beq_iff_eq] at matched
    rw [matched.2]
    exact found
  · rename_i none
    obtain ⟨distance, last, equal⟩ := Option.map_eq_some_iff.mp looked
    obtain ⟨within, matched, _⟩ := Array.findIdx?_eq_some_iff_getElem.mp last
    rw [Array.size_reverse] at within
    have place := same (table.kinds.size - 1 - distance) (by omega) equal
    rw [Array.getElem_reverse, beq_iff_eq] at matched
    simp only [place, here] at matched
    have unnamed := Array.findIdx?_eq_none_iff.mp none info (Array.mem_of_getElem? there)
    rw [named, matched, beq_self_eq_true] at unnamed
    cases unnamed

end KindTable

/-! ### Declared names -/

namespace Declaration

variable {declaration : Declaration} {name : String} {number : Nat}

def declaredNames (declaration : Declaration) : List String :=
  declaration.tokens.toList ++ declaration.externals.toList ++ declaration.ruleNames

def allotted (declaration : Declaration) (place : Nat) : Nat :=
  if place < declaration.tokens.size + declaration.externals.size then reservedKinds.size + place
  else declaration.names.terminalCount + (place - (declaration.tokens.size + declaration.externals.size))

theorem Allots.exists_place (allots : declaration.Allots name number) :
    ∃ place, declaration.declaredNames[place]? = some name ∧ declaration.allotted place = number := by
  cases allots with
  | @token place found =>
      obtain ⟨inside, _⟩ := Array.getElem?_eq_some_iff.mp found
      refine ⟨place, ?_, if_pos (by omega)⟩
      unfold declaredNames
      rw [List.append_assoc, List.getElem?_append_left (by rw [Array.length_toList]; exact inside),
        Array.getElem?_toList, found]
  | @external place found =>
      obtain ⟨inside, _⟩ := Array.getElem?_eq_some_iff.mp found
      refine ⟨declaration.tokens.size + place, ?_, ?_⟩
      · unfold declaredNames
        rw [List.append_assoc, List.getElem?_append_right (by simp), List.getElem?_append_left (by simpa using inside)]
        simpa using found
      · rw [allotted, if_pos (by omega), Nat.add_assoc]
  | @rule place body found =>
      refine ⟨declaration.tokens.size + declaration.externals.size + place, ?_, ?_⟩
      · unfold declaredNames ruleNames
        rw [List.getElem?_append_right (by simp)]
        simp [found]
      · rw [allotted, if_neg (by omega), Nat.add_sub_cancel_left]

theorem Allots.unique {other : Nat} (named : declaration.checkNames = .ok ())
    (first : declaration.Allots name number) (second : declaration.Allots name other) : number = other := by
  obtain ⟨left, leftFound, rfl⟩ := first.exists_place
  obtain ⟨right, rightFound, rfl⟩ := second.exists_place
  obtain ⟨inside, _⟩ := List.getElem?_eq_some_iff.mp leftFound
  exact congrArg _ ((List.getElem?_inj inside (checkNames_distinct named)).mp (leftFound.trans rightFound.symm))

section Normalized

variable {grammar : Grammar} (normalized : declaration.normalize = .ok grammar)

include normalized

theorem ruleKinds_getElem? {place : Nat} (inside : place < declaration.rules.size) :
    (grammar.kinds.kinds[declaration.names.terminalCount + place]?).map (fun info => (info.name, info.named)) =
      (declaration.ruleNames[place]?).map (·, true) := by
  obtain ⟨terminals, _, helpers, kinds, _⟩ := normalize_kinds normalized
  rw [normalize_terminalCount normalized] at terminals
  have size : (declaration.ruleNames.map (declaredInfo false)).toArray.size = declaration.rules.size := by
    simp [ruleNames]
  rw [kinds, Array.getElem?_append_left (by rw [Array.size_append, size]; omega),
    Array.getElem?_append_right (by omega), terminals, Nat.add_sub_cancel_left, List.getElem?_toArray,
    List.getElem?_map, Option.map_map]
  rfl

omit normalized in
theorem lt_of_allots (allots : declaration.Allots name number) :
    2 ≤ number ∧ number < declaration.names.terminalCount + declaration.rules.size := by
  have last := terminalCount_eq declaration
  have literals : declaration.firstLiteral = 2 + declaration.tokens.size + declaration.externals.size := rfl
  have reserved : reservedKinds.size = 2 := rfl
  cases allots with
  | token found =>
      have inside := (Array.getElem?_eq_some_iff.mp found).1
      omega
  | external found =>
      have inside := (Array.getElem?_eq_some_iff.mp found).1
      omega
  | rule found =>
      have inside := (Array.getElem?_eq_some_iff.mp found).1
      omega

theorem lists_of_allots (allots : declaration.Allots name number) : grammar.kinds.Lists number name := by
  have count := normalize_terminalCount normalized
  have last := terminalCount_eq declaration
  have literals : declaration.firstLiteral = 2 + declaration.tokens.size + declaration.externals.size := rfl
  have reserved : reservedKinds.size = 2 := rfl
  unfold KindTable.Lists
  cases allots with
  | token found =>
      have inside := (Array.getElem?_eq_some_iff.mp found).1
      rw [normalize_terminal normalized (by omega), terminalKinds_getElem?, if_neg (by omega), if_pos (by omega),
        reserved, Nat.add_sub_cancel_left, Array.getElem?_append_left inside, found]
      rfl
  | external found =>
      have inside := (Array.getElem?_eq_some_iff.mp found).1
      rw [normalize_terminal normalized (by omega), terminalKinds_getElem?, if_neg (by omega), if_pos (by omega),
        reserved, Nat.add_assoc, Nat.add_sub_cancel_left, Array.getElem?_append_right (Nat.le_add_right _ _),
        Nat.add_sub_cancel_left, found]
      rfl
  | rule found =>
      have inside := (Array.getElem?_eq_some_iff.mp found).1
      rw [ruleKinds_getElem? normalized inside]
      simp [ruleNames, found]

theorem allots_of_lists (declared : 2 ≤ number)
    (front : number < declaration.names.terminalCount + declaration.rules.size)
    (lists : grammar.kinds.Lists number name) : declaration.Allots name number := by
  have count := normalize_terminalCount normalized
  have reserved : reservedKinds.size = 2 := rfl
  unfold KindTable.Lists at lists
  rcases Nat.lt_or_ge number declaration.names.terminalCount with low | high
  · rw [normalize_terminal normalized (by omega), terminalKinds_getElem?, if_neg (by omega)] at lists
    split at lists
    · obtain ⟨found, there, same⟩ := Option.map_eq_some_iff.mp lists
      cases same
      rcases Nat.lt_or_ge (number - 2) declaration.tokens.size with token | external
      · rw [Array.getElem?_append_left token] at there
        have place : reservedKinds.size + (number - 2) = number := by omega
        exact place ▸ .token there
      · rw [Array.getElem?_append_right external] at there
        have place : reservedKinds.size + declaration.tokens.size + (number - 2 - declaration.tokens.size) =
            number := by omega
        exact place ▸ .external there
    · obtain ⟨found, there, same⟩ := Option.map_eq_some_iff.mp lists
      cases (Prod.mk.inj same).2
  · obtain ⟨place, rfl⟩ := Nat.exists_eq_add_of_le high
    rw [ruleKinds_getElem? normalized (by omega)] at lists
    obtain ⟨found, there, same⟩ := Option.map_eq_some_iff.mp lists
    cases same
    unfold ruleNames at there
    rw [List.getElem?_map, Array.getElem?_toList] at there
    obtain ⟨⟨rule, body⟩, here, rfl⟩ := Option.map_eq_some_iff.mp there
    exact .rule here

theorem lists_reserved (low : number < 2) :
    grammar.kinds.Lists number name ↔ ["end", "ERROR"][number]? = some name := by
  have reserved := (normalize_numbered normalized).reserved
  unfold KindTable.Lists
  rw [normalize_terminal normalized (Nat.lt_of_lt_of_le low reserved), terminalKinds_getElem?, if_pos low]
  match number, low with
  | 0, _ => simp [reservedKinds]
  | 1, _ => simp [reservedKinds]

theorem kindId?_of_allots (allots : declaration.Allots name number) :
    grammar.kinds.kindId? name = some (.ofIndex number) ↔ name ≠ "end" ∧ name ≠ "ERROR" := by
  obtain ⟨declared, front⟩ := lt_of_allots allots
  have fits := normalize_fits normalized
  simp only [symbolLimit] at fits
  have other : ∀ place, place < 2 → KindId.ofIndex place ≠ .ofIndex number := by
    intro place low same
    have indices := congrArg KindId.index same
    rw [KindId.index_ofIndex (by omega), KindId.index_ofIndex (by omega)] at indices
    omega
  constructor
  · intro found
    constructor
    · rintro rfl
      have zero : grammar.kinds.Lists 0 "end" := (lists_reserved normalized (by omega)).mpr rfl
      have first := KindTable.kindId?_of_first zero
        (fun earlier none => absurd none (Nat.not_lt_zero earlier))
      exact other 0 (by omega) (Option.some.inj (first.symm.trans found))
    · rintro rfl
      have one : grammar.kinds.Lists 1 "ERROR" := (lists_reserved normalized (by omega)).mpr rfl
      have first := KindTable.kindId?_of_first one
        (fun earlier before lists => by
          obtain rfl : earlier = 0 := by omega
          exact absurd ((lists_reserved normalized (by omega)).mp lists) (by decide))
      exact other 1 (by omega) (Option.some.inj (first.symm.trans found))
  · rintro ⟨notEnd, notError⟩
    refine KindTable.kindId?_of_first (lists_of_allots normalized allots) (fun earlier before lists => ?_)
    rcases Nat.lt_or_ge earlier 2 with low | above
    · have reserved := (lists_reserved normalized low).mp lists
      obtain rfl | rfl : earlier = 0 ∨ earlier = 1 := by omega
      · exact notEnd (Option.some.inj reserved).symm
      · exact notError (Option.some.inj reserved).symm
    · have again := allots_of_lists normalized above (Nat.lt_trans before front) lists
      exact Nat.ne_of_lt before (again.unique (normalize_ok normalized).1 allots)

theorem symbols_of_allots (allots : declaration.Allots name number) :
    (declaration.names.symbols[name]?).map grammar.symbolKind = some (.ofIndex number) := by
  obtain ⟨declared, front⟩ := lt_of_allots allots
  have fits := normalize_fits normalized
  have count := normalize_terminalCount normalized
  simp only [symbolLimit] at fits
  have lists := lists_of_allots normalized allots
  have terminal : number < declaration.names.terminalCount →
      (declaration.names.symbols[name]?).map grammar.symbolKind = some (.ofIndex number) := by
    intro low
    have index : (KindId.ofIndex number).index = number := KindId.index_ofIndex (by omega)
    have token : grammar.IsToken name (.ofIndex number) := by
      refine ⟨?_, ?_, ?_⟩
      · rw [index]
        exact declared
      · rw [index, count]
        exact low
      · rw [index]
        exact lists
    rw [(symbols_terminal_iff normalized).mpr token]
    rfl
  have last := terminalCount_eq declaration
  have literals : declaration.firstLiteral = 2 + declaration.tokens.size + declaration.externals.size := rfl
  have reserved : reservedKinds.size = 2 := rfl
  cases allots with
  | token found =>
      have inside := (Array.getElem?_eq_some_iff.mp found).1
      exact terminal (by omega)
  | external found =>
      have inside := (Array.getElem?_eq_some_iff.mp found).1
      exact terminal (by omega)
  | @rule place body found =>
      rw [(symbols_nonterminal_iff normalized).mpr ⟨place, body, found, rfl⟩]
      change some (KindId.ofIndex (grammar.terminalCount + (NonterminalId.ofIndex place).index)) = _
      rw [NonterminalId.index_ofIndex (by omega), count]

end Normalized

end Declaration

/-! ### Names of the scanner -/

namespace Lexer

theorem kindId?_of_resolve {table : Table} {declared : Array KindId} {names : List String} {kinds : List KindId}
    (resolved : resolve table declared names = .ok kinds) {kind : KindId} (member : kind ∈ kinds) :
    ∃ wanted, table.kinds.kindId? wanted = some kind := by
  obtain ⟨length, each⟩ := mapM_ok _ _ kinds resolved
  obtain ⟨place, inside, here⟩ := List.mem_iff_getElem.mp member
  obtain ⟨answer, there, looked⟩ := each place _ (List.getElem?_eq_getElem (length ▸ inside))
  cases (here ▸ List.getElem?_eq_getElem inside).symm.trans there
  split at looked
  · rename_i found known
    split at looked
    · cases looked
      exact ⟨_, known⟩
    · cases looked
  · cases looked

theorem exists_kindId?_of_make {table : Table} {scanner : Scanner} {lexer : Lexer}
    (made : Lexer.make table scanner = .ok lexer) {kind : KindId}
    (declared : kind ∈ table.lexical.tokens ∨ kind ∈ table.lexical.externals) :
    ∃ wanted, table.kinds.kindId? wanted = some kind := by
  unfold Lexer.make at made
  obtain ⟨tokens, resolvedTokens, made⟩ := bind_ok.mp made
  obtain ⟨externals, resolvedExternals, made⟩ := bind_ok.mp made
  dsimp only at made
  split at made
  · cases made
  · rename_i scanned
    have listed : kind ∈ table.lexical.tokens.toList ++ table.lexical.externals.toList := by
      simpa using declared
    have produced := List.find?_eq_none.mp (Option.eq_none_iff_forall_ne_some.mpr scanned) kind listed
    rw [Bool.and_eq_true, Bool.not_eq_true', Bool.not_eq_true'] at produced
    by_cases token : kind ∈ tokens
    · exact kindId?_of_resolve resolvedTokens token
    · by_cases external : kind ∈ externals
      · exact kindId?_of_resolve resolvedExternals external
      · exact absurd ⟨by simpa using token, by simpa using external⟩ produced

end Lexer

/-! ### Names of a language -/

theorem Declaration.Allots.rule_or_lexical {declaration : Declaration} {name : String} {number : Nat}
    (allots : declaration.Allots name number) : name ∈ declaration.ruleNames ∨
      KindId.ofIndex number ∈ declaration.lexicalGrammar.tokens ∨
      KindId.ofIndex number ∈ declaration.lexicalGrammar.externals := by
  cases allots with
  | @token place found =>
      have inside := (Array.getElem?_eq_some_iff.mp found).1
      exact .inr (.inl (Array.mem_map.mpr ⟨place, Array.mem_range.mpr inside, rfl⟩))
  | @external place found =>
      have inside := (Array.getElem?_eq_some_iff.mp found).1
      exact .inr (.inr (Array.mem_map.mpr ⟨place, Array.mem_range.mpr inside, rfl⟩))
  | rule found =>
      exact .inl (List.mem_map.mpr ⟨_, Array.mem_toList_iff.mpr (Array.mem_of_getElem? found), rfl⟩)

/-- In an accepted language a declared name stands for the kind of its declaration, which has the
number allotted to it, bears the name and is what rules mean by the name. The name is looked up to the
same kind if and only if it is not one of the reserved kinds', and only rules can have such a name. -/
theorem Language.names_resolve {declaration : Declaration} {scanner : Scanner} {language : Language}
    (compiled : Language.compile declaration scanner = .ok language) {name : String} {number : Nat}
    (allots : declaration.Allots name number) :
    (KindId.ofIndex number).index = number ∧
      language.table.kinds.name (.ofIndex number) = name ∧
      (declaration.names.symbols[name]?).map language.table.symbolKind = some (.ofIndex number) ∧
      (language.table.kinds.kindId? name = some (.ofIndex number) ↔ name ≠ "end" ∧ name ≠ "ERROR") ∧
      (name = "end" ∨ name = "ERROR" → name ∈ declaration.ruleNames) := by
  obtain ⟨tableCompiled, lexerMade⟩ := Language.compile_ok.mp compiled
  obtain ⟨grammar, normalized, tableMade⟩ := bind_ok.mp tableCompiled
  obtain ⟨made⟩ := Lalr.compile_ok tableMade
  have numbered := Declaration.normalize_numbered normalized
  have listed := Declaration.lists_of_allots normalized allots
  have looked := Declaration.kindId?_of_allots normalized allots
  have fits := Declaration.normalize_fits normalized
  have front := (Declaration.lt_of_allots allots).2
  have sizes := numbered.kinds_le
  simp only [Declaration.symbolLimit] at fits sizes
  have index : (KindId.ofIndex number).index = number := KindId.index_ofIndex (by omega)
  have symbols : language.table.symbolKind = grammar.symbolKind := funext made.symbolKind_eq
  rw [made.kinds_eq, symbols]
  refine ⟨index, ?_, Declaration.symbols_of_allots normalized allots, looked, fun reserved => ?_⟩
  · obtain ⟨info, found, same, _⟩ := listed.exists_info
    unfold KindTable.name
    rw [index, found]
    exact same
  · rcases allots.rule_or_lexical with rule | lexical
    · exact rule
    · exfalso
      have lexicalEq : language.table.lexical = declaration.lexicalGrammar := by
        rw [made.table_eq]
        obtain ⟨_, _, _, _, _, rfl⟩ := Declaration.normalize_ok normalized
        rfl
      obtain ⟨wanted, found⟩ := Lexer.exists_kindId?_of_make lexerMade (lexicalEq ▸ lexical)
      rw [made.kinds_eq] at found
      have own := KindTable.kindId?_of_listed (Nat.le_trans sizes (by decide)) found listed
      rcases reserved with rfl | rfl
      · exact (looked.mp own).1 rfl
      · exact (looked.mp own).2 rfl

/-! ### Namesakes of other kinds -/

namespace Homonyms

/-- A rule with the name of a helper of another rule, and rules with the names of literals. -/
def declaration : Declaration :=
  { Declaration.empty "homonyms" with
    rules := #[("s", .sequence [.symbol "s_repeat1", .repeated (.literal "t"), .symbol "t"]),
      ("s_repeat1", .literal "s"), ("t", .literal "s_repeat1")] }

def ending : Declaration :=
  { Declaration.empty "ending" with rules := #[("s", .symbol "end"), ("end", .literal "a")] }

theorem compiles : (Language.compile declaration Pairs.scanner).toOption.isSome = true ∧
    (Language.compile ending Pairs.scanner).toOption.isSome = true := by
  refine ⟨?_, ?_⟩ <;> decide +kernel

end Homonyms

/-- The rule `s_repeat1` is found by its name, and neither the literal nor the helper. -/
theorem Language.names_resolve_homonyms : ∃ language,
    Language.compile Homonyms.declaration Pairs.scanner = .ok language ∧
    Homonyms.declaration.Allots "s_repeat1" 6 ∧
    language.table.kinds.kindId? "s_repeat1" = some (.ofIndex 6) := by
  have allots : Homonyms.declaration.Allots "s_repeat1" 6 :=
    .rule (show Homonyms.declaration.rules[1]? = some ("s_repeat1", .literal "s") from rfl)
  obtain ⟨_, _, _, found, _⟩ := Language.names_resolve (eq_ok_get Homonyms.compiles.1) allots
  exact ⟨_, eq_ok_get Homonyms.compiles.1, allots, found.mpr (by decide)⟩

/-- A rule with the name of a reserved kind is accepted, and its name finds the reserved kind. -/
theorem Language.names_shadowed : ∃ language,
    Language.compile Homonyms.ending Pairs.scanner = .ok language ∧
    Homonyms.ending.Allots "end" 4 ∧
    language.table.kinds.kindId? "end" = some .endOfInput ∧ KindId.endOfInput ≠ .ofIndex 4 := by
  have allots : Homonyms.ending.Allots "end" 4 :=
    .rule (show Homonyms.ending.rules[1]? = some ("end", .literal "a") from rfl)
  refine ⟨_, eq_ok_get Homonyms.compiles.2, allots, ?_, by decide⟩
  decide +kernel

end IncrementalParsing
