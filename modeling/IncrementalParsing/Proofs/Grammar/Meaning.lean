import IncrementalParsing.Proofs.Grammar.Numbering

/-!
What rules mean. A rule describes words of terminals: a literal text describes the terminal of this text, the
name of a token its terminal, the name of a rule whatever the rule describes, and so on along the rule.
Annotations describe nothing. Rules refer to each other, and the words that they describe are those with a
finite reason to be.

The numbers that names get are found again here: a name stands for the kind that the grammar lists under it.
-/

namespace IncrementalParsing

namespace Grammar

def IsLiteral (grammar : Grammar) (text : String) (kind : KindId) : Prop :=
  kind.index < grammar.terminalCount ∧
    (grammar.kinds.kinds[kind.index]?).map (fun info => (info.name, info.named)) = some (text, false)

def IsToken (grammar : Grammar) (name : String) (kind : KindId) : Prop :=
  2 ≤ kind.index ∧ kind.index < grammar.terminalCount ∧
    (grammar.kinds.kinds[kind.index]?).map (fun info => (info.name, info.named)) = some (name, true)

end Grammar

/-- The words that a rule of a declaration describes, in the terminals of a grammar. -/
inductive Declaration.Means (declaration : Declaration) (grammar : Grammar) : Rule → List KindId → Prop
  | blank : Means declaration grammar .blank []
  | literal {text : String} {kind : KindId} : grammar.IsLiteral text kind →
      Means declaration grammar (.literal text) [kind]
  | token {name : String} {kind : KindId} : grammar.IsToken name kind →
      Means declaration grammar (.symbol name) [kind]
  | rule {name : String} {body : Rule} {kinds : List KindId} : (name, body) ∈ declaration.rules →
      Means declaration grammar body kinds → Means declaration grammar (.symbol name) kinds
  | nil : Means declaration grammar (.sequence []) []
  | cons {rule : Rule} {rest : List Rule} {first others : List KindId} :
      Means declaration grammar rule first → Means declaration grammar (.sequence rest) others →
      Means declaration grammar (.sequence (rule :: rest)) (first ++ others)
  | choice {rule : Rule} {rules : List Rule} {kinds : List KindId} : rule ∈ rules →
      Means declaration grammar rule kinds → Means declaration grammar (.choice rules) kinds
  | once {body : Rule} {kinds : List KindId} : Means declaration grammar body kinds →
      Means declaration grammar (.repeated body) kinds
  | more {body : Rule} {first others : List KindId} : Means declaration grammar body first →
      Means declaration grammar (.repeated body) others →
      Means declaration grammar (.repeated body) (first ++ others)
  | precedence {level : Int} {assoc : Assoc} {rule : Rule} {kinds : List KindId} :
      Means declaration grammar rule kinds → Means declaration grammar (.precedence level assoc rule) kinds
  | field {name : String} {rule : Rule} {kinds : List KindId} : Means declaration grammar rule kinds →
      Means declaration grammar (.field name rule) kinds

theorem Declaration.Means.repeated_append {declaration : Declaration} {grammar : Grammar} {body : Rule}
    {first second : List KindId} (left : declaration.Means grammar (.repeated body) first)
    (right : declaration.Means grammar (.repeated body) second) :
    declaration.Means grammar (.repeated body) (first ++ second) := by
  generalize same : Rule.repeated body = rule at left
  induction left with
  | once here =>
      cases same
      exact .more here right
  | more here _ _ ih =>
      cases same
      rw [List.append_assoc]
      exact .more here (ih rfl)
  | blank => cases same
  | literal => cases same
  | token => cases same
  | rule => cases same
  | nil => cases same
  | cons => cases same
  | choice => cases same
  | precedence => cases same
  | field => cases same

/-! ### Names -/

theorem nodup_eraseDups (names : List String) : names.eraseDups.Nodup := by
  induction size : names.length using Nat.strongRecOn generalizing names with
  | ind length ih =>
      cases names with
      | nil => exact .nil
      | cons name rest =>
          rw [List.eraseDups_cons]
          have fewer : (rest.filter fun other => !other == name).length < length := by
            have bound := List.length_filter_le (fun other => !other == name) rest
            rw [← size, List.length_cons]
            omega
          refine List.nodup_cons.mpr ⟨fun member => ?_, ih _ fewer _ rfl⟩
          have kept := (List.mem_filter.mp (List.mem_eraseDups.mp member)).2
          simp at kept

theorem firstRepeated?_eq_none : ∀ {names : List String} {seen : Std.TreeSet String},
    firstRepeated? seen names = none → names.Nodup ∧ ∀ name, name ∈ names → seen.contains name = false
  | [], _seen, _nothing => ⟨.nil, fun _ member => absurd member List.not_mem_nil⟩
  | name :: rest, seen, nothing => by
      unfold firstRepeated? at nothing
      split at nothing
      · cases nothing
      · rename_i fresh
        obtain ⟨distinct, unseen⟩ := firstRepeated?_eq_none nothing
        have other : ∀ later, later ∈ rest → later ≠ name ∧ seen.contains later = false := by
          intro later member
          have away := unseen later member
          rw [Std.TreeSet.contains_insert, Bool.or_eq_false_iff] at away
          refine ⟨?_, away.2⟩
          rintro rfl
          simp at away
        refine ⟨List.nodup_cons.mpr ⟨fun member => (other name member).1 rfl, distinct⟩, ?_⟩
        intro wanted member
        rcases List.mem_cons.mp member with rfl | later
        · exact Bool.eq_false_iff.mpr fresh
        · exact (other wanted later).2

theorem ofList_getElem?_iff {β : Type} {pairs : List (String × β)} (distinct : (pairs.map (·.1)).Nodup)
    {name : String} {value : β} :
    (Std.TreeMap.ofList pairs)[name]? = some value ↔ (name, value) ∈ pairs := by
  have apart : pairs.Pairwise (fun left right => ¬ compare left.1 right.1 = .eq) := by
    refine (List.pairwise_map.mp distinct).imp ?_
    intro left right other equal
    exact other (Std.LawfulEqCmp.eq_of_compare equal)
  have finds : ∀ {other : β}, (name, other) ∈ pairs → (Std.TreeMap.ofList pairs)[name]? = some other :=
    fun member => Std.TreeMap.getElem?_ofList_of_mem Std.ReflCmp.compare_self apart member
  constructor
  · intro found
    by_cases listed : name ∈ pairs.map (·.1)
    · obtain ⟨⟨same, other⟩, member, rfl⟩ := List.mem_map.mp listed
      cases (finds member).symm.trans found
      exact member
    · have missing : (pairs.map (·.1)).contains name = false := by
        simpa using listed
      cases (Std.TreeMap.getElem?_ofList_of_contains_eq_false missing).symm.trans found
  · exact finds

namespace Declaration

variable {declaration : Declaration}

def firstLiteral (declaration : Declaration) : Nat :=
  reservedKinds.size + declaration.tokens.size + declaration.externals.size

theorem terminalKinds_getElem? (index : Nat) :
    (declaration.terminalKinds[index]?).map (fun info => (info.name, info.named)) =
      if index < 2 then (reservedKinds[index]?).map (fun info => (info.name, info.named))
      else if index < declaration.firstLiteral then
        ((declaration.tokens ++ declaration.externals)[index - 2]?).map (·, true)
      else (declaration.literalTexts[index - declaration.firstLiteral]?).map (·, false) := by
  have reserved : reservedKinds.size = 2 := rfl
  unfold terminalKinds firstLiteral
  rw [Array.getElem?_append, Array.getElem?_append]
  simp only [Array.size_append, Array.size_map, reserved, Nat.add_assoc]
  by_cases first : index < 2
  · rw [if_pos first, if_pos (by omega), if_pos first]
  · rw [if_neg first, if_neg first]
    by_cases second : index < 2 + (declaration.tokens.size + declaration.externals.size)
    · rw [if_pos second, if_pos second]
      simp only [Array.getElem?_map, Option.map_map]
      rfl
    · rw [if_neg second, if_neg second]
      simp only [List.getElem?_toArray, List.getElem?_map, Option.map_map]
      rfl

theorem checkNames_distinct (checked : declaration.checkNames = .ok ()) :
    (declaration.tokens.toList ++ declaration.externals.toList ++ declaration.ruleNames).Nodup := by
  cases found : firstRepeated? ∅
      (declaration.tokens.toList ++ declaration.externals.toList ++ declaration.ruleNames) with
  | none => exact (firstRepeated?_eq_none found).1
  | some name =>
      exfalso
      unfold checkNames at checked
      rw [found] at checked
      cases first : declaration.ruleNames.head? with
      | none =>
          rw [first] at checked
          cases checked
      | some start =>
          rw [first] at checked
          dsimp only at checked
          cases hidden : isHiddenName start with
          | true =>
              rw [hidden] at checked
              cases checked
          | false =>
              cases repeated : firstRepeated? ∅ declaration.ruleNames with
              | none =>
                  rw [hidden, repeated] at checked
                  cases checked
              | some rule =>
                  rw [hidden, repeated] at checked
                  cases checked

theorem mem_numbered {first : Nat} {names : List String} {name : String} {number : Nat} :
    (name, number) ∈ numbered first names ↔ first ≤ number ∧ names[number - first]? = some name :=
  List.mk_mem_zipIdx_iff_le_and_getElem?_sub

theorem literals_lookup {text : String} {kind : KindId} :
    declaration.names.literals[text]? = some kind ↔
      ∃ number, (text, number) ∈ numbered declaration.firstLiteral declaration.literalTexts ∧
        kind = .ofIndex number := by
  have keys : ((numbered declaration.firstLiteral declaration.literalTexts).map
      (fun entry => (entry.1, KindId.ofIndex entry.2))).map (·.1) = declaration.literalTexts := by
    unfold numbered
    rw [List.map_map]
    exact List.zipIdx_map_fst _ _
  have lookup : declaration.names.literals[text]? = some kind ↔
      (text, kind) ∈ (numbered declaration.firstLiteral declaration.literalTexts).map
        (fun entry => (entry.1, KindId.ofIndex entry.2)) :=
    ofList_getElem?_iff (keys.symm ▸ nodup_eraseDups _)
  rw [lookup, List.mem_map]
  constructor
  · rintro ⟨⟨same, number⟩, member, equal⟩
    cases equal
    exact ⟨number, member, rfl⟩
  · rintro ⟨number, member, rfl⟩
    exact ⟨_, member, rfl⟩

theorem symbols_lookup (named : declaration.checkNames = .ok ()) {name : String} {symbol : Symbol} :
    declaration.names.symbols[name]? = some symbol ↔
      (∃ number, (name, number) ∈
          numbered reservedKinds.size (declaration.tokens.toList ++ declaration.externals.toList) ∧
        symbol = .terminal (.ofIndex number)) ∨
      ∃ number, (name, number) ∈ numbered 0 declaration.ruleNames ∧
        symbol = .nonterminal (.ofIndex number) := by
  have keys : ((numbered reservedKinds.size (declaration.tokens.toList ++ declaration.externals.toList)).map
        (fun entry => (entry.1, Symbol.terminal (.ofIndex entry.2))) ++
      (numbered 0 declaration.ruleNames).map
        (fun entry => (entry.1, Symbol.nonterminal (.ofIndex entry.2)))).map (·.1) =
      declaration.tokens.toList ++ declaration.externals.toList ++ declaration.ruleNames := by
    unfold numbered
    rw [List.map_append, List.map_map, List.map_map]
    exact congr (congrArg _ (List.zipIdx_map_fst _ _)) (List.zipIdx_map_fst _ _)
  have lookup : declaration.names.symbols[name]? = some symbol ↔ _ :=
    ofList_getElem?_iff (keys.symm ▸ checkNames_distinct named)
  rw [lookup, List.mem_append, List.mem_map, List.mem_map]
  constructor
  · rintro (⟨⟨same, number⟩, member, equal⟩ | ⟨⟨same, number⟩, member, equal⟩)
    · cases equal
      exact Or.inl ⟨number, member, rfl⟩
    · cases equal
      exact Or.inr ⟨number, member, rfl⟩
  · rintro (⟨number, member, rfl⟩ | ⟨number, member, rfl⟩)
    · exact Or.inl ⟨_, member, rfl⟩
    · exact Or.inr ⟨_, member, rfl⟩

section Names

variable {grammar : Grammar} (normalized : declaration.normalize = .ok grammar)

include normalized

theorem normalize_terminalCount : grammar.terminalCount = declaration.names.terminalCount := by
  obtain ⟨_, _, _, _, _, rfl⟩ := normalize_ok normalized
  rfl

theorem normalize_terminal {index : Nat} (low : index < grammar.terminalCount) :
    grammar.kinds.kinds[index]? = declaration.terminalKinds[index]? := by
  obtain ⟨terminals, _, helpers, kinds, _⟩ := normalize_kinds normalized
  rw [kinds, Array.append_assoc, Array.getElem?_append_left (by rw [← terminals]; exact low)]

theorem normalize_fits : declaration.names.terminalCount + declaration.rules.size ≤ symbolLimit := by
  have numbered := normalize_numbered normalized
  have fits := numbered.kinds_le
  have room := numbered.rules_le
  obtain ⟨_, _, _, _, _, rfl⟩ := normalize_ok normalized
  exact Nat.le_trans room fits

omit normalized in
theorem terminalCount_eq (declaration : Declaration) : declaration.names.terminalCount =
    declaration.firstLiteral + declaration.literalTexts.length := by
  simp [names, firstLiteral, numbered]

theorem literals_getElem?_iff {text : String} {kind : KindId} :
    declaration.names.literals[text]? = some kind ↔ grammar.IsLiteral text kind := by
  have fits := normalize_fits normalized
  have count := normalize_terminalCount normalized
  have last := terminalCount_eq declaration
  have reserved : 2 ≤ declaration.firstLiteral := by
    unfold firstLiteral
    change 2 ≤ 2 + _ + _
    omega
  simp only [symbolLimit] at fits
  rw [literals_lookup]
  constructor
  · rintro ⟨number, member, rfl⟩
    obtain ⟨above, here⟩ := mem_numbered.mp member
    obtain ⟨inside, _⟩ := List.getElem?_eq_some_iff.mp here
    have index : (KindId.ofIndex number).index = number := KindId.index_ofIndex (by omega)
    have low : number < grammar.terminalCount := by omega
    refine ⟨index.symm ▸ low, ?_⟩
    rw [index, normalize_terminal normalized low, terminalKinds_getElem?, if_neg (by omega),
      if_neg (by omega), here]
    rfl
  · rintro ⟨low, known⟩
    rw [normalize_terminal normalized low, terminalKinds_getElem?] at known
    split at known
    · rename_i two
      obtain ⟨info, found, named⟩ := Option.map_eq_some_iff.mp known
      have reservedNamed : ∀ info, info ∈ reservedKinds → info.named = true := by decide
      have yes := reservedNamed info (Array.mem_of_getElem? found)
      cases yes.symm.trans (Prod.mk.inj named).2
    · split at known
      · obtain ⟨name, _, same⟩ := Option.map_eq_some_iff.mp known
        cases same
      · obtain ⟨name, here, same⟩ := Option.map_eq_some_iff.mp known
        cases same
        refine ⟨kind.index, mem_numbered.mpr ⟨by omega, here⟩, ?_⟩
        rw [KindId.ofIndex_index]

theorem symbols_getElem?_iff {name : String} {symbol : Symbol} :
    declaration.names.symbols[name]? = some symbol ↔
      (∃ number, (name, number) ∈
          numbered reservedKinds.size (declaration.tokens.toList ++ declaration.externals.toList) ∧
        symbol = .terminal (.ofIndex number)) ∨
      ∃ number, (name, number) ∈ numbered 0 declaration.ruleNames ∧
        symbol = .nonterminal (.ofIndex number) :=
  symbols_lookup (normalize_ok normalized).1

theorem symbols_terminal_iff {name : String} {kind : KindId} :
    declaration.names.symbols[name]? = some (.terminal kind) ↔ grammar.IsToken name kind := by
  have fits := normalize_fits normalized
  have count := normalize_terminalCount normalized
  have last := terminalCount_eq declaration
  have reserved : reservedKinds.size = 2 := rfl
  have tokens : declaration.firstLiteral = 2 + (declaration.tokens.size + declaration.externals.size) :=
    Nat.add_assoc _ _ _
  have listed : declaration.tokens.toList ++ declaration.externals.toList =
      (declaration.tokens ++ declaration.externals).toList := Array.toList_append.symm
  simp only [symbolLimit] at fits
  rw [symbols_getElem?_iff normalized, listed]
  constructor
  · rintro (⟨number, member, same⟩ | ⟨number, _, same⟩)
    · cases same
      obtain ⟨above, here⟩ := mem_numbered.mp member
      rw [Array.getElem?_toList, reserved] at here
      obtain ⟨inside, _⟩ := Array.getElem?_eq_some_iff.mp here
      rw [Array.size_append] at inside
      have index : (KindId.ofIndex number).index = number := KindId.index_ofIndex (by omega)
      have low : number < grammar.terminalCount := by omega
      refine ⟨index.symm ▸ above, index.symm ▸ low, ?_⟩
      rw [index, normalize_terminal normalized low, terminalKinds_getElem?, if_neg (by omega),
        if_pos (by omega), here]
      rfl
    · cases same
  · rintro ⟨above, low, known⟩
    rw [normalize_terminal normalized low, terminalKinds_getElem?, if_neg (by omega)] at known
    left
    split at known
    · obtain ⟨other, here, same⟩ := Option.map_eq_some_iff.mp known
      cases same
      refine ⟨kind.index, mem_numbered.mpr ⟨above, ?_⟩, by rw [KindId.ofIndex_index]⟩
      rw [Array.getElem?_toList, reserved]
      exact here
    · obtain ⟨other, _, same⟩ := Option.map_eq_some_iff.mp known
      cases same

theorem symbols_nonterminal_iff {name : String} {id : NonterminalId} :
    declaration.names.symbols[name]? = some (.nonterminal id) ↔
      ∃ (number : Nat) (body : Rule), declaration.rules[number]? = some (name, body) ∧ id = .ofIndex number := by
  rw [symbols_getElem?_iff normalized]
  constructor
  · rintro (⟨number, _, same⟩ | ⟨number, member, same⟩)
    · cases same
    · cases same
      obtain ⟨_, here⟩ := mem_numbered.mp member
      unfold ruleNames at here
      rw [List.getElem?_map, Array.getElem?_toList, Nat.sub_zero] at here
      obtain ⟨⟨_, body⟩, found, rfl⟩ := Option.map_eq_some_iff.mp here
      exact ⟨number, body, found, rfl⟩
  · rintro ⟨number, body, found, rfl⟩
    refine Or.inr ⟨number, mem_numbered.mpr ⟨Nat.zero_le _, ?_⟩, rfl⟩
    unfold ruleNames
    rw [List.getElem?_map, Array.getElem?_toList, Nat.sub_zero, found]
    rfl

end Names

end Declaration

end IncrementalParsing
