import IncrementalParsing.Grammar.Normalize
import IncrementalParsing.Proofs.Outcome

/-!
The numbers of a normal form. Every symbol of a grammar in normal form has a number of its own that
fits 16 bits: terminals of productions lie between the reserved kinds and the nonterminals, and the
helpers of repetitions behind the declared rules. A helper has productions of the two shapes that
ropes are made of, and no declared rule has one.
-/

namespace IncrementalParsing

def Symbol.Within (terminals kinds : Nat) : Symbol → Prop
  | .terminal kind => 2 ≤ kind.index ∧ kind.index < terminals
  | .nonterminal id => terminals + id.index < kinds

/-- What a production of a grammar with `terminals` terminals, `rules` declared rules and `kinds`
kinds looks like. -/
structure Production.Numbered (terminals rules kinds : Nat) (production : Production) : Prop where
  lhs_lt : terminals + production.lhs.index < kinds
  symbols : ∀ symbol, symbol ∈ production.symbols → symbol.Within terminals kinds
  plain : production.kind = .plain → production.lhs.index < rules
  base : production.kind = .repeatBase → rules ≤ production.lhs.index ∧ production.steps ≠ []
  join : production.kind = .repeatJoin →
    rules ≤ production.lhs.index ∧ production = Flatten.joinProduction production.lhs

structure Grammar.Numbered (grammar : Grammar) : Prop where
  reserved : 2 ≤ grammar.terminalCount
  rules_pos : 0 < grammar.ruleCount
  rules_le : grammar.terminalCount + grammar.ruleCount ≤ grammar.kinds.size
  kinds_le : grammar.kinds.size ≤ Declaration.symbolLimit
  productions : ∀ production, production ∈ grammar.productions →
    production.Numbered grammar.terminalCount grammar.ruleCount grammar.kinds.size
  tokens : ∀ kind, kind ∈ grammar.lexical.tokens → 2 ≤ kind.index ∧ kind.index < grammar.terminalCount
  externals : ∀ kind, kind ∈ grammar.lexical.externals →
    2 ≤ kind.index ∧ kind.index < grammar.terminalCount
  literals : ∀ text kind, (text, kind) ∈ grammar.lexical.literals →
    2 ≤ kind.index ∧ kind.index < grammar.terminalCount

/-- A symbol that the grammar has a number for, whether a production has it or not. -/
def Grammar.Has (grammar : Grammar) : Symbol → Prop
  | .terminal kind => kind.index < grammar.terminalCount
  | .nonterminal id => id.index < grammar.nonterminalCount

theorem Symbol.Within.has {grammar : Grammar} :
    ∀ {symbol : Symbol}, symbol.Within grammar.terminalCount grammar.kinds.size → grammar.Has symbol
  | .terminal _, within => within.2
  | .nonterminal id, within => by
      have bound : grammar.terminalCount + id.index < grammar.kinds.size := within
      change id.index < grammar.kinds.size - grammar.terminalCount
      omega

theorem Symbol.Within.mono {terminals kinds more : Nat} (le : kinds ≤ more) :
    ∀ {symbol : Symbol}, symbol.Within terminals kinds → symbol.Within terminals more
  | .terminal _, within => within
  | .nonterminal _, within => Nat.lt_of_lt_of_le within le

theorem Production.Numbered.mono {terminals rules kinds more : Nat} {production : Production}
    (le : kinds ≤ more) (numbered : production.Numbered terminals rules kinds) :
    production.Numbered terminals rules more where
  lhs_lt := Nat.lt_of_lt_of_le numbered.lhs_lt le
  symbols symbol member := (numbered.symbols symbol member).mono le
  plain := numbered.plain
  base := numbered.base
  join := numbered.join

theorem NonterminalId.index_ofIndex {index : Nat} (small : index < 65536) :
    (NonterminalId.ofIndex index).index = index := by
  simpa [NonterminalId.index, NonterminalId.ofIndex] using small

theorem ProductionId.index_ofIndex {index : Nat} (small : index < 65536) :
    (ProductionId.ofIndex index).index = index := by
  simpa [ProductionId.index, ProductionId.ofIndex] using small

theorem StateId.index_ofIndex {index : Nat} (small : index < 65536) :
    (StateId.ofIndex index).index = index := by
  simpa [StateId.index, StateId.ofIndex] using small

theorem NonterminalId.ofIndex_index (id : NonterminalId) : ofIndex id.index = id := by
  cases id with | mk raw => simp [NonterminalId.index, ofIndex]

theorem StateId.ofIndex_index (state : StateId) : ofIndex state.index = state := by
  cases state with | mk raw => simp [StateId.index, ofIndex]

theorem ofList_getElem? {β : Type} (pairs : List (String × β)) (name : String) (value : β)
    (found : (Std.TreeMap.ofList pairs)[name]? = some value) :
    ∃ key, (key, value) ∈ pairs := by
  have scan : ∀ (rest : List (String × β)) (map : Std.TreeMap String β),
      (map.insertMany rest)[name]? = some value →
      map[name]? = some value ∨ ∃ key, (key, value) ∈ rest := by
    intro rest
    induction rest with
    | nil => exact fun _ present => Or.inl present
    | cons pair rest ih =>
        intro map present
        rw [Std.TreeMap.insertMany_cons] at present
        rcases ih (map.insert pair.1 pair.2) present with inserted | ⟨key, later⟩
        · rw [Std.TreeMap.getElem?_insert] at inserted
          split at inserted
          · cases inserted
            exact Or.inr ⟨pair.1, List.mem_cons_self⟩
          · exact Or.inl inserted
        · exact Or.inr ⟨key, List.mem_cons_of_mem pair later⟩
  rw [Std.TreeMap.ofList_eq_insertMany_empty] at found
  rcases scan pairs ∅ found with impossible | present
  · simp at impossible
  · exact present

namespace Flatten

structure Names.Numbered (names : Names) (rules : Nat) : Prop where
  symbols : ∀ (name : String) (symbol : Symbol), names.symbols[name]? = some symbol →
    symbol.Within names.terminalCount (names.terminalCount + rules)
  literals : ∀ (text : String) (kind : KindId), names.literals[text]? = some kind →
    2 ≤ kind.index ∧ kind.index < names.terminalCount

def Names.NumberedIfSmall (names : Names) (rules : Nat) : Prop :=
  names.terminalCount + rules ≤ Declaration.symbolLimit → names.Numbered rules

/-- The alternatives found so far have symbols among the kinds known so far. -/
def AllWithin (terminals kinds : Nat) (alternatives : List Alternative) : Prop :=
  ∀ alternative, alternative ∈ alternatives →
    ∀ step, step ∈ alternative.steps → step.symbol.Within terminals kinds

def Appends (before after : Array KindInfo) : Prop :=
  ∃ helpers, after = before ++ helpers ∧
    ∀ info, info ∈ helpers → ∃ rule number, info = helperInfo rule number

theorem Appends.refl (kinds : Array KindInfo) : Appends kinds kinds :=
  ⟨#[], Array.append_empty.symm, fun info none => absurd none (Array.not_mem_empty info)⟩

theorem Appends.trans {first second third : Array KindInfo} (before : Appends first second)
    (after : Appends second third) : Appends first third := by
  obtain ⟨left, rfl, leftHelpers⟩ := before
  obtain ⟨right, rfl, rightHelpers⟩ := after
  refine ⟨left ++ right, Array.append_assoc, ?_⟩
  intro info member
  rcases Array.mem_append.mp member with old | new
  · exact leftHelpers info old
  · exact rightHelpers info new

theorem Appends.push (kinds : KindTable) (rule : String) (number : Nat) :
    Appends kinds.kinds (kinds.push (helperInfo rule number)).1.kinds := by
  refine ⟨#[helperInfo rule number], rfl, ?_⟩
  intro info member
  rw [List.mem_toArray, List.mem_singleton] at member
  exact ⟨rule, number, member⟩

/-- What flattening a part of a rule does to the state: only helpers are added to the kinds, and as
long as they fit 16 bits the productions stay in shape. -/
structure Grows (terminals rules : Nat) (before after : State) : Prop where
  kinds : Appends before.kinds.kinds after.kinds.kinds
  productions : after.kinds.size ≤ Declaration.symbolLimit →
    (∀ production, production ∈ before.productions →
      production.Numbered terminals rules before.kinds.size) →
    ∀ production, production ∈ after.productions →
      production.Numbered terminals rules after.kinds.size

theorem Grows.kinds_le {terminals rules : Nat} {before after : State}
    (grows : Grows terminals rules before after) : before.kinds.size ≤ after.kinds.size := by
  obtain ⟨helpers, same, _⟩ := grows.kinds
  unfold KindTable.size
  rw [same, Array.size_append]
  exact Nat.le_add_right _ _

theorem Grows.refl (terminals rules : Nat) (state : State) : Grows terminals rules state state where
  kinds := .refl _
  productions _fits kept := kept

theorem Grows.trans {terminals rules : Nat} {first second third : State}
    (before : Grows terminals rules first second) (after : Grows terminals rules second third) :
    Grows terminals rules first third where
  kinds := before.kinds.trans after.kinds
  productions fits kept :=
    after.productions fits (before.productions (Nat.le_trans after.kinds_le fits) kept)

/-- What flattening a part of a rule answers: its alternatives have symbols among the kinds known
afterwards. -/
structure Expands (terminals rules : Nat) (before : State) (alternatives : List Alternative)
    (after : State) : Prop where
  grows : Grows terminals rules before after
  within : after.kinds.size ≤ Declaration.symbolLimit →
    AllWithin terminals after.kinds.size alternatives

theorem AllWithin.mono {terminals kinds more : Nat} {alternatives : List Alternative}
    (le : kinds ≤ more) (within : AllWithin terminals kinds alternatives) :
    AllWithin terminals more alternatives :=
  fun alternative member step among => (within alternative member step among).mono le

theorem AllWithin.append {terminals kinds : Nat} {first second : List Alternative}
    (left : AllWithin terminals kinds first) (right : AllWithin terminals kinds second) :
    AllWithin terminals kinds (first ++ second) := by
  intro alternative member
  rcases List.mem_append.mp member with before | after
  · exact left alternative before
  · exact right alternative after

theorem AllWithin.combine {terminals kinds : Nat} {first second : List Alternative}
    (left : AllWithin terminals kinds first) (right : AllWithin terminals kinds second) :
    AllWithin terminals kinds (combine first second) := by
  intro alternative member step among
  obtain ⟨start, startMember, rest⟩ := List.mem_flatMap.mp member
  obtain ⟨finish, finishMember, rfl⟩ := List.mem_map.mp rest
  rcases List.mem_append.mp among with before | after
  · exact left start startMember step before
  · exact right finish finishMember step after

theorem AllWithin.single {terminals kinds : Nat} {context : Context} {symbol : Symbol}
    (within : symbol.Within terminals kinds) :
    AllWithin terminals kinds [.single context symbol] := by
  intro alternative member step among
  rw [List.mem_singleton] at member
  subst member
  rw [Alternative.single, List.mem_singleton] at among
  subst among
  exact within

theorem AllWithin.blank (terminals kinds : Nat) : AllWithin terminals kinds [⟨[], none⟩] := by
  intro alternative member step among
  rw [List.mem_singleton] at member
  subst member
  cases among

theorem AllWithin.production {terminals kinds : Nat} {alternatives : List Alternative}
    (within : AllWithin terminals kinds alternatives) {alternative : Alternative}
    (member : alternative ∈ alternatives) (lhs : NonterminalId) (context : Context)
    (kind : ProductionKind) :
    ∀ symbol, symbol ∈ (alternative.production lhs context kind).symbols →
      symbol.Within terminals kinds := by
  intro symbol among
  obtain ⟨step, stepMember, rfl⟩ := List.mem_map.mp among
  exact within alternative member step stepMember

theorem pushField_kinds {table after : KindTable} {name : String} {field : FieldId}
    (pushed : table.pushField name = .ok (after, field)) : after.kinds = table.kinds := by
  unfold KindTable.pushField at pushed
  split at pushed
  · cases pushed
    rfl
  · split at pushed
    · cases pushed
    · cases pushed
      rfl

/-- A repetition gets a helper of its own, whose productions are in shape. -/
private theorem Expands.repeated {names : Names} {rules : Nat} {context : Context} {state after : State}
    {alternatives : List Alternative}
    (room : names.terminalCount + rules ≤ state.kinds.size)
    (body : Expands names.terminalCount rules
      { state with
        kinds := (state.kinds.push (helperInfo names.rule (state.helpers + 1))).1
        helpers := state.helpers + 1 } alternatives after)
    (nonempty : ∀ alternative, alternative ∈ alternatives → alternative.steps ≠ []) :
    let id := NonterminalId.ofIndex (state.kinds.size - names.terminalCount)
    let bases := alternatives.map (·.production id context .repeatBase)
    Expands names.terminalCount rules state [.single context (.nonterminal id)]
      { after with productions := (after.productions ++ bases.toArray).push (joinProduction id) } := by
  intro id bases
  have grown : state.kinds.size + 1 ≤ after.kinds.size := by
    simpa using body.grows.kinds_le
  have idIndex : after.kinds.size ≤ Declaration.symbolLimit →
      id.index = state.kinds.size - names.terminalCount := by
    intro fits
    have small : state.kinds.size - names.terminalCount < 65536 := by
      simp only [Declaration.symbolLimit] at fits
      omega
    exact NonterminalId.index_ofIndex small
  have idLt : after.kinds.size ≤ Declaration.symbolLimit →
      names.terminalCount + id.index < after.kinds.size := by
    intro fits
    rw [idIndex fits]
    omega
  refine ⟨⟨(Appends.push _ _ _).trans body.grows.kinds, ?_⟩, ?_⟩
  · intro fits kept production member
    have inside := body.grows.productions fits
      (fun earlier among => (kept earlier among).mono (by simp))
    simp only [Array.mem_push, Array.mem_append, List.mem_toArray] at member
    rcases member with (before | base) | join
    · exact inside production before
    · obtain ⟨alternative, among, rfl⟩ := List.mem_map.mp base
      refine ⟨idLt fits, (body.within fits).production among id context .repeatBase, ?_, ?_, ?_⟩
      · intro plain
        cases plain
      · intro _
        refine ⟨?_, nonempty alternative among⟩
        change rules ≤ id.index
        rw [idIndex fits]
        omega
      · intro join
        cases join
    · subst join
      refine ⟨idLt fits, ?_, ?_, ?_, ?_⟩
      · intro symbol among
        have same : symbol = .nonterminal id := by
          simpa [joinProduction, Production.symbols] using among
        subst same
        exact idLt fits
      · intro plain
        cases plain
      · intro base
        cases base
      · intro _
        refine ⟨?_, rfl⟩
        change rules ≤ id.index
        rw [idIndex fits]
        omega
  · intro fits
    exact .single (idLt fits)

mutual

theorem expand_expands {names : Names} {rules : Nat} (numbered : names.NumberedIfSmall rules) :
    ∀ (rule : Rule) (context : Context) (state : State) (alternatives : List Alternative)
      (after : State), names.terminalCount + rules ≤ state.kinds.size →
      expand names context rule state = .ok (alternatives, after) →
      Expands names.terminalCount rules state alternatives after
  | .blank, context, state, alternatives, after, _room, expanded => by
      unfold expand at expanded
      cases expanded
      exact ⟨.refl _ _ _, fun _ => .blank _ _⟩
  | .literal text, context, state, alternatives, after, room, expanded => by
      unfold expand at expanded
      split at expanded
      · rename_i kind found
        cases expanded
        refine ⟨.refl _ _ _, fun fits => ?_⟩
        exact .single ((numbered (Nat.le_trans room fits)).literals text kind found)
      · cases expanded
  | .symbol name, context, state, alternatives, after, room, expanded => by
      unfold expand at expanded
      split at expanded
      · rename_i symbol found
        cases expanded
        refine ⟨.refl _ _ _, fun fits => ?_⟩
        exact .single (((numbered (Nat.le_trans room fits)).symbols name symbol found).mono room)
      · cases expanded
  | .sequence parts, context, state, alternatives, after, room, expanded => by
      unfold expand at expanded
      exact expandSequence_expands numbered parts context _ state alternatives after room expanded
        (fun _ => .blank _ _)
  | .choice parts, context, state, alternatives, after, room, expanded => by
      unfold expand at expanded
      exact expandChoice_expands numbered parts context state alternatives after room expanded
  | .repeated body, context, state, alternatives, after, room, expanded => by
      unfold expand at expanded
      obtain ⟨⟨inner, middle⟩, flattened, rest⟩ := bind_ok.mp expanded
      have bodyExpands := expand_expands numbered body _ _ inner middle
        (Nat.le_trans room (by simp)) flattened
      dsimp only at rest
      split at rest
      · cases rest
      · rename_i noneEmpty
        cases pure_ok.mp rest
        refine bodyExpands.repeated room ?_
        intro alternative member empty
        apply noneEmpty
        rw [List.any_eq_true]
        exact ⟨alternative, member, by rw [empty]; rfl⟩
  | .precedence level assoc rule, context, state, alternatives, after, room, expanded => by
      unfold expand at expanded
      exact expand_expands numbered rule _ state alternatives after room expanded
  | .field name rule, context, state, alternatives, after, room, expanded => by
      unfold expand at expanded
      obtain ⟨⟨kinds, field⟩, pushed, rest⟩ := bind_ok.mp expanded
      have sameKinds : kinds.kinds = state.kinds.kinds := pushField_kinds (lift_ok.mp pushed)
      have sameSize : kinds.size = state.kinds.size := congrArg Array.size sameKinds
      have inner := expand_expands numbered rule _ _ alternatives after
        (sameSize.symm ▸ room) rest
      refine ⟨⟨sameKinds ▸ inner.grows.kinds, fun fits kept => ?_⟩, inner.within⟩
      exact inner.grows.productions fits (fun production member =>
        (kept production member).mono (Nat.le_of_eq sameSize.symm))

theorem expandSequence_expands {names : Names} {rules : Nat} (numbered : names.NumberedIfSmall rules) :
    ∀ (parts : List Rule) (context : Context) (prior : List Alternative) (state : State)
      (alternatives : List Alternative) (after : State),
      names.terminalCount + rules ≤ state.kinds.size →
      expandSequence names context prior parts state = .ok (alternatives, after) →
      (state.kinds.size ≤ Declaration.symbolLimit →
        AllWithin names.terminalCount state.kinds.size prior) →
      Expands names.terminalCount rules state alternatives after
  | [], context, prior, state, alternatives, after, _room, expanded, within => by
      unfold expandSequence at expanded
      cases expanded
      exact ⟨.refl _ _ _, within⟩
  | rule :: rest, context, prior, state, alternatives, after, room, expanded, within => by
      unfold expandSequence at expanded
      obtain ⟨⟨parts, middle⟩, first, remaining⟩ := bind_ok.mp expanded
      have head := expand_expands numbered rule context state parts middle room first
      have tail := expandSequence_expands numbered rest context _ middle alternatives after
        (Nat.le_trans room head.grows.kinds_le) remaining (fun fits =>
          ((within (Nat.le_trans head.grows.kinds_le fits)).mono head.grows.kinds_le).combine
            (head.within fits))
      exact ⟨head.grows.trans tail.grows, tail.within⟩

theorem expandChoice_expands {names : Names} {rules : Nat} (numbered : names.NumberedIfSmall rules) :
    ∀ (parts : List Rule) (context : Context) (state : State) (alternatives : List Alternative)
      (after : State), names.terminalCount + rules ≤ state.kinds.size →
      expandChoice names context parts state = .ok (alternatives, after) →
      Expands names.terminalCount rules state alternatives after
  | [], context, state, alternatives, after, _room, expanded => by
      unfold expandChoice at expanded
      cases expanded
      exact ⟨.refl _ _ _, fun _ alternative member => by cases member⟩
  | rule :: rest, context, state, alternatives, after, room, expanded => by
      unfold expandChoice at expanded
      obtain ⟨⟨first, middle⟩, firstDone, remaining⟩ := bind_ok.mp expanded
      obtain ⟨⟨others, last⟩, restDone, same⟩ := bind_ok.mp remaining
      cases pure_ok.mp same
      have head := expand_expands numbered rule context state first middle room firstDone
      have tail := expandChoice_expands numbered rest context middle others _
        (Nat.le_trans room head.grows.kinds_le) restDone
      refine ⟨head.grows.trans tail.grows, fun fits => ?_⟩
      exact ((head.within (Nat.le_trans tail.grows.kinds_le fits)).mono
        tail.grows.kinds_le).append (tail.within fits)

end

theorem rule_grows {names : Names} {rules index : Nat} {name : String} {body : Rule}
    {state after : State} (numbered : names.NumberedIfSmall rules) (declared : index < rules)
    (room : names.terminalCount + rules ≤ state.kinds.size)
    (flattened : rule names index name body state = .ok after) :
    Grows names.terminalCount rules state after := by
  unfold rule at flattened
  obtain ⟨⟨alternatives, middle⟩, expanded, same⟩ := bind_ok.mp flattened
  cases pure_ok.mp same
  have body : Expands names.terminalCount rules { state with helpers := 0 } alternatives middle :=
    @expand_expands { names with rule := name } rules
      (fun small => ⟨(numbered small).symbols, (numbered small).literals⟩) _ _ _ alternatives middle room expanded
  refine ⟨body.grows.kinds, fun fits kept production member => ?_⟩
  rcases Array.mem_append.mp member with before | plain
  · exact body.grows.productions fits kept production before
  · obtain ⟨alternative, among, rfl⟩ := List.mem_map.mp (List.mem_toArray.mp plain)
    have middleLe : state.kinds.size ≤ middle.kinds.size := body.grows.kinds_le
    have small : index < 65536 := by
      simp only [Declaration.symbolLimit] at fits
      omega
    have lhsIndex : (NonterminalId.ofIndex index).index = index :=
      NonterminalId.index_ofIndex small
    refine ⟨?_, (body.within fits).production among _ _ _, ?_, ?_, ?_⟩
    · change names.terminalCount + (NonterminalId.ofIndex index).index < middle.kinds.size
      rw [lhsIndex]
      exact Nat.lt_of_lt_of_le (Nat.add_lt_add_left declared _) (Nat.le_trans room middleLe)
    · intro _
      change (NonterminalId.ofIndex index).index < rules
      rw [lhsIndex]
      exact declared
    · intro base
      cases base
    · intro join
      cases join

theorem rules_grows {names : Names} {rules : Nat} (numbered : names.NumberedIfSmall rules) :
    ∀ (bodies : List (String × Rule)) (index : Nat) (state after : State),
      index + bodies.length ≤ rules → names.terminalCount + rules ≤ state.kinds.size →
      Flatten.rules names index bodies state = .ok after →
      Grows names.terminalCount rules state after
  | [], index, state, after, _declared, _room, flattened => by
      unfold Flatten.rules at flattened
      cases flattened
      exact .refl _ _ _
  | (name, body) :: rest, index, state, after, declared, room, flattened => by
      unfold Flatten.rules at flattened
      obtain ⟨middle, first, remaining⟩ := bind_ok.mp flattened
      rw [List.length_cons] at declared
      have head := rule_grows numbered (by omega) room first
      exact head.trans (rules_grows numbered rest (index + 1) middle after (by omega)
        (Nat.le_trans room head.kinds_le) remaining)

end Flatten

namespace Declaration

theorem numbered_bounds {first : Nat} {names : List String} {name : String} {number : Nat}
    (member : (name, number) ∈ numbered first names) :
    first ≤ number ∧ number < first + names.length := by
  have bounds := List.mem_zipIdx member
  exact ⟨bounds.1, bounds.2.1⟩

theorem terminalKinds_size (declaration : Declaration) :
    declaration.terminalKinds.size = declaration.names.terminalCount := by
  simp [terminalKinds, names, reservedKinds, numbered]
  omega

private theorem ofIndex_between {number bound : Nat} (above : 2 ≤ number) (below : number < bound)
    (fits : bound ≤ symbolLimit) :
    2 ≤ (KindId.ofIndex number).index ∧ (KindId.ofIndex number).index < bound := by
  have same : (KindId.ofIndex number).index = number := by
    apply KindId.index_ofIndex
    simp only [symbolLimit] at fits
    omega
  rw [same]
  exact ⟨above, below⟩

theorem names_numbered (declaration : Declaration) :
    declaration.names.NumberedIfSmall declaration.rules.size := by
  intro fits
  constructor
  · intro name symbol found
    obtain ⟨key, member⟩ := ofList_getElem? _ name symbol found
    rcases List.mem_append.mp member with terminal | rule
    · obtain ⟨⟨text, number⟩, among, same⟩ := List.mem_map.mp terminal
      cases same
      obtain ⟨above, below⟩ := numbered_bounds among
      have bound : number < declaration.names.terminalCount := by
        simp [names, reservedKinds, numbered] at below ⊢
        omega
      exact ofIndex_between above bound (by omega)
    · obtain ⟨⟨text, number⟩, among, same⟩ := List.mem_map.mp rule
      cases same
      have below := (numbered_bounds among).2
      have bound : number < declaration.rules.size := by
        simpa [ruleNames] using below
      change declaration.names.terminalCount + (NonterminalId.ofIndex number).index < _
      rw [NonterminalId.index_ofIndex (by simp only [symbolLimit] at fits; omega)]
      omega
  · intro text kind found
    obtain ⟨key, member⟩ := ofList_getElem? _ text kind found
    obtain ⟨⟨name, number⟩, among, same⟩ := List.mem_map.mp member
    cases same
    obtain ⟨above, below⟩ := numbered_bounds among
    have bound : number < declaration.names.terminalCount := by
      simpa [names, numbered] using below
    refine ofIndex_between ?_ bound (by omega)
    simp [reservedKinds] at above
    omega

theorem normalize_ok {declaration : Declaration} {grammar : Grammar}
    (normalized : declaration.normalize = .ok grammar) :
    declaration.checkNames = .ok () ∧ ∃ final,
      Flatten.rules declaration.names 0 declaration.rules.toList
        ⟨⟨declaration.terminalKinds ++ (declaration.ruleNames.map (declaredInfo false)).toArray, #[]⟩,
          #[], 0⟩ = .ok final ∧
      final.kinds.size ≤ symbolLimit ∧ grammar.unproductive? = none ∧
      grammar =
        { name := declaration.name
          version := declaration.version
          kinds := final.kinds
          terminalCount := declaration.names.terminalCount
          ruleCount := declaration.rules.size
          productions := final.productions
          lexical := declaration.lexicalGrammar
          policy := declaration.policy } := by
  unfold normalize at normalized
  obtain ⟨⟨⟩, named, normalized⟩ := bind_ok.mp normalized
  refine ⟨named, ?_⟩
  dsimp only at normalized
  split at normalized
  · cases normalized
  · obtain ⟨final, flattened, normalized⟩ := bind_ok.mp normalized
    split at normalized
    · cases normalized
    · rename_i fits
      split at normalized
      · cases normalized
      · rename_i productive
        cases pure_ok.mp normalized
        exact ⟨final, flattened, Nat.le_of_not_lt fits, productive, rfl⟩

theorem normalize_of {declaration : Declaration} {grammar : Grammar} {final : Flatten.State}
    (named : declaration.checkNames = .ok ()) (literals : declaration.emptyLiteralRule? = none)
    (flattened : Flatten.rules declaration.names 0 declaration.rules.toList
      ⟨⟨declaration.terminalKinds ++ (declaration.ruleNames.map (declaredInfo false)).toArray, #[]⟩,
        #[], 0⟩ = .ok final)
    (fits : final.kinds.size ≤ symbolLimit) (productive : grammar.unproductive? = none)
    (made : grammar =
      { name := declaration.name
        version := declaration.version
        kinds := final.kinds
        terminalCount := declaration.names.terminalCount
        ruleCount := declaration.rules.size
        productions := final.productions
        lexical := declaration.lexicalGrammar
        policy := declaration.policy }) : declaration.normalize = .ok grammar := by
  subst made
  unfold normalize
  rw [named, ok_bind, literals]
  dsimp only
  refine bind_ok.mpr ⟨final, flattened, ?_⟩
  rw [if_neg (Nat.not_lt_of_le fits)]
  split
  · rename_i id found
    cases productive.symm.trans found
  · rfl

theorem checkNames_ok {declaration : Declaration} (checked : declaration.checkNames = .ok ()) :
    ∃ start, declaration.ruleNames.head? = some start ∧ isHiddenName start = false := by
  unfold checkNames at checked
  split at checked
  · rename_i start first
    refine ⟨start, first, ?_⟩
    cases hidden : isHiddenName start with
    | false => rfl
    | true =>
        rw [hidden] at checked
        cases checked
  · cases checked

theorem lexicalGrammar_tokens {declaration : Declaration} {kind : KindId}
    (fits : declaration.names.terminalCount ≤ symbolLimit)
    (member : kind ∈ declaration.lexicalGrammar.tokens) :
    2 ≤ kind.index ∧ kind.index < declaration.names.terminalCount := by
  simp only [lexicalGrammar, Array.mem_map, Array.mem_range] at member
  obtain ⟨index, small, rfl⟩ := member
  refine ofIndex_between (by simp [reservedKinds]) ?_ fits
  simp only [names]
  omega

theorem lexicalGrammar_externals {declaration : Declaration} {kind : KindId}
    (fits : declaration.names.terminalCount ≤ symbolLimit)
    (member : kind ∈ declaration.lexicalGrammar.externals) :
    2 ≤ kind.index ∧ kind.index < declaration.names.terminalCount := by
  simp only [lexicalGrammar, Array.mem_map, Array.mem_range] at member
  obtain ⟨index, small, rfl⟩ := member
  refine ofIndex_between (by simp [reservedKinds]; omega) ?_ fits
  simp only [names]
  omega

theorem lexicalGrammar_literals {declaration : Declaration} {text : String} {kind : KindId}
    (fits : declaration.names.terminalCount ≤ symbolLimit)
    (member : (text, kind) ∈ declaration.lexicalGrammar.literals) :
    2 ≤ kind.index ∧ kind.index < declaration.names.terminalCount := by
  simp only [lexicalGrammar, List.mem_toArray, List.mem_map] at member
  obtain ⟨⟨name, number⟩, among, same⟩ := member
  cases same
  obtain ⟨above, below⟩ := numbered_bounds among
  refine ofIndex_between (by simp [reservedKinds] at above; omega) ?_ fits
  simp only [names, numbered, List.length_zipIdx]
  omega

theorem flattened_numbered {declaration : Declaration} {final : Flatten.State}
    (named : declaration.checkNames = .ok ())
    (flattened : Flatten.rules declaration.names 0 declaration.rules.toList
      ⟨⟨declaration.terminalKinds ++ (declaration.ruleNames.map (declaredInfo false)).toArray, #[]⟩,
        #[], 0⟩ = .ok final)
    (fits : final.kinds.size ≤ symbolLimit) :
    Grammar.Numbered
      { name := declaration.name
        version := declaration.version
        kinds := final.kinds
        terminalCount := declaration.names.terminalCount
        ruleCount := declaration.rules.size
        productions := final.productions
        lexical := declaration.lexicalGrammar
        policy := declaration.policy } := by
  obtain ⟨start, first, _visible⟩ := checkNames_ok named
  have initialSize :
      (declaration.terminalKinds ++ (declaration.ruleNames.map (declaredInfo false)).toArray).size =
        declaration.names.terminalCount + declaration.rules.size := by
    simp [terminalKinds_size, ruleNames]
  have reserved : 2 ≤ declaration.names.terminalCount := by
    simp only [names, reservedKinds, List.size_toArray, List.length_cons, List.length_nil]
    omega
  have rulesPos : 0 < declaration.rules.size := by
    cases empty : declaration.rules.toList with
    | nil => simp [ruleNames, empty] at first
    | cons rule rest =>
        have positive := congrArg List.length empty
        simp at positive
        omega
  have grows := Flatten.rules_grows (names_numbered declaration) declaration.rules.toList 0 _ final
    (by simp) (by exact Nat.le_of_eq initialSize.symm) flattened
  have roomy : declaration.names.terminalCount + declaration.rules.size ≤ final.kinds.size :=
    Nat.le_trans (Nat.le_of_eq initialSize.symm) grows.kinds_le
  have terminalsFit : declaration.names.terminalCount ≤ symbolLimit := by
    omega
  constructor
  · exact reserved
  · exact rulesPos
  · exact roomy
  · exact fits
  · intro production member
    refine grows.productions fits (fun earlier none => ?_) production member
    exact absurd none (Array.not_mem_empty earlier)
  · exact fun kind => lexicalGrammar_tokens terminalsFit
  · exact fun kind => lexicalGrammar_externals terminalsFit
  · exact fun text kind => lexicalGrammar_literals terminalsFit

theorem normalize_numbered {declaration : Declaration} {grammar : Grammar}
    (normalized : declaration.normalize = .ok grammar) : grammar.Numbered := by
  obtain ⟨named, final, flattened, fits, _productive, rfl⟩ := normalize_ok normalized
  exact flattened_numbered named flattened fits

theorem normalize_kinds {declaration : Declaration} {grammar : Grammar}
    (normalized : declaration.normalize = .ok grammar) :
    grammar.terminalCount = declaration.terminalKinds.size ∧ grammar.ruleCount = declaration.ruleNames.length ∧
      ∃ helpers, grammar.kinds.kinds =
          declaration.terminalKinds ++ (declaration.ruleNames.map (declaredInfo false)).toArray ++ helpers ∧
        ∀ info, info ∈ helpers → ∃ rule number, info = Flatten.helperInfo rule number := by
  obtain ⟨_named, final, flattened, _fits, _productive, rfl⟩ := normalize_ok normalized
  have terminals := terminalKinds_size declaration
  have grows := Flatten.rules_grows (names_numbered declaration) declaration.rules.toList 0 _ final
    (by simp) (by simp [KindTable.size, terminals, ruleNames]) flattened
  exact ⟨terminals.symm, by simp [ruleNames], grows.kinds⟩

theorem normalize_visible {declaration : Declaration} {grammar : Grammar}
    (normalized : declaration.normalize = .ok grammar) :
    grammar.kinds.kinds[1]?.map (·.visible) = some true ∧
      ∀ index info, grammar.kinds.kinds[index]? = some info → grammar.terminalCount ≤ index →
        info.visible = (decide (index < grammar.terminalCount + grammar.ruleCount) &&
          !isHiddenName info.name) := by
  obtain ⟨terminals, rules, helpers, kinds, hidden⟩ := normalize_kinds normalized
  have declared : (declaration.ruleNames.map (declaredInfo false)).toArray.size = grammar.ruleCount := by
    simp [rules]
  rw [kinds]
  constructor
  · have two : 1 < reservedKinds.size := by decide
    unfold terminalKinds
    rw [Array.append_assoc, Array.append_assoc, Array.append_assoc, Array.getElem?_append_left two]
    rfl
  · intro index info found above
    rcases Nat.lt_or_ge index (grammar.terminalCount + grammar.ruleCount) with low | high
    · rw [decide_eq_true low, Bool.true_and]
      rw [Array.getElem?_append_left (by rw [Array.size_append, ← terminals, declared]; exact low),
        Array.getElem?_append_right (by rw [← terminals]; exact above)] at found
      rw [List.getElem?_toArray, List.getElem?_map] at found
      obtain ⟨name, _, same⟩ := Option.map_eq_some_iff.mp found
      subst same
      rfl
    · rw [decide_eq_false (Nat.not_lt_of_le high), Bool.false_and]
      rw [Array.getElem?_append_right (by rw [Array.size_append, ← terminals, declared]; exact high)] at found
      obtain ⟨rule, number, rfl⟩ := hidden info (Array.mem_of_getElem? found)
      rfl

end Declaration

end IncrementalParsing
