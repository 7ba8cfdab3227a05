import IncrementalParsing.Proofs.Grammar.Numbering

/-!
What flattening makes of a rule. The alternatives of a rule follow the shape of the rule, except that a
repetition is one nonterminal, which has the alternatives of the body and the join as its productions. That
it has no others is because every call of the flattening adds productions for the helpers that it allocates
itself, and for none that were there before or will come after.
-/

namespace IncrementalParsing.Flatten

def Alternative.symbols (alternative : Alternative) : List Symbol := alternative.steps.map (·.symbol)

def RightHandSides (productions : Array Production) (id : NonterminalId) (forms : List (List Symbol)) : Prop :=
  ∀ form, (∃ production, production ∈ productions ∧ production.lhs = id ∧ production.symbols = form) ↔
    form ∈ forms

inductive FlattensTo (symbols : Std.TreeMap String Symbol) (literals : Std.TreeMap String KindId)
    (productions : Array Production) : Rule → List (List Symbol) → Prop
  | blank : FlattensTo symbols literals productions .blank [[]]
  | literal {text : String} {kind : KindId} : literals[text]? = some kind →
      FlattensTo symbols literals productions (.literal text) [[.terminal kind]]
  | symbol {name : String} {symbol : Symbol} : symbols[name]? = some symbol →
      FlattensTo symbols literals productions (.symbol name) [[symbol]]
  | nil : FlattensTo symbols literals productions (.sequence []) [[]]
  | cons {rule : Rule} {rest : List Rule} {firsts others : List (List Symbol)} :
      FlattensTo symbols literals productions rule firsts →
      FlattensTo symbols literals productions (.sequence rest) others →
      FlattensTo symbols literals productions (.sequence (rule :: rest))
        (firsts.flatMap fun first => others.map (first ++ ·))
  | none : FlattensTo symbols literals productions (.choice []) []
  | choice {rule : Rule} {rest : List Rule} {firsts others : List (List Symbol)} :
      FlattensTo symbols literals productions rule firsts →
      FlattensTo symbols literals productions (.choice rest) others →
      FlattensTo symbols literals productions (.choice (rule :: rest)) (firsts ++ others)
  | repeated {body : Rule} {forms : List (List Symbol)} {id : NonterminalId} :
      FlattensTo symbols literals productions body forms →
      RightHandSides productions id (forms ++ [[.nonterminal id, .nonterminal id]]) →
      FlattensTo symbols literals productions (.repeated body) [[.nonterminal id]]
  | precedence {level : Int} {assoc : Assoc} {rule : Rule} {forms : List (List Symbol)} :
      FlattensTo symbols literals productions rule forms →
      FlattensTo symbols literals productions (.precedence level assoc rule) forms
  | field {name : String} {rule : Rule} {forms : List (List Symbol)} :
      FlattensTo symbols literals productions rule forms →
      FlattensTo symbols literals productions (.field name rule) forms

/-! ### What is added -/

def Between (terminals : Nat) (before after : State) (id : NonterminalId) : Prop :=
  before.kinds.size ≤ terminals + id.index ∧ terminals + id.index < after.kinds.size

/-- The productions that are added belong to nonterminals that are allocated meanwhile. -/
structure Adds (terminals : Nat) (before after : State) (news : Array Production) : Prop where
  kinds_le : before.kinds.size ≤ after.kinds.size
  productions : after.productions = before.productions ++ news
  between : ∀ production, production ∈ news → Between terminals before after production.lhs

/-- Among some productions those of the nonterminals that were allocated meanwhile are the new ones. -/
structure Settles (terminals : Nat) (productions : Array Production) (before after : State)
    (news : Array Production) : Prop where
  kept : ∀ production, production ∈ news → production ∈ productions
  only : ∀ production, production ∈ productions → Between terminals before after production.lhs →
    production ∈ news

variable {terminals : Nat} {first second third before after : State} {news more productions : Array Production}

theorem Adds.refl (state : State) : Adds terminals state state #[] :=
  ⟨Nat.le_refl _, Array.append_empty.symm, fun production none => absurd none (Array.not_mem_empty production)⟩

theorem Adds.trans (left : Adds terminals first second news) (right : Adds terminals second third more) :
    Adds terminals first third (news ++ more) where
  kinds_le := Nat.le_trans left.kinds_le right.kinds_le
  productions := by rw [right.productions, left.productions, Array.append_assoc]
  between production member := by
    rcases Array.mem_append.mp member with old | fresh
    · have inside := left.between production old
      exact ⟨inside.1, Nat.lt_of_lt_of_le inside.2 right.kinds_le⟩
    · have inside := right.between production fresh
      exact ⟨Nat.le_trans left.kinds_le inside.1, inside.2⟩

theorem Settles.left (settles : Settles terminals productions first third (news ++ more))
    (right : Adds terminals second third more) :
    Settles terminals productions first second news where
  kept production member := settles.kept production (Array.mem_append_left _ member)
  only production member between := by
    have here := settles.only production member ⟨between.1, Nat.lt_of_lt_of_le between.2 right.kinds_le⟩
    rcases Array.mem_append.mp here with old | fresh
    · exact old
    · exact absurd (right.between production fresh).1 (Nat.not_le_of_lt between.2)

theorem Settles.right (settles : Settles terminals productions first third (news ++ more))
    (left : Adds terminals first second news) :
    Settles terminals productions second third more where
  kept production member := settles.kept production (Array.mem_append_right _ member)
  only production member between := by
    have here := settles.only production member ⟨Nat.le_trans left.kinds_le between.1, between.2⟩
    rcases Array.mem_append.mp here with old | fresh
    · exact absurd (left.between production old).2 (Nat.not_lt_of_le between.1)
    · exact fresh

/-- What flattening a rule does: it adds productions, among which the rule has its alternatives. -/
def Flattened (names : Names) (rule : Rule) (before : State) (forms : List (List Symbol)) (after : State) : Prop :=
  ∃ news, Adds names.terminalCount before after news ∧
    ∀ productions, Settles names.terminalCount productions before after news →
      FlattensTo names.symbols names.literals productions rule forms

/-! ### Calls -/

theorem Alternative.symbols_append (left right : Alternative) :
    (left.append right).symbols = left.symbols ++ right.symbols := List.map_append

theorem map_symbols_combine (firsts seconds : List Alternative) :
    (combine firsts seconds).map Alternative.symbols =
      (firsts.map Alternative.symbols).flatMap fun first => (seconds.map Alternative.symbols).map (first ++ ·) := by
  unfold combine
  rw [List.map_flatMap, List.flatMap_map]
  congr 1
  funext first
  rw [List.map_map, List.map_map]
  exact List.map_congr_left (fun second _ => Alternative.symbols_append first second)

theorem flatMap_append_assoc (firsts seconds thirds : List (List Symbol)) :
    (firsts.flatMap fun first => seconds.map (first ++ ·)).flatMap (fun front => thirds.map (front ++ ·)) =
      firsts.flatMap fun first => (seconds.flatMap fun second => thirds.map (second ++ ·)).map (first ++ ·) := by
  rw [List.flatMap_assoc]
  congr 1
  funext first
  rw [List.flatMap_map, List.map_flatMap]
  congr 1
  funext second
  rw [List.map_map]
  exact List.map_congr_left (fun third _ => List.append_assoc first second third)

theorem mem_productions {alternatives : List Alternative} {id : NonterminalId} {context : Context}
    {kind : ProductionKind} {production : Production} :
    production ∈ (alternatives.map (·.production id context kind)).toArray ↔
      ∃ alternative, alternative ∈ alternatives ∧ alternative.production id context kind = production := by
  rw [List.mem_toArray]
  exact List.mem_map

/-- A repetition adds the alternatives of its body and a join, for a helper of its own. -/
private theorem Flattened.repeated {names : Names} {context : Context} {body : Rule} {state after : State}
    {alternatives : List Alternative} (room : names.terminalCount ≤ state.kinds.size)
    (fits : after.kinds.size ≤ Declaration.symbolLimit)
    (flattened : Flattened names body
      { state with
        kinds := (state.kinds.push (helperInfo names.rule (state.helpers + 1))).1
        helpers := state.helpers + 1 } (alternatives.map Alternative.symbols) after) :
    let id := NonterminalId.ofIndex (state.kinds.size - names.terminalCount)
    let bases := alternatives.map (·.production id context .repeatBase)
    Flattened names (.repeated body) state [[.nonterminal id]]
      { after with productions := (after.productions ++ bases.toArray).push (joinProduction id) } := by
  intro id bases
  obtain ⟨news, adds, flattens⟩ := flattened
  have pushed : (state.kinds.push (helperInfo names.rule (state.helpers + 1))).1.size = state.kinds.size + 1 :=
    Array.size_push _
  have grown : state.kinds.size + 1 ≤ after.kinds.size := pushed ▸ adds.kinds_le
  have idAt : names.terminalCount + id.index = state.kinds.size := by
    have index : id.index = state.kinds.size - names.terminalCount := by
      apply NonterminalId.index_ofIndex
      simp only [Declaration.symbolLimit] at fits
      omega
    omega
  have later : ∀ production, production ∈ news → state.kinds.size + 1 ≤ names.terminalCount +
      production.lhs.index := fun production member => pushed ▸ (adds.between production member).1
  have members : ∀ production, production ∈ news ++ (bases.toArray.push (joinProduction id)) ↔
      production ∈ news ∨ (∃ alternative, alternative ∈ alternatives ∧
        alternative.production id context .repeatBase = production) ∨ production = joinProduction id := by
    intro production
    rw [Array.mem_append, Array.mem_push, mem_productions]
  refine ⟨news ++ (bases.toArray.push (joinProduction id)), ⟨?_, ?_, ?_⟩, ?_⟩
  · exact Nat.le_of_succ_le grown
  · change (after.productions ++ bases.toArray).push (joinProduction id) = _
    rw [adds.productions]
    simp
  · intro production member
    have mine : Between names.terminalCount state after id := ⟨Nat.le_of_eq idAt.symm, by omega⟩
    rcases (members production).mp member with inner | ⟨alternative, _, rfl⟩ | rfl
    · exact ⟨Nat.le_of_succ_le (later production inner), (adds.between production inner).2⟩
    · exact mine
    · exact mine
  · intro productions settles
    have inner : ∀ production, production ∈ productions → Between names.terminalCount state after
        production.lhs → production.lhs ≠ id → production ∈ news := by
      intro production member between other
      rcases (members production).mp (settles.only production member between) with here | ⟨_, _, rfl⟩ | rfl
      · exact here
      · exact absurd rfl other
      · exact absurd rfl other
    refine .repeated (flattens productions ⟨?_, ?_⟩) ?_
    · intro production member
      exact settles.kept production ((members production).mpr (Or.inl member))
    · intro production member between
      have above : state.kinds.size + 1 ≤ names.terminalCount + production.lhs.index := pushed ▸ between.1
      refine inner production member ⟨Nat.le_of_succ_le above, between.2⟩ fun same => ?_
      rw [same] at above
      omega
    · intro form
      rw [List.mem_append, List.mem_singleton, List.mem_map]
      constructor
      · rintro ⟨production, member, lhs, rfl⟩
        have between : Between names.terminalCount state after production.lhs :=
          lhs ▸ ⟨Nat.le_of_eq idAt.symm, by omega⟩
        rcases (members production).mp (settles.only production member between) with
          news | ⟨alternative, among, rfl⟩ | rfl
        · have above := later production news
          rw [lhs] at above
          omega
        · exact Or.inl ⟨alternative, among, rfl⟩
        · exact Or.inr rfl
      · rintro (⟨alternative, among, rfl⟩ | rfl)
        · exact ⟨_, settles.kept _ ((members _).mpr (Or.inr (Or.inl ⟨alternative, among, rfl⟩))), rfl, rfl⟩
        · exact ⟨_, settles.kept _ ((members _).mpr (Or.inr (Or.inr rfl))), rfl, rfl⟩

mutual

theorem expand_flattened {names : Names} {rules : Nat} (numbered : names.NumberedIfSmall rules) :
    ∀ (rule : Rule) (context : Context) (state : State) (alternatives : List Alternative) (after : State),
      names.terminalCount + rules ≤ state.kinds.size → after.kinds.size ≤ Declaration.symbolLimit →
      expand names context rule state = .ok (alternatives, after) →
      Flattened names rule state (alternatives.map Alternative.symbols) after
  | .blank, context, state, alternatives, after, _room, _fits, expanded => by
      unfold expand at expanded
      cases expanded
      exact ⟨#[], .refl _, fun _ _ => .blank⟩
  | .literal text, context, state, alternatives, after, _room, _fits, expanded => by
      unfold expand at expanded
      split at expanded
      · rename_i kind found
        cases expanded
        exact ⟨#[], .refl _, fun _ _ => .literal found⟩
      · cases expanded
  | .symbol name, context, state, alternatives, after, _room, _fits, expanded => by
      unfold expand at expanded
      split at expanded
      · rename_i symbol found
        cases expanded
        exact ⟨#[], .refl _, fun _ _ => .symbol found⟩
      · cases expanded
  | .sequence parts, context, state, alternatives, after, room, fits, expanded => by
      unfold expand at expanded
      obtain ⟨forms, flattened, same⟩ :=
        expandSequence_flattened numbered parts context _ state alternatives after room fits expanded
      have whole : alternatives.map Alternative.symbols = forms := by
        rw [same]
        exact (List.append_nil _).trans (List.map_id _)
      rw [whole]
      exact flattened
  | .choice parts, context, state, alternatives, after, room, fits, expanded => by
      unfold expand at expanded
      exact expandChoice_flattened numbered parts context state alternatives after room fits expanded
  | .repeated body, context, state, alternatives, after, room, fits, expanded => by
      unfold expand at expanded
      obtain ⟨⟨inner, middle⟩, flattened, rest⟩ := bind_ok.mp expanded
      dsimp only at rest
      split at rest
      · cases rest
      · cases pure_ok.mp rest
        exact Flattened.repeated (Nat.le_trans (Nat.le_add_right _ _) room) fits
          (expand_flattened numbered body _ _ inner middle
          (Nat.le_trans room (by simp)) fits flattened)
  | .precedence level assoc rule, context, state, alternatives, after, room, fits, expanded => by
      unfold expand at expanded
      obtain ⟨news, adds, flattens⟩ := expand_flattened numbered rule _ state alternatives after room fits expanded
      exact ⟨news, adds, fun productions settles => .precedence (flattens productions settles)⟩
  | .field name rule, context, state, alternatives, after, room, fits, expanded => by
      unfold expand at expanded
      obtain ⟨⟨kinds, field⟩, pushed, rest⟩ := bind_ok.mp expanded
      have sameSize : kinds.size = state.kinds.size :=
        congrArg Array.size (pushField_kinds (lift_ok.mp pushed))
      obtain ⟨news, adds, flattens⟩ :=
        expand_flattened numbered rule _ _ alternatives after (sameSize.symm ▸ room) fits rest
      refine ⟨news, ⟨sameSize ▸ adds.kinds_le, adds.productions, ?_⟩, ?_⟩
      · intro production member
        have between := adds.between production member
        exact ⟨sameSize ▸ between.1, between.2⟩
      · intro productions settles
        refine .field (flattens productions ⟨settles.kept, ?_⟩)
        intro production member between
        exact settles.only production member ⟨sameSize ▸ between.1, between.2⟩

theorem expandSequence_flattened {names : Names} {rules : Nat} (numbered : names.NumberedIfSmall rules) :
    ∀ (parts : List Rule) (context : Context) (prior : List Alternative) (state : State)
      (alternatives : List Alternative) (after : State),
      names.terminalCount + rules ≤ state.kinds.size → after.kinds.size ≤ Declaration.symbolLimit →
      expandSequence names context prior parts state = .ok (alternatives, after) →
      ∃ forms, Flattened names (.sequence parts) state forms after ∧
        alternatives.map Alternative.symbols =
          (prior.map Alternative.symbols).flatMap fun first => forms.map (first ++ ·)
  | [], context, prior, state, alternatives, after, _room, _fits, expanded => by
      unfold expandSequence at expanded
      cases expanded
      refine ⟨[[]], ⟨#[], .refl _, fun _ _ => .nil⟩, ?_⟩
      simp
  | rule :: rest, context, prior, state, alternatives, after, room, fits, expanded => by
      unfold expandSequence at expanded
      obtain ⟨⟨parts, middle⟩, firstDone, remaining⟩ := bind_ok.mp expanded
      have grown := (expand_expands numbered rule context state parts middle room firstDone).grows.kinds_le
      obtain ⟨forms, ⟨more, later, flattensRest⟩, same⟩ :=
        expandSequence_flattened numbered rest context _ middle alternatives after (Nat.le_trans room grown) fits
          remaining
      obtain ⟨news, adds, flattens⟩ := expand_flattened numbered rule context state parts middle room
        (Nat.le_trans later.kinds_le fits) firstDone
      refine ⟨_, ⟨news ++ more, adds.trans later, fun productions settles =>
        .cons (flattens productions (settles.left later)) (flattensRest productions (settles.right adds))⟩, ?_⟩
      rw [same, map_symbols_combine, flatMap_append_assoc]

theorem expandChoice_flattened {names : Names} {rules : Nat} (numbered : names.NumberedIfSmall rules) :
    ∀ (parts : List Rule) (context : Context) (state : State) (alternatives : List Alternative) (after : State),
      names.terminalCount + rules ≤ state.kinds.size → after.kinds.size ≤ Declaration.symbolLimit →
      expandChoice names context parts state = .ok (alternatives, after) →
      Flattened names (.choice parts) state (alternatives.map Alternative.symbols) after
  | [], context, state, alternatives, after, _room, _fits, expanded => by
      unfold expandChoice at expanded
      cases expanded
      exact ⟨#[], .refl _, fun _ _ => .none⟩
  | rule :: rest, context, state, alternatives, after, room, fits, expanded => by
      unfold expandChoice at expanded
      obtain ⟨⟨first, middle⟩, firstDone, remaining⟩ := bind_ok.mp expanded
      obtain ⟨⟨others, last⟩, restDone, same⟩ := bind_ok.mp remaining
      cases pure_ok.mp same
      have grown := (expand_expands numbered rule context state first middle room firstDone).grows.kinds_le
      obtain ⟨more, later, flattensRest⟩ := expandChoice_flattened numbered rest context middle others _
        (Nat.le_trans room grown) fits restDone
      obtain ⟨news, adds, flattens⟩ := expand_flattened numbered rule context state first middle room
        (Nat.le_trans later.kinds_le fits) firstDone
      rw [List.map_append]
      exact ⟨news ++ more, adds.trans later, fun productions settles =>
        .choice (flattens productions (settles.left later)) (flattensRest productions (settles.right adds))⟩

end

/-! ### Rules -/

def Owned (terminals low high : Nat) (before after : State) (id : NonterminalId) : Prop :=
  low ≤ id.index ∧ id.index < high ∨ Between terminals before after id

/-- Flattening some rules adds productions for them and for their helpers. Where the nonterminals have no other
productions than these, something holds. -/
def Contributes (terminals low high : Nat) (before after : State) (holds : Array Production → Prop) : Prop :=
  ∃ news, after.productions = before.productions ++ news ∧
    (∀ production, production ∈ news → Owned terminals low high before after production.lhs) ∧
    ∀ productions, (∀ production, production ∈ news → production ∈ productions) →
      (∀ production, production ∈ productions → Owned terminals low high before after production.lhs →
        production ∈ news) → holds productions

theorem Contributes.trans {low middle high : Nat} {left right : Array Production → Prop}
    (former : Contributes terminals low middle first second left)
    (latter : Contributes terminals middle high second third right) (rising : low ≤ middle)
    (room : terminals + high ≤ first.kinds.size) (grown : first.kinds.size ≤ second.kinds.size)
    (more : second.kinds.size ≤ third.kinds.size) (order : middle ≤ high) :
    Contributes terminals low high first third fun productions => left productions ∧ right productions := by
  obtain ⟨news, added, owned, holds⟩ := former
  obtain ⟨others, addedMore, ownedMore, holdsMore⟩ := latter
  unfold Owned Between at owned holds ownedMore holdsMore
  refine ⟨news ++ others, ?_, ?_, ?_⟩
  · rw [addedMore, added, Array.append_assoc]
  · intro production member
    unfold Owned Between
    rcases Array.mem_append.mp member with early | late
    · have here := owned production early
      omega
    · have here := ownedMore production late
      omega
  · intro productions kept only
    unfold Owned Between at only
    constructor
    · refine holds productions (fun production early => kept production (Array.mem_append_left _ early)) ?_
      intro production member mine
      rcases Array.mem_append.mp (only production member (by omega)) with early | late
      · exact early
      · have here := ownedMore production late
        omega
    · refine holdsMore productions (fun production late => kept production (Array.mem_append_right _ late)) ?_
      intro production member mine
      rcases Array.mem_append.mp (only production member (by omega)) with early | late
      · have here := owned production early
        omega
      · exact late

def Realizes (names : Names) (productions : Array Production) (id : NonterminalId) (body : Rule) : Prop :=
  ∃ forms, FlattensTo names.symbols names.literals productions body forms ∧ RightHandSides productions id forms

theorem rule_flattened {names : Names} {rules index : Nat} {name : String} {body : Rule} {state after : State}
    (numbered : names.NumberedIfSmall rules) (declared : index < rules)
    (room : names.terminalCount + rules ≤ state.kinds.size) (fits : after.kinds.size ≤ Declaration.symbolLimit)
    (flattened : rule names index name body state = .ok after) :
    Contributes names.terminalCount index (index + 1) state after
      fun productions => Realizes names productions (.ofIndex index) body := by
  unfold rule at flattened
  obtain ⟨⟨alternatives, inner⟩, expanded, same⟩ := bind_ok.mp flattened
  cases pure_ok.mp same
  obtain ⟨news, adds, flattens⟩ : Flattened { names with rule := name } body { state with helpers := 0 }
      (alternatives.map Alternative.symbols) inner :=
    @expand_flattened { names with rule := name } rules
      (fun small => ⟨(numbered small).symbols, (numbered small).literals⟩) body _ _ alternatives inner room
      fits expanded
  have grown : state.kinds.size ≤ inner.kinds.size := adds.kinds_le
  have lhsIndex : (NonterminalId.ofIndex index).index = index := by
    apply NonterminalId.index_ofIndex
    simp only [Declaration.symbolLimit] at fits
    omega
  have members : ∀ production,
      production ∈ news ++ (alternatives.map (·.production (.ofIndex index) .plain .plain)).toArray ↔
        production ∈ news ∨ ∃ alternative, alternative ∈ alternatives ∧
          alternative.production (.ofIndex index) .plain .plain = production := by
    intro production
    rw [Array.mem_append, mem_productions]
  refine ⟨news ++ (alternatives.map (·.production (.ofIndex index) .plain .plain)).toArray, ?_, ?_, ?_⟩
  · change inner.productions ++ _ = _
    rw [adds.productions, Array.append_assoc]
  · intro production member
    rcases (members production).mp member with early | ⟨alternative, _, rfl⟩
    · exact Or.inr (adds.between production early)
    · exact Or.inl ⟨Nat.le_of_eq lhsIndex.symm, Nat.lt_succ_of_le (Nat.le_of_eq lhsIndex)⟩
  · intro productions kept only
    refine ⟨_, flattens productions ⟨?_, ?_⟩, ?_⟩
    · intro production early
      exact kept production ((members production).mpr (Or.inl early))
    · intro production member between
      rcases (members production).mp (only production member (Or.inr between)) with early | ⟨alternative, _, rfl⟩
      · exact early
      · have low : state.kinds.size ≤ names.terminalCount + (NonterminalId.ofIndex index).index := between.1
        omega
    · intro form
      rw [List.mem_map]
      constructor
      · rintro ⟨production, member, lhs, rfl⟩
        have lhsAt : production.lhs.index = index := lhs ▸ lhsIndex
        rcases (members production).mp (only production member (Or.inl (by omega))) with
          early | ⟨alternative, among, rfl⟩
        · have low : state.kinds.size ≤ names.terminalCount + production.lhs.index :=
            (adds.between production early).1
          omega
        · exact ⟨alternative, among, rfl⟩
      · rintro ⟨alternative, among, rfl⟩
        exact ⟨_, kept _ ((members _).mpr (Or.inr ⟨alternative, among, rfl⟩)), rfl, rfl⟩

theorem rules_flattened {names : Names} {rules : Nat} (numbered : names.NumberedIfSmall rules) :
    ∀ (bodies : List (String × Rule)) (index : Nat) (state after : State), index + bodies.length = rules →
      names.terminalCount + rules ≤ state.kinds.size → after.kinds.size ≤ Declaration.symbolLimit →
      Flatten.rules names index bodies state = .ok after →
      Contributes names.terminalCount index rules state after fun productions =>
        ∀ place name body, bodies[place]? = some (name, body) →
          Realizes names productions (.ofIndex (index + place)) body
  | [], index, state, after, _declared, _room, _fits, flattened => by
      unfold Flatten.rules at flattened
      cases flattened
      refine ⟨#[], Array.append_empty.symm, fun production none => absurd none (Array.not_mem_empty production), ?_⟩
      intro productions _ _ place name body found
      cases found
  | (name, body) :: rest, index, state, after, declared, room, fits, flattened => by
      unfold Flatten.rules at flattened
      obtain ⟨middle, firstDone, remaining⟩ := bind_ok.mp flattened
      rw [List.length_cons] at declared
      have head := rule_grows numbered (show index < rules by omega) room firstDone
      have tail := rules_grows numbered rest (index + 1) middle after (by omega)
        (Nat.le_trans room head.kinds_le) remaining
      have former := rule_flattened numbered (show index < rules by omega) room
        (Nat.le_trans tail.kinds_le fits) firstDone
      have latter := rules_flattened numbered rest (index + 1) middle after (by omega)
        (Nat.le_trans room head.kinds_le) fits remaining
      obtain ⟨news, added, owned, holds⟩ :=
        former.trans latter (Nat.le_succ index) room head.kinds_le tail.kinds_le (by omega)
      refine ⟨news, added, owned, fun productions kept only place wanted found at_ => ?_⟩
      obtain ⟨here, later⟩ := holds productions kept only
      cases place with
      | zero =>
          cases at_
          exact here
      | succ place =>
          have last : index + 1 + place = index + (place + 1) := by omega
          exact last ▸ later place wanted found at_

end IncrementalParsing.Flatten
