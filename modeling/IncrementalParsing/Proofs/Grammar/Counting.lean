import IncrementalParsing.Proofs.Grammar.Unbounded

/-!
Flattening with numbers of 16 bits. What a declaration is really flattened to has the numbers that it has
without a limit, unless there are too many labels, and then flattening breaks off. Only symbols are
counted before a normal form is answered, so the numbers of symbols are followed as far as they fit.
-/

namespace IncrementalParsing

/-! ### The numbers of productions -/

def Step.numbers (step : Step) : Unbounded.Symbol × Option Nat :=
  (step.symbol.numbers, step.field.map FieldId.index)

def Production.numbers (production : Production) : Unbounded.Production :=
  ⟨production.lhs.index, production.steps.map Step.numbers, production.kind⟩

namespace Flatten

def Alternative.numbers (alternative : Alternative) : Unbounded.Alternative := alternative.steps.map Step.numbers

theorem map_numbers_combine (firsts seconds : List Alternative) :
    (combine firsts seconds).map Alternative.numbers =
      Unbounded.combine (firsts.map Alternative.numbers) (seconds.map Alternative.numbers) := by
  unfold combine Unbounded.combine
  rw [List.map_flatMap, List.flatMap_map]
  congr 1
  funext first
  rw [List.map_map, List.map_map]
  exact List.map_congr_left fun second _ => List.map_append

theorem map_numbers_production (alternatives : List Alternative) (lhs : NonterminalId) (context : Context)
    (kind : ProductionKind) :
    (alternatives.map (·.production lhs context kind)).map Production.numbers =
      (alternatives.map Alternative.numbers).map (⟨lhs.index, ·, kind⟩) := by
  rw [List.map_map, List.map_map]
  exact List.map_congr_left fun _ _ => rfl

/-- A state in which everything has its number. Fields are limited at once, and symbols when everything is
flattened, so that the productions are only right if there are few enough of these. -/
structure Agrees (declaration : Declaration) (state : State) (free : Unbounded.State) : Prop where
  kinds : state.kinds.size = declaration.names.terminalCount + declaration.rules.size + free.helpers
  labels : state.kinds.fields.toList = free.labels
  room : free.labels.length < 65536
  productions : state.kinds.size ≤ Declaration.symbolLimit →
    state.productions.toList.map Production.numbers = free.productions

structure Answers (declaration : Declaration) (free : List Unbounded.Alternative × Unbounded.State)
    (answer : List Alternative × State) : Prop where
  state : Agrees declaration answer.2 free.2
  alternatives : answer.2.kinds.size ≤ Declaration.symbolLimit → answer.1.map Alternative.numbers = free.1

def Crowded (free : Unbounded.State) (fault : Fault) : Prop :=
  fault = .arithmeticOverflow ∧ 65536 ≤ free.labels.length

theorem Crowded.mono {before after : Unbounded.State} (below : before.Below after) (fault : Fault)
    (crowded : Crowded before fault) : Crowded after fault :=
  ⟨crowded.1, Nat.le_trans crowded.2 below.labels⟩

section

variable {declaration : Declaration} {state after : State} {free later : Unbounded.State}

theorem Agrees.fits_of_below (agrees : Agrees declaration state free) (reached : Agrees declaration after later)
    (below : free.Below later) (fits : after.kinds.size ≤ Declaration.symbolLimit) :
    state.kinds.size ≤ Declaration.symbolLimit := by
  have before := agrees.kinds
  have behind := reached.kinds
  have helpers := below.helpers
  omega

theorem Agrees.names_fit (agrees : Agrees declaration state free)
    (fits : state.kinds.size ≤ Declaration.symbolLimit) :
    declaration.names.terminalCount + declaration.rules.size ≤ Declaration.symbolLimit :=
  Nat.le_trans (Nat.le_add_right _ _) (agrees.kinds ▸ fits)

/-- A label gets the number of its place, or there are too many of them. -/
theorem pushField_agrees (agrees : Agrees declaration state free) (name : String) :
    Concludes
      (fun answer : KindTable × FieldId =>
        Agrees declaration { state with kinds := answer.1 } (free.addLabel name) ∧
          answer.2.index = (free.addLabel name).labels.idxOf name)
      (Crowded (free.addLabel name))
      (liftM (state.kinds.pushField name) : Outcome (KindTable × FieldId)) := by
  have room := agrees.room
  have size : state.kinds.fields.size = free.labels.length := congrArg List.length agrees.labels
  have index : ∀ {place : Nat}, place < 65536 → (FieldId.ofIndex place).index = place := by
    intro place small
    simpa [FieldId.index, FieldId.ofIndex] using small
  have search : state.kinds.fields.findIdx? (· == name) = free.labels.findIdx? (· == name) := by
    rw [← agrees.labels, ← List.findIdx?_toArray, Array.toArray_toList]
  unfold KindTable.pushField Unbounded.State.addLabel
  rw [search]
  cases found : free.labels.findIdx? (· == name) with
  | some place =>
      obtain ⟨inside, same⟩ := List.findIdx?_eq_some_iff_findIdx_eq.mp found
      have below : free.labels.findIdx (· == name) < free.labels.length := same.symm ▸ inside
      have listed : name ∈ free.labels := List.idxOf_lt_length_iff.mp below
      rw [if_pos listed]
      exact ⟨agrees, (index (Nat.lt_trans inside room)).trans same.symm⟩
  | none =>
      have fresh : name ∉ free.labels := by
        intro listed
        have away := List.findIdx?_eq_none_iff.mp found name listed
        simp at away
      rw [if_neg fresh]
      dsimp only
      split
      · rename_i full
        exact ⟨rfl, by simp; omega⟩
      · rename_i other
        refine ⟨⟨agrees.kinds, ?_, ?_, agrees.productions⟩, ?_⟩
        · rw [Array.toList_push, agrees.labels]
        · rw [List.length_append, List.length_singleton]
          omega
        · rw [index (by omega), size, List.idxOf_append, if_neg fresh, List.idxOf_cons_self, Nat.zero_add]

theorem Agrees.push (agrees : Agrees declaration state free) (rule : String) :
    Agrees declaration
      { state with
        kinds := (state.kinds.push (helperInfo rule (state.helpers + 1))).1
        helpers := state.helpers + 1 }
      { free with helpers := free.helpers + 1 } where
  kinds := by
    have count := agrees.kinds
    rw [KindTable.size_push]
    dsimp only
    omega
  labels := agrees.labels
  room := agrees.room
  productions fits := agrees.productions (by
    rw [KindTable.size_push] at fits
    omega)

/-- The productions of a helper are made of what its body is expanded to. -/
theorem Answers.repeated {alternatives : List Alternative} {bodies : List Unbounded.Alternative}
    (answers : Answers declaration (bodies, later) (alternatives, after)) (agrees : Agrees declaration state free)
    (context : Context) (below : Unbounded.State.Below { free with helpers := free.helpers + 1 } later) :
    let id := NonterminalId.ofIndex (state.kinds.size - declaration.names.terminalCount)
    let bases := alternatives.map (·.production id { context with field := none } .repeatBase)
    let helper := declaration.rules.size + free.helpers
    Answers declaration
      ([[(.nonterminal helper, context.field.map FieldId.index)]],
        { later with productions :=
            later.productions ++ bodies.map (⟨helper, ·, .repeatBase⟩) ++ [Unbounded.joinProduction helper] })
      ([.single context (.nonterminal id)],
        { after with productions := (after.productions ++ bases.toArray).push (joinProduction id) }) := by
  intro id bases helper
  have before := agrees.kinds
  have behind := answers.state.kinds
  have helpers := below.helpers
  have number : after.kinds.size ≤ Declaration.symbolLimit → id.index = helper := by
    intro fits
    unfold Declaration.symbolLimit at fits
    dsimp only at behind helpers
    rw [NonterminalId.index_ofIndex (by omega)]
    omega
  refine ⟨⟨behind, answers.state.labels, answers.state.room, fun fits => ?_⟩, fun fits => ?_⟩
  · have inner := answers.state.productions fits
    have join : (joinProduction id).numbers = Unbounded.joinProduction helper := number fits ▸ rfl
    rw [Array.toList_push, Array.toList_append, List.map_append, List.map_append, inner,
      map_numbers_production, answers.alternatives fits, number fits, List.map_singleton, join]
  · rw [← number fits]
    rfl

mutual

theorem expand_agrees (named : declaration.checkNames = .ok ()) (rule : String) :
    ∀ (body : Rule) (context : Context) (state : State) (free : Unbounded.State),
    (∀ text, text ∈ body.literals → text ∈ declaration.literalTexts) → Agrees declaration state free →
    Concludes (Answers declaration (Unbounded.expand declaration (context.field.map FieldId.index) body free))
      (Crowded (Unbounded.expand declaration (context.field.map FieldId.index) body free).2)
      (expand { declaration.names with rule } context body state)
  | .blank, _, _, _, _, agrees => by
      unfold expand Unbounded.expand
      exact ⟨agrees, fun _ => rfl⟩
  | .literal text, context, state, free, listed, agrees => by
      obtain ⟨kind, found, number⟩ := Declaration.exists_literal (listed text List.mem_cons_self)
      unfold expand Unbounded.expand
      dsimp only
      rw [found]
      refine ⟨agrees, fun fits => congrArg (fun symbol => [[(symbol, _)]]) (number ?_)⟩
      exact Nat.le_trans (Nat.le_add_right _ _) (agrees.names_fit fits)
  | .symbol name, context, state, free, listed, agrees => by
      unfold expand Unbounded.expand
      dsimp only
      cases found : declaration.names.symbols[name]? with
      | none => exact trivial
      | some symbol =>
          refine ⟨agrees, fun fits => congrArg (fun symbol => [[(symbol, _)]]) ?_⟩
          exact Declaration.symbols_numbers named (agrees.names_fit fits) found
  | .sequence parts, context, state, free, listed, agrees => by
      unfold expand Unbounded.expand
      exact expandSequence_agrees named rule parts context [⟨[], none⟩] [[]] state free listed agrees fun _ => rfl
  | .choice parts, context, state, free, listed, agrees => by
      unfold expand Unbounded.expand
      exact expandChoice_agrees named rule parts context state free listed agrees
  | .repeated body, context, state, free, listed, agrees => by
      have begun : Agrees declaration
          { state with
            kinds := (state.kinds.push (helperInfo rule (state.helpers + 1))).1
            helpers := state.helpers + 1 }
          { free with helpers := free.helpers + 1 } := agrees.push rule
      unfold expand Unbounded.expand
      refine (expand_agrees named rule body { context with field := none } _ _ listed begun).bind
        (fun _ broken => broken) ?_
      rintro ⟨alternatives, after⟩ answers
      dsimp only
      split
      · exact trivial
      · exact answers.repeated agrees context (Unbounded.expand_below declaration body none _)
  | .precedence level assoc body, context, state, free, listed, agrees => by
      unfold expand Unbounded.expand
      exact expand_agrees named rule body { context with level, assoc } state free listed agrees
  | .field name body, context, state, free, listed, agrees => by
      unfold expand Unbounded.expand
      refine (pushField_agrees agrees name).bind
        (Crowded.mono (Unbounded.expand_below declaration body _ (free.addLabel name))) ?_
      rintro ⟨kinds, field⟩ ⟨labelled, number⟩
      dsimp only at number ⊢
      rw [← number]
      exact expand_agrees named rule body { context with field := some field } _ _ listed labelled

theorem expandSequence_agrees (named : declaration.checkNames = .ok ()) (rule : String) :
    ∀ (parts : List Rule) (context : Context) (prior : List Alternative)
    (before : List Unbounded.Alternative) (state : State) (free : Unbounded.State),
    (∀ text, text ∈ Rule.literalsOfAll parts → text ∈ declaration.literalTexts) → Agrees declaration state free →
    (state.kinds.size ≤ Declaration.symbolLimit → prior.map Alternative.numbers = before) →
    Concludes
      (Answers declaration
        (Unbounded.expandSequence declaration (context.field.map FieldId.index) before parts free))
      (Crowded (Unbounded.expandSequence declaration (context.field.map FieldId.index) before parts free).2)
      (expandSequence { declaration.names with rule } context prior parts state)
  | [], _, _, _, _, _, _, agrees, same => by
      unfold expandSequence Unbounded.expandSequence
      exact ⟨agrees, same⟩
  | part :: rest, context, prior, before, state, free, listed, agrees, same => by
      unfold expandSequence Unbounded.expandSequence
      have firstListed : ∀ text, text ∈ part.literals → text ∈ declaration.literalTexts :=
        fun text member => listed text (List.mem_append_left _ member)
      have restListed : ∀ text, text ∈ Rule.literalsOfAll rest → text ∈ declaration.literalTexts :=
        fun text member => listed text (List.mem_append_right _ member)
      have below := Unbounded.expand_below declaration part (context.field.map FieldId.index) free
      refine (expand_agrees named rule part context state free firstListed agrees).bind
        (Crowded.mono (Unbounded.expandSequence_below declaration rest _ _ _)) ?_
      rintro ⟨parts, middle⟩ answers
      refine expandSequence_agrees named rule rest context _ _ middle _ restListed answers.state fun fits => ?_
      rw [map_numbers_combine, same (agrees.fits_of_below answers.state below fits), answers.alternatives fits]

theorem expandChoice_agrees (named : declaration.checkNames = .ok ()) (rule : String) :
    ∀ (parts : List Rule) (context : Context) (state : State)
    (free : Unbounded.State),
    (∀ text, text ∈ Rule.literalsOfAll parts → text ∈ declaration.literalTexts) → Agrees declaration state free →
    Concludes
      (Answers declaration (Unbounded.expandChoice declaration (context.field.map FieldId.index) parts free))
      (Crowded (Unbounded.expandChoice declaration (context.field.map FieldId.index) parts free).2)
      (expandChoice { declaration.names with rule } context parts state)
  | [], _, _, _, _, agrees => by
      unfold expandChoice Unbounded.expandChoice
      exact ⟨agrees, fun _ => rfl⟩
  | part :: rest, context, state, free, listed, agrees => by
      unfold expandChoice Unbounded.expandChoice
      have firstListed : ∀ text, text ∈ part.literals → text ∈ declaration.literalTexts :=
        fun text member => listed text (List.mem_append_left _ member)
      have restListed : ∀ text, text ∈ Rule.literalsOfAll rest → text ∈ declaration.literalTexts :=
        fun text member => listed text (List.mem_append_right _ member)
      have below := Unbounded.expandChoice_below declaration rest (context.field.map FieldId.index)
      refine (expand_agrees named rule part context state free firstListed agrees).bind (Crowded.mono (below _)) ?_
      rintro ⟨first, middle⟩ head
      refine (expandChoice_agrees named rule rest context middle _ restListed head.state).bind
        (fun _ broken => broken) ?_
      rintro ⟨others, last⟩ tail
      refine ⟨tail.state, fun fits => ?_⟩
      rw [List.map_append, head.alternatives (head.state.fits_of_below tail.state (below _) fits),
        tail.alternatives fits]

end

theorem rule_agrees (named : declaration.checkNames = .ok ()) {index : Nat} (declared : index < declaration.rules.size)
    (name : String) {body : Rule} (listed : ∀ text, text ∈ body.literals → text ∈ declaration.literalTexts)
    (agrees : Agrees declaration state free) :
    let expanded := Unbounded.expand declaration none body free
    let flattened : Unbounded.State :=
      { expanded.2 with productions := expanded.2.productions ++ expanded.1.map (⟨index, ·, .plain⟩) }
    Concludes (fun after => Agrees declaration after flattened) (Crowded flattened)
      (Flatten.rule declaration.names index name body state) := by
  intro expanded flattened
  unfold Flatten.rule
  refine (expand_agrees named name body .plain { state with helpers := 0 } free listed
    ⟨agrees.kinds, agrees.labels, agrees.room, agrees.productions⟩).bind (fun _ broken => broken) ?_
  rintro ⟨alternatives, after⟩ answers
  refine ⟨answers.state.kinds, answers.state.labels, answers.state.room, fun fits => ?_⟩
  have small := answers.state.names_fit fits
  unfold Declaration.symbolLimit at small
  have number : (NonterminalId.ofIndex index).index = index := NonterminalId.index_ofIndex (by omega)
  have inner := answers.state.productions fits
  dsimp only
  rw [Array.toList_append, List.map_append, inner, map_numbers_production, answers.alternatives fits, number]
  rfl

theorem rules_agrees (named : declaration.checkNames = .ok ()) : ∀ (bodies : List (String × Rule)) (index : Nat)
    (state : State) (free : Unbounded.State), index + bodies.length ≤ declaration.rules.size →
    (∀ entry, entry ∈ bodies → ∀ text, text ∈ entry.2.literals → text ∈ declaration.literalTexts) →
    Agrees declaration state free →
    Concludes (fun after => Agrees declaration after (Unbounded.rules declaration index bodies free))
      (Crowded (Unbounded.rules declaration index bodies free))
      (Flatten.rules declaration.names index bodies state)
  | [], _, _, _, _, _, agrees => by
      unfold Flatten.rules Unbounded.rules
      exact agrees
  | (name, body) :: rest, index, state, free, declared, listed, agrees => by
      rw [List.length_cons] at declared
      unfold Flatten.rules Unbounded.rules
      refine (rule_agrees named (by omega) name (listed _ List.mem_cons_self) agrees).bind
        (Crowded.mono (Unbounded.rules_below declaration rest _ _)) fun middle reached => ?_
      exact rules_agrees named rest (index + 1) middle _ (by omega)
        (fun entry member => listed entry (List.mem_cons_of_mem _ member)) reached

end

end Flatten

/-! ### The numbers of a grammar -/

/-- The terminals of a lexer have the numbers that their names and texts stand for. -/
structure LexicalGrammar.Counts (declaration : Declaration) (lexical : LexicalGrammar) : Prop where
  tokens : lexical.tokens.toList.map (fun kind => (Symbol.terminal kind).numbers) =
    declaration.tokens.toList.map (Unbounded.symbol declaration)
  externals : lexical.externals.toList.map (fun kind => (Symbol.terminal kind).numbers) =
    declaration.externals.toList.map (Unbounded.symbol declaration)
  literals : lexical.literals.toList.map (fun entry => (entry.1, (Symbol.terminal entry.2).numbers)) =
    declaration.literalTexts.map fun text => (text, Unbounded.literal declaration text)
  word : lexical.word.map (fun kind => (Symbol.terminal kind).numbers) =
    declaration.word.map (Unbounded.symbol declaration)

structure Grammar.Counts (declaration : Declaration) (grammar : Grammar) : Prop where
  kinds : grammar.kinds.size =
    grammar.terminalCount + grammar.ruleCount + (Unbounded.flatten declaration).helpers
  labels : grammar.kinds.fields.toList = (Unbounded.flatten declaration).labels
  productions : grammar.productions.toList.map Production.numbers = (Unbounded.flatten declaration).productions
  lexical : grammar.lexical.Counts declaration

namespace Declaration

variable {declaration : Declaration}

theorem map_numbers_range (named : declaration.checkNames = .ok ())
    (fits : declaration.names.terminalCount ≤ symbolLimit) (names : List String) (first : Nat)
    (among : ∀ place name, names[place]? = some name → (Unbounded.tokenNames declaration)[first + place]? = some name) :
    (List.range names.length).map
        (fun place => (Symbol.terminal (.ofIndex (reservedKinds.size + first + place))).numbers) =
      names.map (Unbounded.symbol declaration) := by
  unfold symbolLimit at fits
  apply List.ext_getElem
  · simp
  · intro place _ inside
    rw [List.length_map] at inside
    have here := among place names[place] (List.getElem?_eq_getElem inside)
    have below := token_lt here
    rw [List.getElem_map, List.getElem_map, List.getElem_range, symbol_of_token named here, Nat.add_assoc]
    exact Symbol.numbers_terminal (by omega)

theorem checkNames_word (named : declaration.checkNames = .ok ()) {word : String}
    (declared : declaration.word = some word) : word ∈ declaration.tokens := by
  cases listed : declaration.tokens.contains word with
  | true => exact Array.contains_iff_mem.mp listed
  | false =>
      exfalso
      unfold checkNames at named
      rw [declared] at named
      dsimp only at named
      rw [listed] at named
      repeat' split at named
      all_goals first
        | exact absurd rfl ‹¬(!false) = true›
        | cases named

theorem lexicalGrammar_counts (named : declaration.checkNames = .ok ())
    (fits : declaration.names.terminalCount ≤ symbolLimit) : declaration.lexicalGrammar.Counts declaration where
  tokens := by
    unfold lexicalGrammar
    rw [Array.toList_map, Array.toList_range, List.map_map]
    refine map_numbers_range named fits declaration.tokens.toList 0 fun place name found => ?_
    rw [Nat.zero_add]
    exact List.getElem?_append_left (List.getElem?_eq_some_iff.mp found).1 |>.trans found
  externals := by
    unfold lexicalGrammar
    rw [Array.toList_map, Array.toList_range, List.map_map]
    refine map_numbers_range named fits declaration.externals.toList declaration.tokens.size ?_
    intro place name found
    unfold Unbounded.tokenNames
    rw [List.getElem?_append_right (by rw [Array.length_toList]; exact Nat.le_add_right _ _), Array.length_toList,
      Nat.add_sub_cancel_left]
    exact found
  literals := by
    have count := terminalCount_eq declaration
    unfold symbolLimit at fits
    unfold lexicalGrammar numbered
    rw [List.toList_toArray, List.map_map]
    apply List.ext_getElem
    · simp
    · intro place _ inside
      rw [List.length_map] at inside
      have distinct : declaration.literalTexts.Nodup := nodup_eraseDups _
      rw [List.getElem_map, List.getElem_map, List.getElem_zipIdx]
      unfold Unbounded.literal
      rw [distinct.idxOf_getElem place inside]
      exact congrArg (Prod.mk _) (Symbol.numbers_terminal (by unfold firstLiteral at count; omega))
  word := by
    unfold lexicalGrammar
    dsimp only
    cases declared : declaration.word with
    | none => rfl
    | some word =>
        have here := checkNames_word named declared
        cases found : declaration.tokens.findIdx? (· == word) with
        | none =>
            have away := Array.findIdx?_eq_none_iff.mp found word here
            simp at away
        | some place =>
            obtain ⟨inside, same, _⟩ := Array.findIdx?_eq_some_iff_getElem.mp found
            have at_ : (Unbounded.tokenNames declaration)[place]? = some word := by
              unfold Unbounded.tokenNames
              rw [List.getElem?_append_left (by simpa using inside), Array.getElem?_toList,
                Array.getElem?_eq_getElem inside, beq_iff_eq.mp same]
            have below := token_lt at_
            unfold symbolLimit at fits
            rw [Option.bind_some, found, Option.map_some, Option.map_some, Option.map_some, symbol_of_token named at_]
            exact congrArg some (Symbol.numbers_terminal (by omega))

theorem flatten_agrees (named : declaration.checkNames = .ok ()) :
    Concludes (fun final => Flatten.Agrees declaration final (Unbounded.flatten declaration))
      (Flatten.Crowded (Unbounded.flatten declaration))
      (Flatten.rules declaration.names 0 declaration.rules.toList
        ⟨⟨declaration.terminalKinds ++ (declaration.ruleNames.map (declaredInfo false)).toArray, #[]⟩, #[], 0⟩) := by
  apply Flatten.rules_agrees named
  · simp
  · intro entry member text among
    exact List.mem_eraseDups.mpr (List.mem_flatMap.mpr ⟨entry, member, among⟩)
  · refine ⟨?_, rfl, by decide, fun _ => rfl⟩
    simp [KindTable.size, terminalKinds_size, ruleNames]

/-- A normal form has the right numbers, and there is one or a refusal unless there are too many labels. -/
theorem normalize_concludes (declaration : Declaration) :
    Concludes (fun grammar => grammar.Counts declaration) (Flatten.Crowded (Unbounded.flatten declaration))
      declaration.normalize := by
  unfold normalize
  refine declaration.checkNames_concludes.bind (fun _ impossible => impossible.elim) fun _ named => ?_
  dsimp only
  split
  · exact trivial
  · refine (flatten_agrees named).bind (fun _ broken => broken) fun final agrees => ?_
    split
    · exact trivial
    · rename_i fits
      split
      · exact trivial
      · have few := Nat.le_of_not_lt fits
        refine ⟨agrees.kinds, agrees.labels, agrees.productions few, lexicalGrammar_counts named ?_⟩
        exact Nat.le_trans (Nat.le_add_right _ _) (agrees.names_fit few)

end Declaration

end IncrementalParsing
