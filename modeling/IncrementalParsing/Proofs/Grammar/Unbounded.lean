import IncrementalParsing.Proofs.Grammar.Meaning

/-!
Numbers without a limit. The rules of a declaration are flattened once more, with numbers of any size in
place of numbers of 16 bits: names stand for their places, helpers are counted behind the rules, labels
are counted in the order in which they are met, and nothing is ever refused. Names have the same numbers
here and there as long as all of them fit.
-/

namespace IncrementalParsing

namespace Unbounded

inductive Symbol where
  | terminal (number : Nat)
  | nonterminal (number : Nat)
deriving DecidableEq, Repr

/-- The number of a symbol among all kinds: nonterminals come behind the terminals. -/
def Symbol.kind (terminals : Nat) : Symbol → Nat
  | .terminal number => number
  | .nonterminal number => terminals + number

/-- One way through a rule: its symbols, each with the number of its label. -/
abbrev Alternative := List (Symbol × Option Nat)

structure Production where
  lhs : Nat
  steps : Alternative
  kind : ProductionKind
deriving DecidableEq, Repr

structure State where
  helpers : Nat
  labels : List String
  productions : List Production
deriving DecidableEq, Repr

def State.addLabel (state : State) (name : String) : State :=
  if name ∈ state.labels then state else { state with labels := state.labels ++ [name] }

def combine (firsts seconds : List Alternative) : List Alternative :=
  firsts.flatMap fun first => seconds.map (first ++ ·)

def joinProduction (helper : Nat) : Production :=
  ⟨helper, [(.nonterminal helper, none), (.nonterminal helper, none)], .repeatJoin⟩

section

variable (declaration : Declaration)

def tokenNames : List String := declaration.tokens.toList ++ declaration.externals.toList

def literal (text : String) : Symbol :=
  .terminal (declaration.firstLiteral + declaration.literalTexts.idxOf text)

def symbol (name : String) : Symbol :=
  if name ∈ tokenNames declaration then
    .terminal (Declaration.reservedKinds.size + (tokenNames declaration).idxOf name)
  else .nonterminal (declaration.ruleNames.idxOf name)

mutual

def expand (label : Option Nat) : Rule → State → List Alternative × State
  | .blank, state => ([[]], state)
  | .literal text, state => ([[(literal declaration text, label)]], state)
  | .symbol name, state => ([[(symbol declaration name, label)]], state)
  | .sequence rules, state => expandSequence label [[]] rules state
  | .choice rules, state => expandChoice label rules state
  | .repeated body, state =>
      let helper := declaration.rules.size + state.helpers
      let (bodies, after) := expand none body { state with helpers := state.helpers + 1 }
      ([[(.nonterminal helper, label)]],
        { after with
          productions := after.productions ++ bodies.map (⟨helper, ·, .repeatBase⟩) ++ [joinProduction helper] })
  | .precedence _ _ rule, state => expand label rule state
  | .field name rule, state =>
      let labelled := state.addLabel name
      expand (some (labelled.labels.idxOf name)) rule labelled

def expandSequence (label : Option Nat) (prior : List Alternative) :
    List Rule → State → List Alternative × State
  | [], state => (prior, state)
  | rule :: rest, state =>
      let (parts, after) := expand label rule state
      expandSequence label (combine prior parts) rest after

def expandChoice (label : Option Nat) : List Rule → State → List Alternative × State
  | [], state => ([], state)
  | rule :: rest, state =>
      let (first, after) := expand label rule state
      let (others, last) := expandChoice label rest after
      (first ++ others, last)

end

def rules : Nat → List (String × Rule) → State → State
  | _, [], state => state
  | index, (_, body) :: rest, state =>
      let (alternatives, after) := expand declaration none body state
      rules (index + 1) rest
        { after with productions := after.productions ++ alternatives.map (⟨index, ·, .plain⟩) }

/-- What a declaration is flattened to. -/
def flatten : State := rules declaration 0 declaration.rules.toList ⟨0, [], []⟩

end

/-! ### Numbers only grow -/

structure State.Below (before after : State) : Prop where
  helpers : before.helpers ≤ after.helpers
  labels : before.labels.length ≤ after.labels.length

theorem State.Below.refl (state : State) : state.Below state := ⟨Nat.le_refl _, Nat.le_refl _⟩

theorem State.Below.trans {first second third : State} (before : first.Below second) (after : second.Below third) :
    first.Below third :=
  ⟨Nat.le_trans before.helpers after.helpers, Nat.le_trans before.labels after.labels⟩

theorem State.below_addLabel (state : State) (name : String) : state.Below (state.addLabel name) := by
  unfold addLabel
  split
  · exact .refl state
  · exact ⟨Nat.le_refl _, by simp⟩

section

variable (declaration : Declaration)

mutual

theorem expand_below : ∀ (rule : Rule) (label : Option Nat) (state : State),
    state.Below (expand declaration label rule state).2
  | .blank, _, state => by
      unfold expand
      exact .refl state
  | .literal _, _, state => by
      unfold expand
      exact .refl state
  | .symbol _, _, state => by
      unfold expand
      exact .refl state
  | .sequence rules, label, state => by
      unfold expand
      exact expandSequence_below rules label _ state
  | .choice rules, label, state => by
      unfold expand
      exact expandChoice_below rules label state
  | .repeated body, _, state => by
      unfold expand
      have inner := expand_below body none { state with helpers := state.helpers + 1 }
      exact ⟨Nat.le_trans (Nat.le_succ _) inner.helpers, inner.labels⟩
  | .precedence _ _ rule, label, state => by
      unfold expand
      exact expand_below rule label state
  | .field name rule, _, state => by
      unfold expand
      exact (state.below_addLabel name).trans (expand_below rule _ _)

theorem expandSequence_below : ∀ (rules : List Rule) (label : Option Nat) (prior : List Alternative)
    (state : State), state.Below (expandSequence declaration label prior rules state).2
  | [], _, _, state => by
      unfold expandSequence
      exact .refl state
  | rule :: rest, label, prior, state => by
      unfold expandSequence
      exact (expand_below rule label state).trans (expandSequence_below rest label _ _)

theorem expandChoice_below : ∀ (rules : List Rule) (label : Option Nat) (state : State),
    state.Below (expandChoice declaration label rules state).2
  | [], _, state => by
      unfold expandChoice
      exact .refl state
  | rule :: rest, label, state => by
      unfold expandChoice
      exact (expand_below rule label state).trans (expandChoice_below rest label _)

end

theorem rules_below : ∀ (bodies : List (String × Rule)) (index : Nat) (state : State),
    state.Below (rules declaration index bodies state)
  | [], _, state => by
      unfold rules
      exact .refl state
  | (_, body) :: rest, index, state => by
      unfold rules
      have first := expand_below declaration body none state
      dsimp only
      refine State.Below.trans ?_ (rules_below rest (index + 1) _)
      exact ⟨first.helpers, first.labels⟩

end

end Unbounded

/-! ### The numbers of names -/

def Symbol.numbers : Symbol → Unbounded.Symbol
  | .terminal kind => .terminal kind.index
  | .nonterminal id => .nonterminal id.index

theorem Symbol.numbers_terminal {number : Nat} (small : number < 65536) :
    (Symbol.terminal (.ofIndex number)).numbers = .terminal number :=
  congrArg Unbounded.Symbol.terminal (KindId.index_ofIndex small)

theorem Symbol.numbers_nonterminal {number : Nat} (small : number < 65536) :
    (Symbol.nonterminal (.ofIndex number)).numbers = .nonterminal number :=
  congrArg Unbounded.Symbol.nonterminal (NonterminalId.index_ofIndex small)

theorem idxOf_of_getElem? {names : List String} (distinct : names.Nodup) {place : Nat} {name : String}
    (found : names[place]? = some name) : names.idxOf name = place := by
  obtain ⟨inside, rfl⟩ := List.getElem?_eq_some_iff.mp found
  exact distinct.idxOf_getElem place inside

namespace Declaration

variable {declaration : Declaration}

theorem exists_literal {text : String} (listed : text ∈ declaration.literalTexts) :
    ∃ kind, declaration.names.literals[text]? = some kind ∧
      (declaration.names.terminalCount ≤ symbolLimit →
        (Symbol.terminal kind).numbers = Unbounded.literal declaration text) := by
  have inside := List.idxOf_lt_length_of_mem listed
  have count := terminalCount_eq declaration
  refine ⟨.ofIndex (declaration.firstLiteral + declaration.literalTexts.idxOf text), ?_, fun fits => ?_⟩
  · refine literals_lookup.mpr ⟨_, mem_numbered.mpr ⟨Nat.le_add_right _ _, ?_⟩, rfl⟩
    rw [Nat.add_sub_cancel_left, List.getElem?_eq_getElem inside, List.getElem_idxOf inside]
  · unfold symbolLimit at fits
    exact Symbol.numbers_terminal (by omega)

theorem symbol_of_token (named : declaration.checkNames = .ok ()) {place : Nat} {name : String}
    (found : (Unbounded.tokenNames declaration)[place]? = some name) :
    Unbounded.symbol declaration name = .terminal (reservedKinds.size + place) := by
  have distinct : (Unbounded.tokenNames declaration).Nodup := (List.nodup_append.mp (checkNames_distinct named)).1
  unfold Unbounded.symbol
  rw [if_pos (List.mem_of_getElem? found), idxOf_of_getElem? distinct found]

theorem token_lt {place : Nat} {name : String} (found : (Unbounded.tokenNames declaration)[place]? = some name) :
    reservedKinds.size + place < declaration.names.terminalCount := by
  have inside := (List.getElem?_eq_some_iff.mp found).1
  have count := terminalCount_eq declaration
  unfold Unbounded.tokenNames at inside
  unfold firstLiteral at count
  rw [List.length_append, Array.length_toList, Array.length_toList] at inside
  omega

theorem symbol_of_rule (named : declaration.checkNames = .ok ()) {place : Nat} {name : String}
    (found : declaration.ruleNames[place]? = some name) :
    Unbounded.symbol declaration name = .nonterminal place := by
  obtain ⟨_, distinct, apart⟩ := List.nodup_append.mp (checkNames_distinct named)
  have other : name ∉ Unbounded.tokenNames declaration :=
    fun listed => apart name listed name (List.mem_of_getElem? found) rfl
  unfold Unbounded.symbol
  rw [if_neg other, idxOf_of_getElem? distinct found]

theorem symbols_numbers (named : declaration.checkNames = .ok ())
    (fits : declaration.names.terminalCount + declaration.rules.size ≤ symbolLimit) {name : String}
    {symbol : Symbol} (found : declaration.names.symbols[name]? = some symbol) :
    symbol.numbers = Unbounded.symbol declaration name := by
  unfold symbolLimit at fits
  rcases (symbols_lookup named).mp found with ⟨number, member, rfl⟩ | ⟨number, member, rfl⟩
  · obtain ⟨above, here⟩ := mem_numbered.mp member
    have below := token_lt here
    rw [symbol_of_token named here, Nat.add_sub_cancel' above]
    exact Symbol.numbers_terminal (by omega)
  · obtain ⟨_, here⟩ := mem_numbered.mp member
    have below : number < declaration.rules.size := by
      have inside := (List.getElem?_eq_some_iff.mp here).1
      unfold ruleNames at inside
      rwa [List.length_map, Array.length_toList] at inside
    rw [symbol_of_rule named here, Nat.sub_zero]
    exact Symbol.numbers_nonterminal (by omega)

theorem checkNames_concludes (declaration : Declaration) :
    Concludes (fun _ => declaration.checkNames = .ok ()) (fun _ => False) declaration.checkNames := by
  cases checked : declaration.checkNames with
  | ok answer => exact rfl
  | error failure =>
      cases failure with
      | refused reason => exact trivial
      | fault broken =>
          exfalso
          unfold checkNames at checked
          repeat' split at checked
          all_goals cases checked

end Declaration

end IncrementalParsing
