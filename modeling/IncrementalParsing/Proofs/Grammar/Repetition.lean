import IncrementalParsing.Lalr.Compile
import IncrementalParsing.Proofs.Grammar.LeftNested

/-!
Repetitions of the empty sequence. Flattening refuses to repeat a rule that has an alternative without
symbols, and it refuses for this reason only then. An alternative that consists of references to rules that
describe the empty sequence is not refused, and where no repetition has such an alternative, no right-hand side
of a helper derives the empty word.
-/

namespace IncrementalParsing

namespace Rule

mutual

/-- Whether a rule has an alternative without symbols. -/
def vanishes : Rule → Bool
  | .blank => true
  | .literal _ => false
  | .symbol _ => false
  | .sequence rules => vanishAll rules
  | .choice rules => vanishAny rules
  | .repeated _ => false
  | .precedence _ _ rule => rule.vanishes
  | .field _ rule => rule.vanishes

def vanishAll : List Rule → Bool
  | [] => true
  | rule :: rest => rule.vanishes && vanishAll rest

def vanishAny : List Rule → Bool
  | [] => false
  | rule :: rest => rule.vanishes || vanishAny rest

end

mutual

/-- Whether such a rule is repeated somewhere in a rule. -/
def repeatsBlank : Rule → Bool
  | .blank => false
  | .literal _ => false
  | .symbol _ => false
  | .sequence rules => repeatsBlankAny rules
  | .choice rules => repeatsBlankAny rules
  | .repeated body => body.vanishes || body.repeatsBlank
  | .precedence _ _ rule => rule.repeatsBlank
  | .field _ rule => rule.repeatsBlank

def repeatsBlankAny : List Rule → Bool
  | [] => false
  | rule :: rest => rule.repeatsBlank || repeatsBlankAny rest

end

end Rule

namespace Flatten

open Rule (vanishAll vanishAny repeatsBlankAny)

def hasBlank (alternatives : List Alternative) : Bool := alternatives.any (·.steps.isEmpty)

theorem hasBlank_cons (first : Alternative) (rest : List Alternative) :
    hasBlank (first :: rest) = (first.steps.isEmpty || hasBlank rest) := rfl

theorem hasBlank_append (left right : List Alternative) :
    hasBlank (left ++ right) = (hasBlank left || hasBlank right) := List.any_append

theorem isEmpty_append (first second : Alternative) :
    (first.append second).steps.isEmpty = (first.steps.isEmpty && second.steps.isEmpty) := by
  rw [Alternative.append]
  cases first.steps <;> rfl

theorem hasBlank_map_append (first : Alternative) (seconds : List Alternative) :
    hasBlank (seconds.map first.append) = (first.steps.isEmpty && hasBlank seconds) := by
  induction seconds with
  | nil => exact (Bool.and_false _).symm
  | cons second seconds ih =>
      rw [List.map_cons, hasBlank_cons, ih, isEmpty_append, hasBlank_cons, Bool.and_or_distrib_left]

theorem hasBlank_combine (firsts seconds : List Alternative) :
    hasBlank (combine firsts seconds) = (hasBlank firsts && hasBlank seconds) := by
  induction firsts with
  | nil => rfl
  | cons first firsts ih =>
      have split : combine (first :: firsts) seconds = seconds.map first.append ++ combine firsts seconds :=
        List.flatMap_cons
      rw [split, hasBlank_append, hasBlank_map_append, ih, hasBlank_cons, Bool.and_or_distrib_right]

section

variable {names : Names}

mutual

/-- What is flattened without a refusal repeats no rule that has an alternative without symbols. -/
theorem expand_vanishes : ∀ (rule : Rule) (context : Context) (state : State) (alternatives : List Alternative)
    (after : State), expand names context rule state = .ok (alternatives, after) →
    hasBlank alternatives = rule.vanishes ∧ rule.repeatsBlank = false
  | .blank, context, state, alternatives, after, expanded => by
      unfold expand at expanded
      cases expanded
      exact ⟨rfl, rfl⟩
  | .literal text, context, state, alternatives, after, expanded => by
      unfold expand at expanded
      split at expanded
      · cases expanded
        exact ⟨rfl, rfl⟩
      · cases expanded
  | .symbol name, context, state, alternatives, after, expanded => by
      unfold expand at expanded
      split at expanded
      · cases expanded
        exact ⟨rfl, rfl⟩
      · cases expanded
  | .sequence parts, context, state, alternatives, after, expanded => by
      unfold expand at expanded
      exact expandSequence_vanishes parts context _ state alternatives after expanded
  | .choice parts, context, state, alternatives, after, expanded => by
      unfold expand at expanded
      exact expandChoice_vanishes parts context state alternatives after expanded
  | .repeated body, context, state, alternatives, after, expanded => by
      unfold expand at expanded
      obtain ⟨⟨inner, middle⟩, flattened, rest⟩ := bind_ok.mp expanded
      obtain ⟨blank, inside⟩ := expand_vanishes body _ _ inner middle flattened
      dsimp only at rest
      split at rest
      · cases rest
      · rename_i solid
        cases pure_ok.mp rest
        have noBlank : hasBlank inner = false := Bool.eq_false_iff.mpr solid
        rw [Rule.repeatsBlank, ← blank, noBlank, inside]
        exact ⟨rfl, rfl⟩
  | .precedence level assoc rule, context, state, alternatives, after, expanded => by
      unfold expand at expanded
      exact expand_vanishes rule _ state alternatives after expanded
  | .field name rule, context, state, alternatives, after, expanded => by
      unfold expand at expanded
      obtain ⟨⟨kinds, field⟩, _, rest⟩ := bind_ok.mp expanded
      exact expand_vanishes rule _ _ alternatives after rest

theorem expandSequence_vanishes : ∀ (parts : List Rule) (context : Context) (prior : List Alternative)
    (state : State) (alternatives : List Alternative) (after : State),
    expandSequence names context prior parts state = .ok (alternatives, after) →
    hasBlank alternatives = (hasBlank prior && vanishAll parts) ∧ repeatsBlankAny parts = false
  | [], context, prior, state, alternatives, after, expanded => by
      unfold expandSequence at expanded
      cases expanded
      exact ⟨(Bool.and_true _).symm, rfl⟩
  | rule :: rest, context, prior, state, alternatives, after, expanded => by
      unfold expandSequence at expanded
      obtain ⟨⟨parts, middle⟩, first, remaining⟩ := bind_ok.mp expanded
      obtain ⟨here, solid⟩ := expand_vanishes rule context state parts middle first
      obtain ⟨whole, others⟩ := expandSequence_vanishes rest context _ middle alternatives after remaining
      rw [whole, hasBlank_combine, here, Bool.and_assoc, repeatsBlankAny, solid, others]
      exact ⟨rfl, rfl⟩

theorem expandChoice_vanishes : ∀ (parts : List Rule) (context : Context) (state : State)
    (alternatives : List Alternative) (after : State),
    expandChoice names context parts state = .ok (alternatives, after) →
    hasBlank alternatives = vanishAny parts ∧ repeatsBlankAny parts = false
  | [], context, state, alternatives, after, expanded => by
      unfold expandChoice at expanded
      cases expanded
      exact ⟨rfl, rfl⟩
  | rule :: rest, context, state, alternatives, after, expanded => by
      unfold expandChoice at expanded
      obtain ⟨⟨first, middle⟩, firstDone, remaining⟩ := bind_ok.mp expanded
      obtain ⟨⟨others, last⟩, restDone, same⟩ := bind_ok.mp remaining
      cases pure_ok.mp same
      obtain ⟨here, solid⟩ := expand_vanishes rule context state first middle firstDone
      obtain ⟨behind, solidToo⟩ := expandChoice_vanishes rest context middle others _ restDone
      rw [hasBlank_append, here, behind, repeatsBlankAny, solid, solidToo]
      exact ⟨rfl, rfl⟩

end

/-! ### The refusal -/

mutual

/-- Flattening refuses a repetition only where a rule that has an alternative without symbols is repeated. -/
theorem expand_refuses {name : String} : ∀ (rule : Rule) (context : Context) (state : State),
    expand names context rule state = refuse (.emptyRepeat name) →
    name = names.rule ∧ rule.repeatsBlank = true
  | .blank, context, state, refused => by
      unfold expand at refused
      cases refused
  | .literal text, context, state, refused => by
      unfold expand at refused
      split at refused <;> cases refused
  | .symbol _, context, state, refused => by
      unfold expand at refused
      split at refused <;> cases refused
  | .sequence parts, context, state, refused => by
      unfold expand at refused
      exact expandSequence_refuses parts context _ state refused
  | .choice parts, context, state, refused => by
      unfold expand at refused
      exact expandChoice_refuses parts context state refused
  | .repeated body, context, state, refused => by
      unfold expand at refused
      rcases bind_error.mp refused with inside | ⟨⟨inner, middle⟩, flattened, rest⟩
      · obtain ⟨same, blank⟩ := expand_refuses body _ _ inside
        exact ⟨same, Bool.or_eq_true_iff.mpr (.inr blank)⟩
      · dsimp only at rest
        split at rest
        · rename_i blank
          cases rest
          have vanishes := (expand_vanishes body _ _ inner middle flattened).1
          exact ⟨rfl, Bool.or_eq_true_iff.mpr (.inl (vanishes.symm.trans blank))⟩
        · cases rest
  | .precedence level assoc rule, context, state, refused => by
      unfold expand at refused
      exact expand_refuses rule _ state refused
  | .field label rule, context, state, refused => by
      unfold expand at refused
      rcases bind_error.mp refused with pushed | ⟨⟨kinds, field⟩, _, rest⟩
      · cases field : state.kinds.pushField label <;> rw [field] at pushed <;> cases pushed
      · exact expand_refuses rule _ _ rest

theorem expandSequence_refuses {name : String} : ∀ (parts : List Rule) (context : Context)
    (prior : List Alternative) (state : State),
    expandSequence names context prior parts state = refuse (.emptyRepeat name) →
    name = names.rule ∧ repeatsBlankAny parts = true
  | [], context, prior, state, refused => by
      unfold expandSequence at refused
      cases refused
  | rule :: rest, context, prior, state, refused => by
      unfold expandSequence at refused
      rcases bind_error.mp refused with here | ⟨⟨parts, middle⟩, _, behind⟩
      · obtain ⟨same, blank⟩ := expand_refuses rule context state here
        exact ⟨same, Bool.or_eq_true_iff.mpr (.inl blank)⟩
      · obtain ⟨same, blank⟩ := expandSequence_refuses rest context _ middle behind
        exact ⟨same, Bool.or_eq_true_iff.mpr (.inr blank)⟩

theorem expandChoice_refuses {name : String} : ∀ (parts : List Rule) (context : Context) (state : State),
    expandChoice names context parts state = refuse (.emptyRepeat name) →
    name = names.rule ∧ repeatsBlankAny parts = true
  | [], context, state, refused => by
      unfold expandChoice at refused
      cases refused
  | rule :: rest, context, state, refused => by
      unfold expandChoice at refused
      rcases bind_error.mp refused with here | ⟨⟨first, middle⟩, _, remaining⟩
      · obtain ⟨same, blank⟩ := expand_refuses rule context state here
        exact ⟨same, Bool.or_eq_true_iff.mpr (.inl blank)⟩
      · rcases bind_error.mp remaining with behind | ⟨_, _, done⟩
        · obtain ⟨same, blank⟩ := expandChoice_refuses rest context middle behind
          exact ⟨same, Bool.or_eq_true_iff.mpr (.inr blank)⟩
        · cases done

end

end

/-! ### Rules one after another -/

theorem rules_vanish {names : Names} : ∀ (bodies : List (String × Rule)) (index : Nat) (state after : State),
    rules names index bodies state = .ok after → ∀ name body, (name, body) ∈ bodies → body.repeatsBlank = false
  | [], index, state, after, _flattened, name, body, member => absurd member List.not_mem_nil
  | (first, rule) :: rest, index, state, after, flattened, name, body, member => by
      unfold Flatten.rules at flattened
      obtain ⟨middle, firstDone, remaining⟩ := bind_ok.mp flattened
      rcases List.mem_cons.mp member with same | behind
      · cases same
        unfold Flatten.rule at firstDone
        obtain ⟨⟨alternatives, inner⟩, expanded, _⟩ := bind_ok.mp firstDone
        exact (expand_vanishes _ _ _ alternatives inner expanded).2
      · exact rules_vanish rest (index + 1) middle after remaining name body behind

theorem rules_refuse {names : Names} {name : String} : ∀ (bodies : List (String × Rule)) (index : Nat)
    (state : State), rules names index bodies state = refuse (.emptyRepeat name) →
    ∃ body, (name, body) ∈ bodies ∧ body.repeatsBlank = true
  | [], index, state, refused => by
      unfold Flatten.rules at refused
      cases refused
  | (first, rule) :: rest, index, state, refused => by
      unfold Flatten.rules at refused
      rcases bind_error.mp refused with here | ⟨middle, _, behind⟩
      · unfold Flatten.rule at here
        rcases bind_error.mp here with inside | ⟨_, _, done⟩
        · obtain ⟨rfl, blank⟩ := expand_refuses _ _ _ inside
          exact ⟨rule, List.mem_cons_self, blank⟩
        · cases done
      · obtain ⟨body, member, blank⟩ := rules_refuse rest (index + 1) middle behind
        exact ⟨body, List.mem_cons_of_mem _ member, blank⟩

end Flatten

/-! ### What derives the empty word -/

namespace Grammar

variable {grammar : Grammar} {form : List Symbol}

/-- A declared rule that describes the empty sequence. -/
def IsBlankRule (grammar : Grammar) (symbol : Symbol) : Prop :=
  ∃ id, symbol = .nonterminal id ∧ id.index < grammar.ruleCount ∧ grammar.Derives [symbol] []

theorem derives_nil_of_mem (vanishes : grammar.Derives form []) :
    ∀ symbol, symbol ∈ form → grammar.Derives [symbol] [] := by
  induction form with
  | nil => exact fun _ member => absurd member List.not_mem_nil
  | cons first rest ih =>
      obtain ⟨here, others⟩ := derives_cons_nil.mp vanishes
      intro symbol member
      rcases List.mem_cons.mp member with rfl | behind
      · exact here
      · exact ih others symbol behind

theorem derives_nil_of_forall (each : ∀ symbol, symbol ∈ form → grammar.Derives [symbol] []) :
    grammar.Derives form [] := by
  induction form with
  | nil => exact .refl
  | cons first rest ih =>
      exact derives_cons_nil.mpr ⟨each first List.mem_cons_self,
        ih fun symbol member => each symbol (List.mem_cons_of_mem _ member)⟩

/-- Where every repetition takes a symbol that is no reference to a blank rule, no helper derives the empty word. The
induction is on the derivation: a join leads to its own helper again, and an alternative to its symbols. -/
theorem declared_of_vanishes (numbered : grammar.Numbered)
    (solid : ∀ production, production ∈ grammar.productions → production.kind = .repeatBase →
      ∃ symbol, symbol ∈ production.symbols ∧ ¬ grammar.IsBlankRule symbol)
    (vanishes : grammar.Derives form []) : ∀ id, .nonterminal id ∈ form → id.index < grammar.ruleCount := by
  unfold Derives at vanishes
  induction vanishes using Relation.ReflTransGen.head_induction_on with
  | refl => exact fun _ member => absurd member List.not_mem_nil
  | @head form next produces rest ih =>
      have each := derives_nil_of_mem rest
      obtain @⟨number, production, before, after, found⟩ := produces
      have among := Array.mem_of_getElem? found
      have inner : ∀ symbol, symbol ∈ production.symbols → symbol ∈ before ++ production.symbols ++ after :=
        fun symbol member => List.mem_append_left _ (List.mem_append_right _ member)
      intro id member
      rcases List.mem_append.mp member with front | back
      · exact ih id (List.mem_append_left _ (List.mem_append_left _ front))
      rcases List.mem_cons.mp back with isLhs | behind
      · cases isLhs
        cases kind : production.kind with
        | plain => exact (numbered.productions production among).plain kind
        | repeatBase =>
            obtain ⟨symbol, inside, notBlank⟩ := solid production among kind
            have vanishes := each symbol (inner symbol inside)
            cases symbol with
            | terminal => exact absurd vanishes not_derives_terminal_nil
            | nonterminal other =>
                exact absurd ⟨other, rfl, ih other (inner _ inside), vanishes⟩ notBlank
        | repeatJoin =>
            have halves := numbered.join_symbols found kind
            exact ih _ (inner _ (by rw [halves]; exact List.mem_cons_self))
      · exact ih id (List.mem_append_right _ behind)

/-- The right-hand sides of repetitions derive no empty word if and only if each takes a symbol that is no reference
to a blank rule. -/
theorem bases_solid_iff (numbered : grammar.Numbered) :
    (∀ production, production ∈ grammar.productions → production.kind = .repeatBase →
      ¬ grammar.Derives production.symbols []) ↔
    ∀ production, production ∈ grammar.productions → production.kind = .repeatBase →
      ∃ symbol, symbol ∈ production.symbols ∧ ¬ grammar.IsBlankRule symbol := by
  constructor
  · intro solid production among kind
    apply Classical.byContradiction
    intro blank
    apply solid production among kind
    apply derives_nil_of_forall
    intro symbol member
    apply Classical.byContradiction
    intro takes
    exact blank ⟨symbol, member, fun ⟨_, _, _, vanishes⟩ => takes vanishes⟩
  · intro solid production among kind vanishes
    obtain ⟨symbol, inside, notBlank⟩ := solid production among kind
    have here := derives_nil_of_mem vanishes symbol inside
    cases symbol with
    | terminal => exact not_derives_terminal_nil here
    | nonterminal id => exact notBlank ⟨id, rfl, declared_of_vanishes numbered solid vanishes id inside, here⟩

end Grammar

/-! ### Normal forms -/

namespace Declaration

theorem checkNames_not_emptyRepeat {declaration : Declaration} {name : String} :
    declaration.checkNames ≠ refuse (.emptyRepeat name) := by
  intro refused
  unfold checkNames at refused
  split at refused
  · simp only [bind, Except.bind, refuse] at refused
    repeat' split at refused
    all_goals cases refused
  · cases refused

theorem normalize_refuses_repetition {declaration : Declaration} {name : String}
    (refused : declaration.normalize = refuse (.emptyRepeat name)) :
    ∃ body, (name, body) ∈ declaration.rules ∧ body.repeatsBlank = true := by
  unfold normalize at refused
  rcases bind_error.mp refused with named | ⟨_, _, refused⟩
  · exact absurd named checkNames_not_emptyRepeat
  dsimp only at refused
  split at refused
  · cases refused
  rcases bind_error.mp refused with here | ⟨final, _, refused⟩
  · obtain ⟨body, member, blank⟩ := Flatten.rules_refuse _ _ _ here
    exact ⟨body, Array.mem_toList_iff.mp member, blank⟩
  · split at refused
    · cases refused
    · split at refused <;> cases refused

/-- Repetitions of a grammar take symbols. No right-hand side of a repetition is empty, because a declaration that
repeats a rule with an alternative without symbols is refused, and only such a declaration is refused for
this reason. But a right-hand side may consist of references to rules that describe the empty sequence, and no
right-hand side of a repetition derives the empty word if and only if none does. -/
theorem repetitions_take_symbols (declaration : Declaration) :
    (∀ grammar, declaration.normalize = .ok grammar →
      (∀ production, production ∈ grammar.productions → production.kind = .repeatBase → production.symbols ≠ []) ∧
      ((∀ production, production ∈ grammar.productions → production.kind = .repeatBase →
          ¬ grammar.Derives production.symbols []) ↔
        ∀ production, production ∈ grammar.productions → production.kind = .repeatBase →
          ∃ symbol, symbol ∈ production.symbols ∧ ¬ grammar.IsBlankRule symbol) ∧
      ∀ name body, (name, body) ∈ declaration.rules → body.repeatsBlank = false) ∧
    ∀ name, declaration.normalize = refuse (.emptyRepeat name) →
      ∃ body, (name, body) ∈ declaration.rules ∧ body.repeatsBlank = true := by
  refine ⟨fun grammar normalized => ?_, fun name => normalize_refuses_repetition⟩
  have numbered := normalize_numbered normalized
  obtain ⟨_, final, flattened, _⟩ := normalize_ok normalized
  refine ⟨fun production among kind none => ?_, Grammar.bases_solid_iff numbered, fun name body member => ?_⟩
  · exact ((numbered.productions production among).base kind).2 (List.map_eq_nil_iff.mp none)
  · exact Flatten.rules_vanish _ _ _ final flattened name body (Array.mem_toList_iff.mpr member)

/-! ### Repetitions of a blank rule -/

namespace Vacuous

/-- What is repeated, beside a rule that describes the empty sequence. -/
def declaration (body : Rule) : Declaration :=
  ((Declaration.empty "g").rule "s" (.repeated body)).rule "e" .blank

/-- Nothing but the blank rule, and the blank rule and a literal. -/
def references : Declaration := declaration (.symbol "e")

def literals : Declaration := declaration (.sequence [.symbol "e", .literal "a"])

theorem accepted : references.compile.toOption.isSome = true ∧ references.normalize.toOption.isSome = true ∧
    literals.normalize.toOption.isSome = true ∧
    (match (declaration .blank).normalize with
      | .ok _ => false
      | .error reason => reason == .refused (.emptyRepeat "s")) = true := by
  decide +kernel

theorem blank_refused : (declaration .blank).normalize = refuse (.emptyRepeat "s") := by
  have ends := accepted.2.2.2
  split at ends
  · cases ends
  · rename_i reason normalized
    rw [normalized, eq_of_beq ends]
    rfl

end Vacuous

theorem repetitions_take_symbols_literals : (∃ grammar, Vacuous.literals.normalize = .ok grammar ∧
    ∀ production, production ∈ grammar.productions → production.kind = .repeatBase →
      ¬ grammar.Derives production.symbols []) ∧
    (Vacuous.declaration .blank).normalize = refuse (.emptyRepeat "s") ∧
    ∃ body, ("s", body) ∈ (Vacuous.declaration .blank).rules ∧ body.repeatsBlank = true := by
  have normalized := eq_ok_get Vacuous.accepted.2.2.1
  obtain ⟨_, solid, _⟩ := (repetitions_take_symbols Vacuous.literals).1 _ normalized
  have refused := (repetitions_take_symbols (Vacuous.declaration .blank)).2 "s" Vacuous.blank_refused
  refine ⟨⟨_, normalized, solid.mpr fun production among kind => ?_⟩, Vacuous.blank_refused, refused⟩
  have terminals : ∀ production, production ∈
      (Vacuous.literals.normalize.toOption.get Vacuous.accepted.2.2.1).productions →
        production.kind = .repeatBase → .terminal ⟨2⟩ ∈ production.symbols := by decide +kernel
  exact ⟨_, terminals production among kind, fun ⟨_, impossible, _⟩ => by cases impossible⟩

/-- A grammar is built although the body of a repetition derives the empty word. -/
theorem repetition_of_references : ∃ grammar table, Vacuous.references.normalize = .ok grammar ∧
    Vacuous.references.compile = .ok table ∧ ∃ production, production ∈ grammar.productions ∧
      production.kind = .repeatBase ∧ grammar.Derives production.symbols [] := by
  refine ⟨_, _, eq_ok_get Vacuous.accepted.2.1, eq_ok_get Vacuous.accepted.1,
    ⟨⟨2⟩, [⟨.nonterminal ⟨1⟩, none, 0⟩], 0, .none, .repeatBase⟩, by decide +kernel, rfl, ?_⟩
  have blank : (Vacuous.references.normalize.toOption.get Vacuous.accepted.2.1).productions[3]? =
      some ⟨⟨1⟩, [], 0, .none, .plain⟩ := by decide +kernel
  exact Grammar.derives_production blank

end Declaration

end IncrementalParsing
