import IncrementalParsing.Proofs.Grammar.Flattening
import IncrementalParsing.Proofs.Grammar.Leading
import IncrementalParsing.Proofs.Grammar.Meaning

/-!
Normal forms describe what was declared: a nonterminal of a declared rule derives the words that the rule
describes, and no others. That it derives them is by induction on why the rule describes a word. That it derives
no others is read off a derivation from its end: whatever the symbols of a right-hand side describe, the rule
with this right-hand side describes too.
-/

namespace IncrementalParsing

open Flatten (FlattensTo RightHandSides Realizes)

section Languages

variable {declaration : Declaration} {grammar : Grammar}

abbrev Declaration.Flattens (declaration : Declaration) (grammar : Grammar) (rule : Rule)
    (forms : List (List Symbol)) : Prop :=
  FlattensTo declaration.names.symbols declaration.names.literals grammar.productions rule forms

theorem Declaration.normalize_realizes (normalized : declaration.normalize = .ok grammar) {index : Nat}
    {name : String} {body : Rule} (found : declaration.rules[index]? = some (name, body)) :
    Realizes declaration.names grammar.productions (.ofIndex index) body := by
  obtain ⟨_, final, flattened, fits, _, rfl⟩ := normalize_ok normalized
  have terminals := terminalKinds_size declaration
  obtain ⟨news, added, _, holds⟩ := Flatten.rules_flattened (names_numbered declaration)
    declaration.rules.toList 0 _ final (by simp) (by simp [KindTable.size, terminals, ruleNames]) fits flattened
  dsimp only at added ⊢
  rw [Array.empty_append] at added
  have all := holds final.productions (fun production member => added.symm ▸ member)
    (fun production member _ => added ▸ member) index name body
  rw [Array.getElem?_toList, Nat.zero_add] at all
  exact all found

/-! ### What is described is derived -/

theorem Flatten.RightHandSides.derives {id : NonterminalId} {forms : List (List Symbol)} {form : List Symbol}
    (sides : RightHandSides grammar.productions id forms) (member : form ∈ forms) :
    grammar.Derives [.nonterminal id] form := by
  obtain ⟨production, among, rfl, rfl⟩ := (sides form).mpr member
  obtain ⟨number, found⟩ := Array.mem_iff_getElem?.mp among
  exact Grammar.derives_production found

theorem Flatten.FlattensTo.of_choice {symbols : Std.TreeMap String Symbol} {literals : Std.TreeMap String KindId}
    {productions : Array Production} {rule : Rule} : ∀ {rules : List Rule} {forms : List (List Symbol)},
    FlattensTo symbols literals productions (.choice rules) forms → rule ∈ rules →
    ∃ part, FlattensTo symbols literals productions rule part ∧ ∀ form, form ∈ part → form ∈ forms
  | [], _forms, _flattens, member => absurd member List.not_mem_nil
  | first :: rest, _forms, flattens, member => by
      cases flattens with
      | choice here later =>
          rcases List.mem_cons.mp member with rfl | behind
          · exact ⟨_, here, fun form among => List.mem_append_left _ among⟩
          · obtain ⟨part, flat, inside⟩ := later.of_choice behind
            exact ⟨part, flat, fun form among => List.mem_append_right _ (inside form among)⟩

theorem Declaration.Means.derives (normalized : declaration.normalize = .ok grammar) {rule : Rule}
    {kinds : List KindId} (means : declaration.Means grammar rule kinds) :
    ∀ {forms : List (List Symbol)}, declaration.Flattens grammar rule forms →
      ∃ form, form ∈ forms ∧ grammar.Derives form (Grammar.word kinds) := by
  induction means with
  | blank =>
      intro forms flattens
      cases flattens
      exact ⟨[], List.mem_singleton_self _, .refl⟩
  | literal known =>
      intro forms flattens
      cases flattens with
      | literal found =>
          cases found.symm.trans ((literals_getElem?_iff normalized).mpr known)
          exact ⟨_, List.mem_singleton_self _, .refl⟩
  | token known =>
      intro forms flattens
      cases flattens with
      | symbol found =>
          cases found.symm.trans ((symbols_terminal_iff normalized).mpr known)
          exact ⟨_, List.mem_singleton_self _, .refl⟩
  | rule member _ ih =>
      intro forms flattens
      cases flattens with
      | symbol found =>
          obtain ⟨index, at_⟩ := Array.mem_iff_getElem?.mp member
          cases found.symm.trans ((symbols_nonterminal_iff normalized).mpr ⟨index, _, at_, rfl⟩)
          obtain ⟨others, flat, sides⟩ := normalize_realizes normalized at_
          obtain ⟨form, among, derives⟩ := ih flat
          exact ⟨_, List.mem_singleton_self _, (sides.derives among).trans derives⟩
  | nil =>
      intro forms flattens
      cases flattens
      exact ⟨[], List.mem_singleton_self _, .refl⟩
  | cons _ _ firstIh restIh =>
      intro forms flattens
      cases flattens with
      | cons here later =>
          obtain ⟨front, frontMember, frontDerives⟩ := firstIh here
          obtain ⟨back, backMember, backDerives⟩ := restIh later
          refine ⟨front ++ back, List.mem_flatMap.mpr ⟨front, frontMember, List.mem_map.mpr
            ⟨back, backMember, rfl⟩⟩, ?_⟩
          rw [Grammar.word_append]
          exact Grammar.Derives.append frontDerives backDerives
  | choice member _ ih =>
      intro forms flattens
      obtain ⟨part, flat, inside⟩ := flattens.of_choice member
      obtain ⟨form, among, derives⟩ := ih flat
      exact ⟨form, inside form among, derives⟩
  | once _ ih =>
      intro forms flattens
      cases flattens with
      | repeated flat sides =>
          obtain ⟨form, among, derives⟩ := ih flat
          exact ⟨_, List.mem_singleton_self _,
            (sides.derives (List.mem_append_left _ among)).trans derives⟩
  | more _ _ firstIh othersIh =>
      intro forms flattens
      obtain ⟨rope, ropeMember, ropeDerives⟩ := othersIh flattens
      cases flattens with
      | repeated flat sides =>
          cases List.mem_singleton.mp ropeMember
          obtain ⟨form, among, derives⟩ := firstIh flat
          have front := (sides.derives (List.mem_append_left _ among)).trans derives
          have join := sides.derives (List.mem_append_right _ (List.mem_singleton_self _))
          refine ⟨_, List.mem_singleton_self _, join.trans ?_⟩
          rw [Grammar.word_append]
          exact Grammar.Derives.append front ropeDerives
  | precedence _ ih =>
      intro forms flattens
      cases flattens with
      | precedence flat => exact ih flat
  | field _ ih =>
      intro forms flattens
      cases flattens with
      | field flat => exact ih flat

/-! ### What is derived is described -/

inductive Declaration.Stands (declaration : Declaration) (grammar : Grammar) : NonterminalId → Rule → Prop
  | rule {index : Nat} {name : String} {body : Rule} : declaration.rules[index]? = some (name, body) →
      Stands declaration grammar (.ofIndex index) body
  | helper {id : NonterminalId} {body : Rule} : declaration.Flattens grammar (.repeated body) [[.nonterminal id]] →
      Stands declaration grammar id (.repeated body)

def Declaration.SymbolMeans (declaration : Declaration) (grammar : Grammar) : Symbol → List KindId → Prop
  | .terminal kind, kinds => kinds = [kind]
  | .nonterminal id, kinds => ∀ rule, declaration.Stands grammar id rule → declaration.Means grammar rule kinds

inductive Declaration.FormMeans (declaration : Declaration) (grammar : Grammar) : List Symbol → List KindId → Prop
  | nil : FormMeans declaration grammar [] []
  | cons {symbol : Symbol} {rest : List Symbol} {first others : List KindId} :
      declaration.SymbolMeans grammar symbol first → FormMeans declaration grammar rest others →
      FormMeans declaration grammar (symbol :: rest) (first ++ others)

namespace Declaration.FormMeans

theorem of_word : ∀ kinds : List KindId, declaration.FormMeans grammar (Grammar.word kinds) kinds
  | [] => .nil
  | kind :: rest => by
      have here : declaration.SymbolMeans grammar (.terminal kind) [kind] := rfl
      exact .cons here (of_word rest)

theorem single {symbol : Symbol} {kinds : List KindId} :
    declaration.FormMeans grammar [symbol] kinds ↔ declaration.SymbolMeans grammar symbol kinds := by
  constructor
  · intro means
    cases means with
    | cons here later =>
        cases later
        rw [List.append_nil]
        exact here
  · intro means
    rw [← List.append_nil kinds]
    exact .cons means .nil

theorem append {left right : List Symbol} {first second : List KindId}
    (means : declaration.FormMeans grammar left first) (more : declaration.FormMeans grammar right second) :
    declaration.FormMeans grammar (left ++ right) (first ++ second) := by
  induction means with
  | nil => exact more
  | cons here _ ih =>
      rw [List.append_assoc]
      exact .cons here ih

theorem split {right : List Symbol} : ∀ {left : List Symbol} {kinds : List KindId},
    declaration.FormMeans grammar (left ++ right) kinds →
    ∃ first second, kinds = first ++ second ∧ declaration.FormMeans grammar left first ∧
      declaration.FormMeans grammar right second
  | [], kinds, means => ⟨[], kinds, rfl, .nil, means⟩
  | symbol :: rest, kinds, means => by
      cases means with
      | cons here later =>
          obtain ⟨first, second, rfl, ahead, behind⟩ := split later
          exact ⟨_, second, (List.append_assoc _ _ _).symm, .cons here ahead, behind⟩

variable (normalized : declaration.normalize = .ok grammar)

include normalized

theorem means {rule : Rule} {forms : List (List Symbol)} (flattens : declaration.Flattens grammar rule forms) :
    ∀ {form : List Symbol} {kinds : List KindId}, form ∈ forms → declaration.FormMeans grammar form kinds →
      declaration.Means grammar rule kinds := by
  induction flattens with
  | blank =>
      intro form kinds member means
      cases List.mem_singleton.mp member
      cases means
      exact .blank
  | literal found =>
      intro form kinds member means
      cases List.mem_singleton.mp member
      cases single.mp means
      exact .literal ((literals_getElem?_iff normalized).mp found)
  | @symbol name symbol found =>
      intro form kinds member means
      cases List.mem_singleton.mp member
      have here := single.mp means
      cases symbol with
      | terminal kind =>
          cases here
          exact .token ((symbols_terminal_iff normalized).mp found)
      | nonterminal id =>
          obtain ⟨index, body, at_, rfl⟩ := (symbols_nonterminal_iff normalized).mp found
          exact .rule (Array.mem_of_getElem? at_) (here body (.rule at_))
  | nil =>
      intro form kinds member means
      cases List.mem_singleton.mp member
      cases means
      exact .nil
  | cons _ _ firstIh restIh =>
      intro form kinds member means
      obtain ⟨front, frontMember, rest⟩ := List.mem_flatMap.mp member
      obtain ⟨back, backMember, rfl⟩ := List.mem_map.mp rest
      obtain ⟨first, second, rfl, ahead, behind⟩ := split means
      exact .cons (firstIh frontMember ahead) (restIh backMember behind)
  | none =>
      intro form kinds member
      cases member
  | @choice rule rest _ _ _ _ firstIh restIh =>
      intro form kinds member means
      rcases List.mem_append.mp member with here | later
      · exact .choice List.mem_cons_self (firstIh here means)
      · have others := restIh later means
        cases others with
        | choice among meant => exact .choice (List.mem_cons_of_mem _ among) meant
  | repeated flat sides _ =>
      intro form kinds member means
      cases List.mem_singleton.mp member
      exact single.mp means _ (.helper (.repeated flat sides))
  | precedence _ ih =>
      intro form kinds member means
      exact .precedence (ih member means)
  | field _ ih =>
      intro form kinds member means
      exact .field (ih member means)

/-- A nonterminal describes what the right-hand sides of its productions describe. -/
theorem of_production {number : Nat} {production : Production} {kinds : List KindId}
    (found : grammar.productions[number]? = some production)
    (form : declaration.FormMeans grammar production.symbols kinds) :
    declaration.SymbolMeans grammar (.nonterminal production.lhs) kinds := by
  have among := Array.mem_of_getElem? found
  intro rule stands
  generalize lhs : production.lhs = id at stands
  cases stands with
  | rule at_ =>
      obtain ⟨forms, flat, sides⟩ := normalize_realizes normalized at_
      exact means normalized flat ((sides _).mp ⟨production, among, lhs, rfl⟩) form
  | helper flattens =>
      cases flattens with
      | repeated flat sides =>
          have side := (sides _).mp ⟨production, among, lhs, rfl⟩
          rcases List.mem_append.mp side with base | join
          · exact .once (means normalized flat base form)
          · rw [List.mem_singleton.mp join] at form
            obtain ⟨first, second, rfl, left, right⟩ :=
              @split _ _ [.nonterminal id] [.nonterminal id] _ form
            have stands := Stands.helper (.repeated flat sides)
            exact Means.repeated_append (single.mp left _ stands) (single.mp right _ stands)

theorem of_derives {form : List Symbol} {kinds : List KindId} (derives : grammar.Derives form (Grammar.word kinds)) :
    declaration.FormMeans grammar form kinds := by
  induction derives using Relation.ReflTransGen.head_induction_on with
  | refl => exact of_word kinds
  | head produces _ ih =>
      obtain @⟨number, production, before, after, found⟩ := produces
      obtain ⟨front, last, rfl, ahead, behind⟩ := split ih
      obtain ⟨first, inner, rfl, left, middle⟩ := split ahead
      rw [List.append_assoc]
      exact left.append (.cons (of_production normalized found middle) behind)

end Declaration.FormMeans

/-! ### Languages of rules -/

/-- The nonterminal of a declared rule derives the words that the rule describes, and no others. -/
theorem Declaration.normalize_language (normalized : declaration.normalize = .ok grammar) {index : Nat}
    {name : String} {body : Rule} (found : declaration.rules[index]? = some (name, body)) (kinds : List KindId) :
    declaration.Means grammar body kinds ↔ grammar.Derives [.nonterminal (.ofIndex index)] (Grammar.word kinds) := by
  constructor
  · intro means
    obtain ⟨forms, flattens, sides⟩ := normalize_realizes normalized found
    obtain ⟨form, member, derives⟩ := means.derives normalized flattens
    exact (sides.derives member).trans derives
  · intro derives
    exact FormMeans.single.mp (FormMeans.of_derives normalized derives) body (.rule found)

end Languages

/-! ### Blocks -/

namespace Blocks

def body : Rule :=
  .sequence [.literal "\x7b", .repeated (.choice [.symbol "word", .symbol "block"]), .literal "\x7d"]

def declaration : Declaration :=
  { Declaration.empty "blocks" with
    rules := #[("block", body)]
    tokens := #["word"] }

theorem normalizes : declaration.normalize.toOption.isSome = true := by decide +kernel

def grammar : Grammar := declaration.normalize.toOption.get normalizes

theorem named : grammar.IsLiteral "\x7b" ⟨3⟩ ∧ grammar.IsLiteral "\x7d" ⟨4⟩ ∧ grammar.IsToken "word" ⟨2⟩ := by
  refine ⟨⟨?_, ?_⟩, ⟨?_, ?_⟩, ⟨?_, ?_, ?_⟩⟩ <;> decide +kernel

/-- Whatever a repetition of words and blocks describes makes a block between braces. -/
theorem means_block {inner : List KindId}
    (means : declaration.Means grammar (.repeated (.choice [.symbol "word", .symbol "block"])) inner) :
    declaration.Means grammar body (⟨3⟩ :: (inner ++ [⟨4⟩])) :=
  .cons (.literal named.1) (.cons means (.cons (.literal named.2.1) .nil))

theorem means_word : declaration.Means grammar (.choice [.symbol "word", .symbol "block"]) [⟨2⟩] :=
  .choice List.mem_cons_self (.token named.2.2)

def text : List KindId := [⟨3⟩, ⟨2⟩, ⟨3⟩, ⟨2⟩, ⟨4⟩, ⟨4⟩]

theorem means_text : declaration.Means grammar body text := by
  have inner := means_block (.once means_word)
  have block : declaration.Means grammar (.choice [.symbol "word", .symbol "block"]) [⟨3⟩, ⟨2⟩, ⟨4⟩] :=
    .choice (List.mem_cons_of_mem _ List.mem_cons_self) (.rule (Array.mem_singleton.mpr rfl) inner)
  exact means_block (.more means_word (.once block))

end Blocks

theorem Declaration.normalize_language_blocks :
    Blocks.declaration.rules[0]? = some ("block", Blocks.body) ∧
      Blocks.grammar.Derives [.nonterminal (.ofIndex 0)] (Grammar.word Blocks.text) :=
  ⟨rfl, (Declaration.normalize_language (eq_ok_get Blocks.normalizes) rfl Blocks.text).mp Blocks.means_text⟩

end IncrementalParsing
