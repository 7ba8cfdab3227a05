import IncrementalParsing.Proofs.Lalr.Closure
import Mathlib.Logic.Relation

/-!
Derivations of a grammar in normal form. A production replaces its nonterminal anywhere in a sentential
form; a sentence is a word of terminals that is derived from the start nonterminal. A rightmost derivation
replaces the last nonterminal each time and is known by the numbers of its productions.

Every nonterminal of a grammar that is not refused derives a word, so that whatever begins a sentential
form begins a sentence.
-/

namespace IncrementalParsing.Grammar

/-- One nonterminal of a sentential form is replaced by a right-hand side of it. -/
inductive Produces (grammar : Grammar) : List Symbol → List Symbol → Prop
  | apply {number : Nat} {production : Production} (before after : List Symbol) :
      grammar.productions[number]? = some production →
      Produces grammar (before ++ .nonterminal production.lhs :: after)
        (before ++ production.symbols ++ after)

def Derives (grammar : Grammar) : List Symbol → List Symbol → Prop :=
  Relation.ReflTransGen grammar.Produces

/-- A sentential form without nonterminals. -/
def word (kinds : List KindId) : List Symbol := kinds.map .terminal

/-- The words that are derived from the start nonterminal. -/
def Sentence (grammar : Grammar) (kinds : List KindId) : Prop :=
  grammar.Derives [.nonterminal start] (word kinds)

/-- The last nonterminal is replaced in every step, by the productions with the given numbers. -/
inductive Rightmost (grammar : Grammar) : List Nat → List Symbol → List Symbol → Prop
  | refl (form : List Symbol) : Rightmost grammar [] form form
  | step {number : Nat} {production : Production} {before last : List Symbol} {after : List KindId}
      {numbers : List Nat} : grammar.productions[number]? = some production →
      Rightmost grammar numbers (before ++ production.symbols ++ word after) last →
      Rightmost grammar (number :: numbers) (before ++ .nonterminal production.lhs :: word after) last

variable {grammar : Grammar}

theorem word_append (left right : List KindId) : word (left ++ right) = word left ++ word right :=
  List.map_append

/-! ### Derivations in context -/

theorem Produces.append_left {form next : List Symbol} (produces : grammar.Produces form next)
    (context : List Symbol) : grammar.Produces (context ++ form) (context ++ next) := by
  obtain ⟨before, after, found⟩ := produces
  have here := Produces.apply (context ++ before) after found
  simpa only [List.append_assoc] using here

theorem Produces.append_right {form next : List Symbol} (produces : grammar.Produces form next)
    (context : List Symbol) : grammar.Produces (form ++ context) (next ++ context) := by
  obtain ⟨before, after, found⟩ := produces
  have here := Produces.apply before (after ++ context) found
  simpa only [List.append_assoc, List.cons_append] using here

theorem Derives.append {first firstLast second secondLast : List Symbol}
    (left : grammar.Derives first firstLast) (right : grammar.Derives second secondLast) :
    grammar.Derives (first ++ second) (firstLast ++ secondLast) := by
  have leftThere : grammar.Derives (first ++ second) (firstLast ++ second) :=
    Relation.ReflTransGen.lift (· ++ second)
      (fun _ _ (step : grammar.Produces _ _) => step.append_right second) _ _ left
  have rightThere : grammar.Derives (firstLast ++ second) (firstLast ++ secondLast) :=
    Relation.ReflTransGen.lift (firstLast ++ ·)
      (fun _ _ (step : grammar.Produces _ _) => step.append_left firstLast) _ _ right
  exact leftThere.trans rightThere

theorem Rightmost.derives {numbers : List Nat} {form last : List Symbol}
    (rightmost : grammar.Rightmost numbers form last) : grammar.Derives form last := by
  induction rightmost with
  | refl form => exact .refl
  | step found _ ih => exact .head (.apply _ _ found) ih

theorem Rightmost.append_word {numbers : List Nat} {form last : List Symbol}
    (rightmost : grammar.Rightmost numbers form last) (kinds : List KindId) :
    grammar.Rightmost numbers (form ++ word kinds) (last ++ word kinds) := by
  induction rightmost with
  | refl form => exact .refl _
  | @step number production before last after numbers found _ ih =>
      have here : grammar.Rightmost (number :: numbers)
          (before ++ .nonterminal production.lhs :: word (after ++ kinds)) (last ++ word kinds) :=
        .step found (by rw [word_append, ← List.append_assoc]; exact ih)
      rw [word_append] at here
      simpa only [List.append_assoc, List.cons_append] using here

theorem Derives.within (numbered : grammar.Numbered) {form last : List Symbol}
    (derives : grammar.Derives form last)
    (within : ∀ symbol, symbol ∈ form → symbol.Within grammar.terminalCount grammar.kinds.size) :
    ∀ symbol, symbol ∈ last → symbol.Within grammar.terminalCount grammar.kinds.size := by
  induction derives with
  | refl => exact within
  | tail _ produces ih =>
      obtain ⟨before, after, found⟩ := produces
      intro symbol member
      rcases List.mem_append.mp member with inside | behind
      · rcases List.mem_append.mp inside with ahead | produced
        · exact ih symbol (List.mem_append_left _ ahead)
        · exact (numbered.productions _ (Array.mem_of_getElem? found)).symbols symbol produced
      · exact ih symbol (List.mem_append_right _ (List.mem_cons_of_mem _ behind))

/-! ### Productive nonterminals -/

def Marked (grammar : Grammar) (known : Array Bool) : Prop :=
  ∀ id : NonterminalId, known[id.index]? = some true → ∃ kinds, grammar.Derives [.nonterminal id] (word kinds)

theorem exists_word_of_forall (form : List Symbol)
    (each : ∀ symbol, symbol ∈ form → ∃ kinds, grammar.Derives [symbol] (word kinds)) :
    ∃ kinds, grammar.Derives form (word kinds) := by
  induction form with
  | nil => exact ⟨[], .refl⟩
  | cons symbol rest ih =>
      obtain ⟨first, firstDerives⟩ := each symbol List.mem_cons_self
      obtain ⟨others, othersDerive⟩ := ih (fun other member => each other (List.mem_cons_of_mem _ member))
      refine ⟨first ++ others, ?_⟩
      rw [word_append]
      exact firstDerives.append othersDerive

theorem Marked.symbols {known : Array Bool} (marked : grammar.Marked known) {production : Production}
    (derives : derivesFrom known production = true) :
    ∃ kinds, grammar.Derives production.symbols (word kinds) := by
  apply exists_word_of_forall
  intro symbol member
  obtain ⟨step, among, rfl⟩ := List.mem_map.mp member
  have here := List.all_eq_true.mp derives step among
  cases same : step.symbol with
  | terminal kind => exact ⟨[kind], .refl⟩
  | nonterminal id =>
      rw [same] at here
      apply marked id
      dsimp only at here
      cases there : known[id.index]? with
      | none =>
          rw [there] at here
          cases here
      | some mark =>
          rw [there] at here
          exact congrArg some here

/-- Going through the productions once marks nonterminals that derive words only. -/
theorem Marked.round {known : Array Bool} (marked : grammar.Marked known) :
    grammar.Marked (productiveRound grammar.productions known).1 := by
  unfold productiveRound
  apply Array.foldl_induction (motive := fun _ (state : Array Bool × Bool) => grammar.Marked state.1)
  · exact marked
  · rintro index ⟨state, changed⟩ before
    dsimp only
    split
    · exact before
    · split
      · rename_i derives
        intro id found
        rw [Array.getElem?_setIfInBounds] at found
        split at found
        · rename_i same
          have production := Array.getElem?_eq_getElem index.isLt
          obtain ⟨kinds, symbols⟩ := before.symbols derives
          have equal : grammar.productions[index].lhs = id := Lalr.Visited.index_injective same
          refine ⟨kinds, .head ?_ symbols⟩
          have here : grammar.Produces _ _ := .apply [] [] production
          rw [List.nil_append, List.nil_append, List.append_nil] at here
          exact equal ▸ here
        · exact before id found
      · exact before

theorem productive_marked (grammar : Grammar) : grammar.Marked grammar.productive := by
  unfold productive
  apply saturate_induction
  · exact fun _ => Marked.round
  · intro id found
    rw [Array.getElem?_replicate] at found
    split at found
    · cases found
    · cases found

theorem productive_size (grammar : Grammar) : grammar.productive.size = grammar.nonterminalCount := by
  unfold productive
  refine saturate_induction _ (fun known : Array Bool => known.size = grammar.nonterminalCount) ?_ _ _ ?_
  · intro known size
    unfold productiveRound
    apply Array.foldl_induction
      (motive := fun _ (state : Array Bool × Bool) => state.1.size = grammar.nonterminalCount)
    · exact size
    · rintro index ⟨state, changed⟩ before
      dsimp only
      split
      · exact before
      · split
        · rw [Array.size_setIfInBounds]
          exact before
        · exact before
  · exact Array.size_replicate

theorem exists_word (productive : grammar.unproductive? = none) {form : List Symbol}
    (within : ∀ symbol, symbol ∈ form → symbol.Within grammar.terminalCount grammar.kinds.size) :
    ∃ kinds, grammar.Derives form (word kinds) := by
  apply exists_word_of_forall
  intro symbol member
  have known := within symbol member
  cases symbol with
  | terminal kind => exact ⟨[kind], .refl⟩
  | nonterminal id =>
      apply grammar.productive_marked
      have inside : id.index < grammar.productive.size := by
        have bound : grammar.terminalCount + id.index < grammar.kinds.size := known
        rw [productive_size]
        unfold nonterminalCount
        omega
      have all := Array.findIdx?_eq_none_iff.mp (Option.map_eq_none_iff.mp productive)
      have mark := all _ (Array.getElem_mem inside)
      rw [Bool.not_eq_false'] at mark
      rw [Array.getElem?_eq_getElem inside, mark]

def learn (state : Array Bool × Bool) (production : Production) : Array Bool × Bool :=
  let (known, changed) := state
  if known[production.lhs.index]?.getD false then (known, changed)
  else if derivesFrom known production then (known.setIfInBounds production.lhs.index true, true)
  else (known, changed)

theorem productiveRound_eq (productions : Array Production) (known : Array Bool) :
    productiveRound productions known = productions.toList.foldl learn (known, false) :=
  (Array.foldl_toList _).symm

theorem foldl_learn_known : ∀ {productions : List Production} {changed : Bool},
    (∀ production, production ∈ productions → production.lhs = start) →
    productions.foldl learn (#[true], changed) = (#[true], changed)
  | [], _, _ => rfl
  | production :: rest, changed, mine => by
      have same : learn (#[true], changed) production = (#[true], changed) := by
        unfold learn
        rw [mine production List.mem_cons_self]
        rfl
      rw [List.foldl_cons, same]
      exact foldl_learn_known fun other member => mine other (List.mem_cons_of_mem _ member)

theorem foldl_learn_single : ∀ {productions : List Production} {changed : Bool},
    (∀ production, production ∈ productions → production.lhs = start) →
    (∃ production, production ∈ productions ∧ derivesFrom #[false] production = true) →
    productions.foldl learn (#[false], changed) = (#[true], true)
  | [], _, _, derives => by
      obtain ⟨_, impossible, _⟩ := derives
      cases impossible
  | production :: rest, changed, mine, derives => by
      obtain ⟨wanted, member, derives⟩ := derives
      have others := fun other among => mine other (List.mem_cons_of_mem production among)
      have unknown : learn (#[false], changed) production =
          if derivesFrom #[false] production then (#[true], true) else (#[false], changed) := by
        unfold learn
        rw [mine production List.mem_cons_self]
        rfl
      rw [List.foldl_cons, unknown]
      by_cases here : derivesFrom #[false] production = true
      · rw [if_pos here]
        exact foldl_learn_known others
      · rw [if_neg here]
        refine foldl_learn_single others ⟨wanted, ?_, derives⟩
        rcases List.mem_cons.mp member with rfl | later
        · exact absurd derives here
        · exact later

theorem unproductive?_of_single (single : grammar.nonterminalCount = 1)
    (mine : ∀ production, production ∈ grammar.productions.toList → production.lhs = start)
    (derives : ∃ production, production ∈ grammar.productions.toList ∧ derivesFrom #[false] production = true) :
    grammar.unproductive? = none := by
  have all : grammar.productive = #[true] := by
    unfold productive
    rw [single]
    change saturate _ 2 #[false] = _
    unfold saturate
    rw [productiveRound_eq, foldl_learn_single mine derives]
    unfold saturate
    dsimp only
    rw [productiveRound_eq, foldl_learn_known mine]
    rfl
  have none : (#[true] : Array Bool).findIdx? (!·) = none := Array.findIdx?_eq_none_iff.mpr (by simp)
  unfold unproductive?
  rw [all, none]
  rfl

theorem exists_sentence (numbered : grammar.Numbered) (productive : grammar.unproductive? = none)
    {front rest : List Symbol} {kinds : List KindId}
    (derives : grammar.Derives [.nonterminal start] (front ++ rest))
    (yields : grammar.Derives front (word kinds)) : ∃ others, grammar.Sentence (kinds ++ others) := by
  have startWithin : ∀ symbol, symbol ∈ [Symbol.nonterminal start] →
      symbol.Within grammar.terminalCount grammar.kinds.size := by
    intro symbol member
    rw [List.mem_singleton.mp member]
    have room := numbered.rules_le
    have positive := numbered.rules_pos
    change grammar.terminalCount + 0 < grammar.kinds.size
    omega
  have within := derives.within numbered startWithin
  obtain ⟨others, ends⟩ := exists_word productive
    (fun symbol member => within symbol (List.mem_append_right _ member))
  refine ⟨others, derives.trans ?_⟩
  rw [word_append]
  exact yields.append ends

end IncrementalParsing.Grammar
