import IncrementalParsing.Proofs.Lalr.Capacity
import IncrementalParsing.Proofs.Lalr.First

/-!
FIRST sets with every access checked. The search for nullable nonterminals and FIRST sets is written once
more with operations that break off: a table is read at an index that it has, and a set takes up kinds below
its capacity. No production breaks off, and the search ends with the same sets. The FIRST set of a sequence is
gathered symbol by symbol; it is what the sequence can begin with, and the tail exactly if all of it vanishes.
-/

namespace IncrementalParsing.Lalr

/-- The capacity of the sets of a construction: the terminals and the placeholder behind them. -/
def capacityOf (grammar : Grammar) : Nat := grammar.terminalCount + 1

namespace Guarded

def replaceFirst (sets : FirstSets) (id : NonterminalId) (set : TerminalSet) : FirstSets :=
  { sets with first := sets.first.setIfInBounds id.index set }

def unite (capacity : Nat) (lhs : NonterminalId) (sets : FirstSets) (id : NonterminalId) :
    Except Fault (FirstSets × Bool) :=
  if id = lhs then return (sets, false)
  else do
    let members ← requireAt sets.first id.index
    let first ← requireAt sets.first lhs.index
    let (first, grew) ← first.unionBelow capacity members
    return (replaceFirst sets lhs first, grew)

/-- Adds what a right-hand side of `lhs` contributes, up to its first symbol that is not nullable. -/
def contribute (capacity : Nat) (lhs : NonterminalId) (sets : FirstSets) (changed : Bool) :
    List Symbol → Except Fault (FirstSets × Bool)
  | [] => do
      if ← requireAt sets.nullable lhs.index then return (sets, changed)
      else return (sets.markNullable lhs, true)
  | .terminal kind :: _ => do
      let first ← requireAt sets.first lhs.index
      let (first, fresh) ← first.insertBelow capacity kind
      return (replaceFirst sets lhs first, changed || fresh)
  | .nonterminal id :: rest => do
      let (next, grew) ← unite capacity lhs sets id
      if ← requireAt next.nullable id.index then contribute capacity lhs next (changed || grew) rest
      else return (next, changed || grew)

def round (grammar : Grammar) (sets : FirstSets) : Except Fault (FirstSets × Bool) :=
  grammar.productions.toList.foldlM
    (fun (sets, changed) production =>
      contribute (capacityOf grammar) production.lhs sets changed production.symbols)
    (sets, false)

/-- The sets of a grammar, once a round has nothing to add. -/
def firstSets (grammar : Grammar) : Except Fault FirstSets :=
  saturateWithin (round grammar) (grammar.nonterminalCount * (grammar.terminalCount + 2) + 1)
    (.initial grammar)

def gatherFirst (capacity : Nat) (sets : FirstSets) (tail set : TerminalSet) :
    List Symbol → Except Fault TerminalSet
  | [] => do
      let (set, _) ← set.unionBelow capacity tail
      return set
  | .terminal kind :: _ => do
      let (set, _) ← set.insertBelow capacity kind
      return set
  | .nonterminal id :: rest => do
      let members ← requireAt sets.first id.index
      let (set, _) ← set.unionBelow capacity members
      if ← requireAt sets.nullable id.index then gatherFirst capacity sets tail set rest
      else return set

def firstOf (grammar : Grammar) (sets : FirstSets) (symbols : List Symbol) (tail : TerminalSet) :
    Except Fault TerminalSet :=
  gatherFirst (capacityOf grammar) sets tail (.withCapacity (capacityOf grammar)) symbols

structure Fitting (grammar : Grammar) (sets : FirstSets) : Prop where
  nullable_size : sets.nullable.size = grammar.nonterminalCount
  first_size : sets.first.size = grammar.nonterminalCount
  made : ∀ set, set ∈ sets.first → set.MadeFor (capacityOf grammar)
  below : ∀ set, set ∈ sets.first → set.bits < 1 <<< capacityOf grammar

variable {grammar : Grammar} {sets : FirstSets} {lhs id : NonterminalId} {kind terminal : KindId}
  {tail : TerminalSet}

theorem Fitting.first_at (fitting : Fitting grammar sets) (inside : id.index < grammar.nonterminalCount) :
    requireAt sets.first id.index = .ok (sets.ofNonterminal id) ∧
      (sets.ofNonterminal id).MadeFor (capacityOf grammar) ∧
      (sets.ofNonterminal id).bits < 1 <<< capacityOf grammar := by
  have place : id.index < sets.first.size := fitting.first_size ▸ inside
  rw [requireAt_of_lt _ _ place, FirstSets.ofNonterminal_of_lt place]
  exact ⟨rfl, fitting.made _ (Array.getElem_mem place), fitting.below _ (Array.getElem_mem place)⟩

theorem Fitting.nullable_at (fitting : Fitting grammar sets) (inside : id.index < grammar.nonterminalCount) :
    requireAt sets.nullable id.index = .ok (sets.isNullable id) := by
  have place : id.index < sets.nullable.size := fitting.nullable_size ▸ inside
  rw [requireAt_of_lt _ _ place]
  unfold FirstSets.isNullable
  rw [Array.getElem?_eq_getElem place, Option.getD_some]

theorem Fitting.replaceFirst (fitting : Fitting grammar sets) {set : TerminalSet}
    (made : set.MadeFor (capacityOf grammar)) (below : set.bits < 1 <<< capacityOf grammar) :
    Fitting grammar (replaceFirst sets lhs set) where
  nullable_size := fitting.nullable_size
  first_size := by
    unfold Guarded.replaceFirst
    rw [Array.size_setIfInBounds]
    exact fitting.first_size
  made := by
    intro other member
    rcases Array.mem_or_eq_of_mem_setIfInBounds member with old | fresh
    · exact fitting.made other old
    · exact fresh ▸ made
  below := by
    intro other member
    rcases Array.mem_or_eq_of_mem_setIfInBounds member with old | fresh
    · exact fitting.below other old
    · exact fresh ▸ below

theorem Fitting.markNullable (fitting : Fitting grammar sets) : Fitting grammar (sets.markNullable lhs) where
  nullable_size := by
    unfold FirstSets.markNullable
    rw [Array.size_setIfInBounds]
    exact fitting.nullable_size
  first_size := fitting.first_size
  made := fitting.made
  below := fitting.below

theorem setIfInBounds_eq_modify {α : Type} {entries : Array α} {place : Nat} (inside : place < entries.size)
    (change : α → α) : entries.setIfInBounds place (change entries[place]) = entries.modify place change := by
  apply Array.ext_getElem?
  intro other
  rw [Array.getElem?_setIfInBounds, Array.getElem?_modify]
  split
  · rename_i same
    subst same
    rw [Array.getElem?_eq_getElem inside]
    rfl
  · rfl

theorem replaceFirst_eq (inside : lhs.index < sets.first.size) (change : TerminalSet → TerminalSet) :
    replaceFirst sets lhs (change (sets.ofNonterminal lhs)) =
      { sets with first := sets.first.modify lhs.index change } := by
  unfold replaceFirst
  rw [FirstSets.ofNonterminal_of_lt inside, setIfInBounds_eq_modify inside]

theorem replaceFirst_self (inside : lhs.index < sets.first.size) :
    replaceFirst sets lhs (sets.ofNonterminal lhs) = sets := by
  rw [FirstSets.ofNonterminal_of_lt inside]
  unfold replaceFirst
  rw [Array.setIfInBounds_def, dif_pos inside, Array.set_getElem_self]

/-- A symbol's set united with another one: the sets that are noted, or all as it was if there are no news. -/
theorem unite_eq (fitting : Fitting grammar sets) (inside : lhs.index < grammar.nonterminalCount)
    (known : id.index < grammar.nonterminalCount) :
    unite (capacityOf grammar) lhs sets id =
      .ok (if ((sets.ofNonterminal lhs).unionGrew (sets.ofNonterminal id)).2
          then sets.addAll lhs (sets.ofNonterminal id) else sets,
        ((sets.ofNonterminal lhs).unionGrew (sets.ofNonterminal id)).2) := by
  have place : lhs.index < sets.first.size := fitting.first_size ▸ inside
  obtain ⟨membersAt, _, below⟩ := fitting.first_at known
  obtain ⟨firstAt, made, _⟩ := fitting.first_at inside
  unfold unite
  split
  · rename_i same
    subst same
    have still : ((sets.ofNonterminal id).unionGrew (sets.ofNonterminal id)).2 = false := by
      unfold TerminalSet.unionGrew TerminalSet.union TerminalSet.within
      dsimp only
      rw [if_pos (Nat.le_refl _), Nat.or_self, bne_self_eq_false]
    rw [still]
    rfl
  · rw [membersAt, ok_bind, firstAt, ok_bind, TerminalSet.unionBelow_eq made below, ok_bind]
    dsimp only
    cases grew : ((sets.ofNonterminal lhs).unionGrew (sets.ofNonterminal id)).2 with
    | false =>
        rw [TerminalSet.union_of_unionGrew_eq_false grew, replaceFirst_self place]
        rfl
    | true =>
        rw [replaceFirst_eq place (·.union (sets.ofNonterminal id))]
        rfl

theorem Fitting.unite (fitting : Fitting grammar sets) (inside : lhs.index < grammar.nonterminalCount)
    (known : id.index < grammar.nonterminalCount) (grows : Bool) :
    Fitting grammar (if grows then sets.addAll lhs (sets.ofNonterminal id) else sets) := by
  have place : lhs.index < sets.first.size := fitting.first_size ▸ inside
  obtain ⟨_, made, below⟩ := fitting.first_at inside
  obtain ⟨_, _, others⟩ := fitting.first_at known
  cases grows with
  | false => exact fitting
  | true =>
      have united : sets.addAll lhs (sets.ofNonterminal id) = _ :=
        (replaceFirst_eq place (·.union (sets.ofNonterminal id))).symm
      rw [if_pos rfl, united]
      exact fitting.replaceFirst (made.union _) (TerminalSet.bits_union_lt below others)

/-- A production does not break off, and contributes what it contributes without checks. -/
theorem contribute_eq (inside : lhs.index < grammar.nonterminalCount) : ∀ (symbols : List Symbol)
    (sets : FirstSets) (changed : Bool), Fitting grammar sets →
      (∀ symbol, symbol ∈ symbols → grammar.Has symbol) →
      contribute (capacityOf grammar) lhs sets changed symbols = .ok (sets.contribute lhs changed symbols) ∧
        Fitting grammar (sets.contribute lhs changed symbols).1
  | [], sets, changed, fitting, _has => by
      unfold contribute FirstSets.contribute
      rw [fitting.nullable_at inside, ok_bind]
      split
      · exact ⟨rfl, fitting⟩
      · exact ⟨rfl, fitting.markNullable⟩
  | .terminal kind :: rest, sets, changed, fitting, has => by
      have place : lhs.index < sets.first.size := fitting.first_size ▸ inside
      obtain ⟨firstAt, made, below⟩ := fitting.first_at inside
      have low : kind.index < capacityOf grammar := Nat.lt_succ_of_lt (has _ List.mem_cons_self)
      unfold contribute FirstSets.contribute
      rw [firstAt, ok_bind, TerminalSet.insertBelow_eq made low, ok_bind]
      dsimp only
      cases known : (sets.ofNonterminal lhs).contains kind with
      | true =>
          rw [TerminalSet.add_of_contains known, replaceFirst_self place, Bool.not_true, Bool.or_false]
          exact ⟨rfl, fitting⟩
      | false =>
          have added : sets.addTerminal lhs kind = _ := (replaceFirst_eq place (·.add kind)).symm
          rw [if_neg Bool.false_ne_true, added, Bool.not_false, Bool.or_true]
          exact ⟨rfl, fitting.replaceFirst (made.add kind) (TerminalSet.bits_add_lt below low)⟩
  | .nonterminal id :: rest, sets, changed, fitting, has => by
      have known : id.index < grammar.nonterminalCount := has _ List.mem_cons_self
      have fittingNext := fitting.unite inside known
        ((sets.ofNonterminal lhs).unionGrew (sets.ofNonterminal id)).2
      unfold contribute FirstSets.contribute
      rw [unite_eq fitting inside known, ok_bind]
      dsimp only
      generalize (if ((sets.ofNonterminal lhs).unionGrew (sets.ofNonterminal id)).2
        then sets.addAll lhs (sets.ofNonterminal id) else sets) = next at fittingNext ⊢
      rw [fittingNext.nullable_at known, ok_bind]
      split
      · exact contribute_eq inside rest _ _ fittingNext
          (fun symbol member => has symbol (List.mem_cons_of_mem _ member))
      · exact ⟨rfl, fittingNext⟩

section Numbered

variable (numbered : grammar.Numbered)

include numbered

/-- What is noted of a grammar keeps to the capacity, since no sequence begins with the placeholder. -/
theorem fitting_of_sound (sound : sets.Sound grammar) : Fitting grammar sets where
  nullable_size := sound.nullable_size
  first_size := sound.first_size
  made := sound.slots
  below := by
    intro set member
    obtain ⟨place, inside, rfl⟩ := Array.mem_iff_getElem.mp member
    have slots := sound.slots _ member
    have small := numbered.kinds_le
    have bound := inside
    rw [sound.first_size] at bound
    unfold Declaration.symbolLimit at small
    unfold Grammar.nonterminalCount at bound
    have index : (NonterminalId.ofIndex place).index = place := NonterminalId.index_ofIndex (by omega)
    have here : sets.ofNonterminal (.ofIndex place) = sets.first[place] := by
      unfold FirstSets.ofNonterminal
      rw [index, Array.getElem?_eq_getElem inside, Option.getD_some]
    apply TerminalSet.bits_lt_of_contains (slots ▸ slotsOf_le numbered)
    intro terminal known
    have begins := sound.begins (.ofIndex place) terminal (here ▸ known)
    refine Nat.lt_succ_of_lt (begins.within numbered ?_).2
    intro symbol among
    rw [List.mem_singleton.mp among]
    change grammar.terminalCount + (NonterminalId.ofIndex place).index < grammar.kinds.size
    omega

theorem round_eq (sound : sets.Sound grammar) :
    round grammar sets = .ok (FirstSets.round grammar.productions sets) := by
  unfold round FirstSets.round
  rw [← Array.foldl_toList]
  refine (foldlM_agrees (fun state => Fitting grammar state.1) _ ?_ (sets, false)
    (fitting_of_sound numbered sound)).1
  rintro production member ⟨before, changed⟩ fitting
  have known := numbered.productions production (Array.mem_toList_iff.mp member)
  have inside : production.lhs.index < grammar.nonterminalCount := by
    have bound := known.lhs_lt
    unfold Grammar.nonterminalCount
    omega
  exact contribute_eq inside production.symbols before changed fitting
    (fun symbol among => (known.symbols symbol among).has)

theorem firstSets_eq : firstSets grammar = .ok (.ofGrammar grammar) :=
  saturateWithin_eq (fun _ => FirstSets.round_progress numbered) (fun _ => round_eq numbered)
    (FirstSets.initial_sound grammar)

/-- What is gathered for a sequence: what the set had, what the sequence begins with, and the tail if the
sequence vanishes. -/
theorem gatherFirst_exact (below : tail.bits < 1 <<< capacityOf grammar) : ∀ (symbols : List Symbol)
    (set : TerminalSet), set.MadeFor (capacityOf grammar) →
      (∀ symbol, symbol ∈ symbols → grammar.Has symbol) →
      ∃ gathered, gatherFirst (capacityOf grammar) (.ofGrammar grammar) tail set symbols = .ok gathered ∧
        gathered.MadeFor (capacityOf grammar) ∧ ∀ terminal, gathered.contains terminal = true ↔
          set.contains terminal = true ∨ grammar.Begins symbols terminal ∨
            grammar.Derives symbols [] ∧ tail.contains terminal = true
  | [], set, made, _has => by
      unfold gatherFirst
      rw [TerminalSet.unionBelow_eq made below, ok_bind]
      refine ⟨set.union tail, rfl, made.union tail, fun terminal => ?_⟩
      rw [TerminalSet.contains_union_below made below, Bool.or_eq_true]
      constructor
      · rintro (mine | given)
        · exact Or.inl mine
        · exact Or.inr (Or.inr ⟨.refl, given⟩)
      · rintro (mine | impossible | ⟨_, given⟩)
        · exact Or.inl mine
        · exact absurd impossible Grammar.not_begins_nil
        · exact Or.inr given
  | .terminal kind :: rest, set, made, has => by
      have low : kind.index < capacityOf grammar := Nat.lt_succ_of_lt (has _ List.mem_cons_self)
      have gone : grammar.Derives (.terminal kind :: rest) [] ↔ _ := Grammar.derives_cons_nil
      unfold gatherFirst
      rw [TerminalSet.insertBelow_eq made low, ok_bind]
      refine ⟨set.add kind, rfl, made.add kind, fun terminal => ?_⟩
      rw [TerminalSet.contains_add _ _ _ (made.fits low), Bool.or_eq_true, beq_iff_eq, gone,
        Grammar.begins_cons, Grammar.begins_terminal]
      simp only [Grammar.not_derives_terminal_nil, false_and, or_false]
  | .nonterminal id :: rest, set, made, has => by
      have fitting := fitting_of_sound numbered (FirstSets.ofGrammar_covers numbered).1
      have known : id.index < grammar.nonterminalCount := has _ List.mem_cons_self
      obtain ⟨membersAt, _, members⟩ := fitting.first_at known
      have gone : grammar.Derives (.nonterminal id :: rest) [] ↔ _ := Grammar.derives_cons_nil
      have begun : ∀ terminal, grammar.Begins (.nonterminal id :: rest) terminal ↔ _ :=
        fun _ => Grammar.begins_cons
      have joined : ∀ terminal,
          (set.union ((FirstSets.ofGrammar grammar).ofNonterminal id)).contains terminal = true ↔
            set.contains terminal = true ∨ grammar.Begins [.nonterminal id] terminal := by
        intro terminal
        rw [TerminalSet.contains_union_below made members, Bool.or_eq_true,
          FirstSets.contains_ofNonterminal_iff numbered]
      unfold gatherFirst
      rw [membersAt, ok_bind, TerminalSet.unionBelow_eq made members, ok_bind]
      dsimp only
      rw [fitting.nullable_at known, ok_bind]
      cases nullable : (FirstSets.ofGrammar grammar).isNullable id with
      | false =>
          refine ⟨_, rfl, made.union _, fun terminal => ?_⟩
          rw [joined, gone, begun, ← FirstSets.isNullable_iff numbered, nullable]
          simp
      | true =>
          obtain ⟨gathered, gathers, madeThere, exactly⟩ := gatherFirst_exact below rest _ (made.union _)
            (fun symbol member => has symbol (List.mem_cons_of_mem _ member))
          refine ⟨gathered, gathers, madeThere, fun terminal => ?_⟩
          rw [exactly, joined, gone, begun, ← FirstSets.isNullable_iff numbered, nullable]
          simp [or_assoc]

theorem firstOf_exact {symbols : List Symbol} (below : tail.bits < 1 <<< capacityOf grammar)
    (has : ∀ symbol, symbol ∈ symbols → grammar.Has symbol) :
    ∃ set, firstOf grammar (.ofGrammar grammar) symbols tail = .ok set ∧
      set.MadeFor (capacityOf grammar) ∧ ∀ terminal, set.contains terminal = true ↔
        grammar.Begins symbols terminal ∨ grammar.Derives symbols [] ∧ tail.contains terminal = true := by
  obtain ⟨set, gathers, made, exactly⟩ := gatherFirst_exact numbered below symbols
    (.withCapacity (capacityOf grammar)) (TerminalSet.madeFor_withCapacity _) has
  refine ⟨set, gathers, made, fun terminal => ?_⟩
  rw [exactly, TerminalSet.contains_withCapacity]
  simp

theorem firstOf_eq {symbols : List Symbol} (made : tail.MadeFor (capacityOf grammar))
    (below : tail.bits < 1 <<< capacityOf grammar)
    (has : ∀ symbol, symbol ∈ symbols → grammar.Has symbol) :
    firstOf grammar (.ofGrammar grammar) symbols tail =
      .ok ((FirstSets.ofGrammar grammar).ofSymbols tail symbols) := by
  obtain ⟨set, gathers, madeThere, exactly⟩ := firstOf_exact numbered below has
  have slots : tail.slots = slotsOf grammar := made
  have same : set = (FirstSets.ofGrammar grammar).ofSymbols tail symbols := by
    have room : set.slots = slotsOf grammar := madeThere
    apply TerminalSet.eq_of_contains (room ▸ slotsOf_le numbered)
    · rw [room, FirstSets.slots_ofSymbols, slots]
    · intro terminal
      rw [Bool.eq_iff_iff, exactly, FirstSets.contains_ofSymbols numbered slots symbols has]
  rw [gathers, same]

end Numbered

end Guarded

/-- FIRST sets are exact. The search for them does not break off, and a further round has nothing to add. Noted
as nullable are the nonterminals that derive the empty sequence, and noted of each are the terminals that a
form derived from it can begin with. What is gathered for a sequence of symbols is what the forms derived from
it can begin with, together with the tail exactly if the whole sequence can be empty. -/
theorem first_sets_exact {declaration : Declaration} {grammar : Grammar}
    (normalized : declaration.normalize = .ok grammar) :
    Guarded.firstSets grammar = .ok (.ofGrammar grammar) ∧
    FirstSets.round grammar.productions (.ofGrammar grammar) = (.ofGrammar grammar, false) ∧
    (∀ id, (FirstSets.ofGrammar grammar).isNullable id = true ↔ grammar.Derives [.nonterminal id] []) ∧
    (∀ id terminal, ((FirstSets.ofGrammar grammar).ofNonterminal id).contains terminal = true ↔
      grammar.Begins [.nonterminal id] terminal) ∧
    ∀ (symbols : List Symbol) (tail : TerminalSet),
      (∀ symbol, symbol ∈ symbols → grammar.Has symbol) →
      tail.bits < 1 <<< capacityOf grammar →
      ∃ set, Guarded.firstOf grammar (.ofGrammar grammar) symbols tail = .ok set ∧
        (∀ terminal, set.contains terminal = true ↔
          grammar.Begins symbols terminal ∨ grammar.Derives symbols [] ∧ tail.contains terminal = true) ∧
        (tail.MadeFor (capacityOf grammar) → (FirstSets.ofGrammar grammar).ofSymbols tail symbols = set) := by
  have numbered := Declaration.normalize_numbered normalized
  refine ⟨Guarded.firstSets_eq numbered, FirstSets.round_ofGrammar numbered,
    fun _ => FirstSets.isNullable_iff numbered, fun _ _ => FirstSets.contains_ofNonterminal_iff numbered, ?_⟩
  intro symbols tail has below
  obtain ⟨set, gathers, _, exactly⟩ := Guarded.firstOf_exact numbered below has
  refine ⟨set, gathers, exactly, fun made => ?_⟩
  have same := Guarded.firstOf_eq numbered made below has
  exact Except.ok.inj (same.symm.trans gathers)

namespace Prefixed

/-- A word is the letter `b` behind any number of the letter `a`. -/
def declaration : Declaration :=
  { Declaration.empty "prefixed" with
    rules := #[
      ("word", .sequence [.symbol "letters", .literal "b"]),
      ("letters", .optional (.sequence [.symbol "letters", .literal "a"]))] }

theorem normalizes : declaration.normalize.toOption.isSome = true := by decide +kernel

def grammar : Grammar := declaration.normalize.toOption.get normalizes

/-- Whether the rules are nullable, and whether a word can begin with `a`, with `b` and with the end. -/
theorem noted : grammar.nonterminalCount = 2 ∧
    [(⟨0⟩ : NonterminalId), ⟨1⟩].map (FirstSets.ofGrammar grammar).isNullable = [false, true] ∧
    [(⟨3⟩ : KindId), ⟨2⟩, .endOfInput].map ((FirstSets.ofGrammar grammar).ofNonterminal ⟨0⟩).contains =
      [true, true, false] := by
  decide +kernel

def tail : TerminalSet := (TerminalSet.withCapacity (capacityOf grammar)).add .endOfInput

theorem tail_ends : tail.bits < 1 <<< capacityOf grammar ∧ tail.contains .endOfInput = true := by
  have below : KindId.endOfInput.index < capacityOf grammar := Nat.succ_pos _
  have fits := (TerminalSet.madeFor_withCapacity (capacityOf grammar)).fits below
  refine ⟨TerminalSet.bits_add_lt (one_shift_pos _) below, ?_⟩
  unfold tail
  rw [TerminalSet.contains_add _ _ _ fits, beq_self_eq_true, Bool.or_true]

end Prefixed

/-- The letters can be empty, a word cannot; it begins with either letter, and the end of the input is among
what follows the letters. -/
theorem first_sets_exact_prefixed :
    Prefixed.grammar.Derives [.nonterminal ⟨1⟩] [] ∧ ¬ Prefixed.grammar.Derives [.nonterminal ⟨0⟩] [] ∧
      Prefixed.grammar.Begins [.nonterminal ⟨0⟩] ⟨3⟩ ∧ Prefixed.grammar.Begins [.nonterminal ⟨0⟩] ⟨2⟩ ∧
      ¬ Prefixed.grammar.Begins [.nonterminal ⟨0⟩] .endOfInput ∧
      ∃ set, Guarded.firstOf Prefixed.grammar (.ofGrammar Prefixed.grammar) [.nonterminal ⟨1⟩] Prefixed.tail =
        .ok set ∧ set.contains .endOfInput = true := by
  have normalized : Prefixed.declaration.normalize = .ok Prefixed.grammar := eq_ok_get _
  obtain ⟨_, _, nullable, first, gathered⟩ := first_sets_exact normalized
  obtain ⟨count, marks, members⟩ := Prefixed.noted
  simp only [List.map_cons, List.map_nil, List.cons.injEq, and_true] at marks members
  obtain ⟨solid, empty⟩ := marks
  obtain ⟨a, b, last⟩ := members
  have letters := (nullable ⟨1⟩).mp empty
  refine ⟨letters, fun derives => ?_, (first _ _).mp a, (first _ _).mp b, fun begins => ?_, ?_⟩
  · rw [(nullable ⟨0⟩).mpr derives] at solid
    cases solid
  · rw [(first _ _).mpr begins] at last
    cases last
  · have has : ∀ symbol, symbol ∈ [Symbol.nonterminal ⟨1⟩] → Prefixed.grammar.Has symbol := by
      intro symbol member
      rw [List.mem_singleton.mp member]
      change 1 < Prefixed.grammar.nonterminalCount
      rw [count]
      exact Nat.one_lt_two
    obtain ⟨below, ends⟩ := Prefixed.tail_ends
    obtain ⟨set, gathers, exactly, _⟩ := gathered _ Prefixed.tail has below
    exact ⟨set, gathers, (exactly _).mpr (Or.inr ⟨letters, ends⟩)⟩

end IncrementalParsing.Lalr
