import IncrementalParsing.Lalr.First
import IncrementalParsing.Proofs.Grammar.Leading
import IncrementalParsing.Proofs.Lalr.TerminalSets
import IncrementalParsing.Proofs.Saturation

/-!
Nullable nonterminals and FIRST sets are exact. Everything that is noted is derived, by induction over the
rounds. In the sets that saturation ends with every production is covered by its left-hand side, and in such
sets everything that is derived is noted, by induction over the derivation.
-/

namespace IncrementalParsing.Lalr

open Grammar (begins_append begins_cons begins_terminal derives_cons_nil not_begins_nil
  not_derives_terminal_nil)

def slotsOf (grammar : Grammar) : Nat := (grammar.terminalCount + 1 + 63) / 64

theorem slotsOf_le {grammar : Grammar} (numbered : grammar.Numbered) : slotsOf grammar ≤ 1024 := by
  have fits := numbered.kinds_le
  have le := numbered.rules_le
  unfold slotsOf
  simp only [Declaration.symbolLimit] at fits
  omega

theorem fits_of_slots {grammar : Grammar} {set : TerminalSet} (slots : set.slots = slotsOf grammar)
    {terminal : KindId} (low : terminal.index ≤ grammar.terminalCount) : set.fits terminal = true := by
  unfold TerminalSet.fits
  rw [decide_eq_true_eq, slots]
  unfold slotsOf
  omega

namespace FirstSets

structure Sound (grammar : Grammar) (sets : FirstSets) : Prop where
  nullable_size : sets.nullable.size = grammar.nonterminalCount
  first_size : sets.first.size = grammar.nonterminalCount
  slots : ∀ set, set ∈ sets.first → set.slots = slotsOf grammar
  nullable : ∀ id, sets.isNullable id = true → grammar.Derives [.nonterminal id] []
  begins : ∀ id terminal, (sets.ofNonterminal id).contains terminal = true →
    grammar.Begins [.nonterminal id] terminal

/-- Whether a fact is noted: columns are the terminals, and the last one is for the empty sequence. -/
def Notes (grammar : Grammar) (sets : FirstSets) (row column : Nat) : Prop :=
  if column = grammar.terminalCount then sets.isNullable (.ofIndex row) = true
  else (sets.ofNonterminal (.ofIndex row)).contains (.ofIndex column) = true

/-- A left-hand side has everything that a right-hand side of it contributes. -/
def Covers (sets : FirstSets) (lhs : NonterminalId) : List Symbol → Prop
  | [] => sets.isNullable lhs = true
  | .terminal kind :: _ => (sets.ofNonterminal lhs).contains kind = true
  | .nonterminal id :: rest =>
      (∀ terminal, (sets.ofNonterminal id).contains terminal = true →
        (sets.ofNonterminal lhs).contains terminal = true) ∧
      (sets.isNullable id = true → sets.Covers lhs rest)

variable {grammar : Grammar} {sets : FirstSets} {lhs id : NonterminalId} {kind terminal : KindId}

theorem ofNonterminal_of_lt (inside : id.index < sets.first.size) :
    sets.ofNonterminal id = sets.first[id.index] := by
  unfold ofNonterminal
  rw [Array.getElem?_eq_getElem inside, Option.getD_some]

theorem Sound.slots_ofNonterminal (sound : sets.Sound grammar) (inside : id.index < grammar.nonterminalCount) :
    (sets.ofNonterminal id).slots = slotsOf grammar := by
  rw [ofNonterminal_of_lt (sound.first_size ▸ inside)]
  exact sound.slots _ (Array.getElem_mem _)

theorem isNullable_markNullable (inside : lhs.index < sets.nullable.size) :
    (sets.markNullable lhs).isNullable id = (sets.isNullable id || id == lhs) := by
  unfold markNullable isNullable
  dsimp only
  rw [Array.getElem?_setIfInBounds]
  by_cases same : id = lhs
  · subst same
    simp [inside]
  · have away : lhs.index ≠ id.index := fun equal => same (Visited.index_injective equal).symm
    simp [away, same]

theorem ofNonterminal_modify (change : TerminalSet → TerminalSet) (inside : lhs.index < sets.first.size) :
    ({ sets with first := sets.first.modify lhs.index change } : FirstSets).ofNonterminal id =
      if id = lhs then change (sets.ofNonterminal lhs) else sets.ofNonterminal id := by
  unfold ofNonterminal
  dsimp only
  rw [Array.getElem?_modify]
  by_cases same : id = lhs
  · subst same
    simp [inside]
  · have away : lhs.index ≠ id.index := fun equal => same (Visited.index_injective equal).symm
    simp [away, same]

/-! ### One production -/

section Contribute

variable (numbered : grammar.Numbered)

theorem learns_of_more {after : FirstSets}
    (nullable : ∀ id, sets.isNullable id = true → after.isNullable id = true)
    (first : ∀ id terminal, (sets.ofNonterminal id).contains terminal = true →
      (after.ofNonterminal id).contains terminal = true)
    (news : ∃ row column, row < grammar.nonterminalCount ∧ column < grammar.terminalCount + 2 ∧
      ¬ Notes grammar sets row column ∧ Notes grammar after row column) :
    Learns (Notes grammar) grammar.nonterminalCount (grammar.terminalCount + 2) sets after true where
  keeps row column known := by
    unfold Notes at known ⊢
    split at known
    · rename_i last
      rw [if_pos last]
      exact nullable _ known
    · rename_i last
      rw [if_neg last]
      exact first _ _ known
  gains _ := news
  rests impossible := by cases impossible

include numbered

omit numbered in
theorem Sound.markNullable (sound : sets.Sound grammar) (inside : lhs.index < grammar.nonterminalCount)
    (derives : grammar.Derives [.nonterminal lhs] []) (unknown : sets.isNullable lhs = false) :
    (sets.markNullable lhs).Sound grammar ∧
      Learns (Notes grammar) grammar.nonterminalCount (grammar.terminalCount + 2) sets
        (sets.markNullable lhs) true := by
  have marks : ∀ id, (sets.markNullable lhs).isNullable id = (sets.isNullable id || id == lhs) :=
    fun _ => isNullable_markNullable (sound.nullable_size ▸ inside)
  constructor
  · refine ⟨?_, sound.first_size, sound.slots, ?_, sound.begins⟩
    · unfold FirstSets.markNullable
      rw [Array.size_setIfInBounds]
      exact sound.nullable_size
    · intro id known
      rw [marks] at known
      rcases Bool.or_eq_true_iff.mp known with old | same
      · exact sound.nullable id old
      · rw [eq_of_beq same]
        exact derives
  · apply learns_of_more
    · intro id known
      rw [marks, known, Bool.true_or]
    · intro id terminal known
      exact known
    · refine ⟨lhs.index, grammar.terminalCount, inside, by omega, ?_, ?_⟩
      · unfold Notes
        rw [if_pos rfl, NonterminalId.ofIndex_index, unknown]
        decide
      · unfold Notes
        rw [if_pos rfl, NonterminalId.ofIndex_index, marks, beq_self_eq_true, Bool.or_true]

theorem Sound.modify (sound : sets.Sound grammar) (inside : lhs.index < grammar.nonterminalCount)
    {change : TerminalSet → TerminalSet}
    (slots : ∀ set, (change set).slots = set.slots)
    (keeps : ∀ terminal, (sets.ofNonterminal lhs).contains terminal = true →
      (change (sets.ofNonterminal lhs)).contains terminal = true)
    (begins : ∀ terminal, (change (sets.ofNonterminal lhs)).contains terminal = true →
      grammar.Begins [.nonterminal lhs] terminal)
    (news : ∃ terminal, (sets.ofNonterminal lhs).contains terminal = false ∧
      (change (sets.ofNonterminal lhs)).contains terminal = true) :
    ({ sets with first := sets.first.modify lhs.index change } : FirstSets).Sound grammar ∧
      Learns (Notes grammar) grammar.nonterminalCount (grammar.terminalCount + 2) sets
        { sets with first := sets.first.modify lhs.index change } true := by
  have changed : ∀ id, ({ sets with first := sets.first.modify lhs.index change } : FirstSets).ofNonterminal id =
      if id = lhs then change (sets.ofNonterminal lhs) else sets.ofNonterminal id :=
    fun _ => ofNonterminal_modify change (sound.first_size ▸ inside)
  constructor
  · refine ⟨sound.nullable_size, ?_, ?_, sound.nullable, ?_⟩
    · rw [Array.size_modify]
      exact sound.first_size
    · intro set member
      obtain ⟨place, bound, found⟩ := Array.mem_iff_getElem.mp member
      rw [Array.getElem_modify] at found
      rw [Array.size_modify] at bound
      have here := sound.slots _ (Array.getElem_mem bound)
      split at found
      · rw [← found, slots, here]
      · rw [← found, here]
    · intro id terminal known
      rw [changed] at known
      split at known
      · rename_i same
        subst same
        exact begins terminal known
      · exact sound.begins id terminal known
  · apply learns_of_more
    · intro id known
      exact known
    · intro id terminal known
      rw [changed]
      split
      · rename_i same
        subst same
        exact keeps terminal known
      · exact known
    · obtain ⟨terminal, unknown, known⟩ := news
      have within : ∀ symbol, symbol ∈ [Symbol.nonterminal lhs] →
          symbol.Within grammar.terminalCount grammar.kinds.size := by
        intro symbol member
        rw [List.mem_singleton.mp member]
        unfold Grammar.nonterminalCount at inside
        change grammar.terminalCount + lhs.index < grammar.kinds.size
        omega
      obtain ⟨_, low⟩ := (begins terminal known).within numbered within
      refine ⟨lhs.index, terminal.index, inside, by omega, ?_, ?_⟩
      · unfold Notes
        rw [if_neg (by omega), NonterminalId.ofIndex_index, KindId.ofIndex_index, unknown]
        decide
      · unfold Notes
        rw [if_neg (by omega), NonterminalId.ofIndex_index, KindId.ofIndex_index, changed, if_pos rfl]
        exact known

/-- A left-hand side takes up what is noted of a nonterminal that it begins with. -/
theorem unite_progress (inside : lhs.index < grammar.nonterminalCount) (sound : sets.Sound grammar)
    (known : id.index < grammar.nonterminalCount)
    (begins : ∀ terminal, grammar.Begins [.nonterminal id] terminal → grammar.Begins [.nonterminal lhs] terminal)
    (changed : Bool) :
    Progress (Sound grammar) (Notes grammar) grammar.nonterminalCount (grammar.terminalCount + 2)
      (fun sets => ∀ terminal, (sets.ofNonterminal id).contains terminal = true →
        (sets.ofNonterminal lhs).contains terminal = true) (sets, changed)
      (if ((sets.ofNonterminal lhs).unionGrew (sets.ofNonterminal id)).2
        then sets.addAll lhs (sets.ofNonterminal id) else sets,
        changed || ((sets.ofNonterminal lhs).unionGrew (sets.ofNonterminal id)).2) := by
  have slots : (sets.ofNonterminal id).slots = (sets.ofNonterminal lhs).slots := by
    rw [sound.slots_ofNonterminal known, sound.slots_ofNonterminal inside]
  have joined : ∀ terminal, ((sets.ofNonterminal lhs).union (sets.ofNonterminal id)).contains terminal =
      ((sets.ofNonterminal lhs).contains terminal || (sets.ofNonterminal id).contains terminal) :=
    fun _ => TerminalSet.contains_union_of_slots (Nat.le_of_eq slots)
  cases grew : ((sets.ofNonterminal lhs).unionGrew (sets.ofNonterminal id)).2 with
  | false =>
      rw [if_neg (by decide), Bool.or_false]
      apply Progress.idle sound
      intro terminal member
      rw [← TerminalSet.union_of_unionGrew_eq_false grew, joined, member, Bool.or_true]
  | true =>
      rw [if_pos rfl, Bool.or_true]
      obtain ⟨after, learns⟩ := sound.modify numbered inside
        (fun set => TerminalSet.slots_union set (sets.ofNonterminal id))
        (fun terminal member => by rw [joined, member, Bool.true_or])
        (fun terminal member => by
          rw [joined] at member
          rcases Bool.or_eq_true_iff.mp member with old | fresh
          · exact sound.begins lhs terminal old
          · exact begins terminal (sound.begins id terminal fresh))
        (TerminalSet.exists_news_of_unionGrew
          (by rw [sound.slots_ofNonterminal inside]; exact slotsOf_le numbered) grew)
      exact ⟨after, true, (Bool.or_true _).symm, learns, fun impossible => by cases impossible⟩

/-- What is left of a right-hand side whose beginning vanishes contributes what is derived. -/
theorem contribute_progress (inside : lhs.index < grammar.nonterminalCount) :
    ∀ (symbols : List Symbol) (sets : FirstSets) (changed : Bool), sets.Sound grammar →
      (∀ symbol, symbol ∈ symbols → symbol.Within grammar.terminalCount grammar.kinds.size) →
      (grammar.Derives symbols [] → grammar.Derives [.nonterminal lhs] []) →
      (∀ terminal, grammar.Begins symbols terminal → grammar.Begins [.nonterminal lhs] terminal) →
      Progress (Sound grammar) (Notes grammar) grammar.nonterminalCount (grammar.terminalCount + 2)
        (fun sets => sets.Covers lhs symbols) (sets, changed) (contribute lhs sets changed symbols)
  | [], sets, changed, sound, _within, vanishes, _begins => by
      unfold contribute
      split
      · rename_i known
        exact .idle sound known
      · rename_i unknown
        obtain ⟨after, learns⟩ := sound.markNullable inside (vanishes .refl)
          (Bool.not_eq_true _ ▸ unknown)
        exact ⟨after, true, (Bool.or_true _).symm, learns, fun impossible => by cases impossible⟩
  | .terminal kind :: rest, sets, changed, sound, within, _vanishes, begins => by
      unfold contribute
      split
      · rename_i known
        exact .idle sound known
      · rename_i unknown
        have room : (sets.ofNonterminal lhs).fits kind = true :=
          fits_of_slots (sound.slots_ofNonterminal inside)
            (Nat.le_of_lt (within _ List.mem_cons_self).2)
        have added := fun terminal => TerminalSet.contains_add (sets.ofNonterminal lhs) kind terminal room
        have here : grammar.Begins [.nonterminal lhs] kind := begins kind ⟨rest, .refl⟩
        obtain ⟨after, learns⟩ := sound.modify numbered inside (TerminalSet.slots_add · kind)
          (fun terminal known => by rw [added, known, Bool.true_or])
          (fun terminal known => by
            rw [added] at known
            rcases Bool.or_eq_true_iff.mp known with old | same
            · exact sound.begins lhs terminal old
            · exact eq_of_beq same ▸ here)
          ⟨kind, Bool.not_eq_true _ ▸ unknown, by rw [added, beq_self_eq_true, Bool.or_true]⟩
        exact ⟨after, true, (Bool.or_true _).symm, learns, fun impossible => by cases impossible⟩
  | .nonterminal id :: rest, sets, changed, sound, within, vanishes, begins => by
      have idInside : id.index < grammar.nonterminalCount := by
        have bound : grammar.terminalCount + id.index < grammar.kinds.size := within _ List.mem_cons_self
        unfold Grammar.nonterminalCount
        omega
      have first := unite_progress numbered inside sound idInside
        (fun terminal ⟨form, derives⟩ => begins terminal ⟨form ++ rest, derives.append .refl⟩) changed
      have kept : (if ((sets.ofNonterminal lhs).unionGrew (sets.ofNonterminal id)).2
          then sets.addAll lhs (sets.ofNonterminal id) else sets).isNullable id = sets.isNullable id := by
        split <;> rfl
      unfold contribute
      dsimp only
      rw [kept]
      cases empty : sets.isNullable id with
      | false =>
          rw [if_neg (by decide)]
          apply first.imp
          intro members
          refine ⟨members, fun impossible => ?_⟩
          rw [empty] at impossible
          cases impossible
      | true =>
          rw [if_pos rfl]
          have gone := sound.nullable id empty
          have later := contribute_progress inside rest _
            (changed || ((sets.ofNonterminal lhs).unionGrew (sets.ofNonterminal id)).2) first.holds
            (fun symbol member => within symbol (List.mem_cons_of_mem _ member))
            (fun derives => vanishes (gone.append derives))
            (fun terminal begun => begins terminal (begins_append.mpr (Or.inr ⟨gone, begun⟩)))
          exact (first.trans later).imp (fun both => ⟨both.1, fun _ => both.2⟩)

omit numbered in
theorem initial_sound (grammar : Grammar) : (initial grammar).Sound grammar where
  nullable_size := Array.size_replicate
  first_size := Array.size_replicate
  slots := by
    intro set member
    rw [(Array.mem_replicate.mp member).2]
    rfl
  nullable := by
    intro id known
    unfold isNullable initial at known
    rw [Array.getElem?_replicate] at known
    split at known <;> cases known
  begins := by
    intro id terminal known
    unfold ofNonterminal initial at known
    rw [Array.getElem?_replicate] at known
    split at known <;> simp at known

theorem round_progress (sound : sets.Sound grammar) :
    Progress (Sound grammar) (Notes grammar) grammar.nonterminalCount (grammar.terminalCount + 2)
      (fun sets => ∀ production, production ∈ grammar.productions.toList →
        sets.Covers production.lhs production.symbols) (sets, false) (round grammar.productions sets) := by
  unfold round
  rw [← Array.foldl_toList]
  refine Progress.foldl _ ?_ (sets, false) sound
  rintro production member ⟨before, changed⟩ holding
  have known := numbered.productions production (Array.mem_toList_iff.mp member)
  obtain ⟨number, found⟩ := Array.mem_iff_getElem?.mp (Array.mem_toList_iff.mp member)
  have derives := Grammar.derives_production found
  have inside : production.lhs.index < grammar.nonterminalCount := by
    have bound := known.lhs_lt
    unfold Grammar.nonterminalCount
    omega
  exact contribute_progress numbered inside production.symbols before changed holding known.symbols
    (fun vanishes => derives.trans vanishes) (fun terminal begins => begins.of_derives derives)

theorem ofGrammar_covers : (ofGrammar grammar).Sound grammar ∧
    ∀ production, production ∈ grammar.productions →
      (ofGrammar grammar).Covers production.lhs production.symbols := by
  obtain ⟨sound, covered⟩ := saturate_done (fun _ => round_progress numbered) (initial_sound grammar)
  exact ⟨sound, fun production member => covered production (Array.mem_toList_iff.mpr member)⟩

theorem round_ofGrammar : round grammar.productions (ofGrammar grammar) = (ofGrammar grammar, false) :=
  (saturate_done (fun _ sound => (round_progress numbered sound).rests) (initial_sound grammar)).2.2

end Contribute

/-! ### Everything that is derived is noted -/

def Vanishes (sets : FirstSets) (form : List Symbol) : Prop :=
  ∀ symbol, symbol ∈ form → ∃ id, symbol = .nonterminal id ∧ sets.isNullable id = true

def Shows (sets : FirstSets) (terminal : KindId) : List Symbol → Prop
  | [] => False
  | .terminal kind :: _ => terminal = kind
  | .nonterminal id :: rest =>
      (sets.ofNonterminal id).contains terminal = true ∨ sets.isNullable id = true ∧ sets.Shows terminal rest

section Complete

variable (covers : ∀ production, production ∈ grammar.productions → sets.Covers production.lhs production.symbols)

theorem vanishes_append {left right : List Symbol} :
    sets.Vanishes (left ++ right) ↔ sets.Vanishes left ∧ sets.Vanishes right := by
  unfold Vanishes
  constructor
  · intro all
    exact ⟨fun symbol member => all symbol (List.mem_append_left _ member),
      fun symbol member => all symbol (List.mem_append_right _ member)⟩
  · rintro ⟨first, second⟩ symbol member
    rcases List.mem_append.mp member with one | two
    · exact first symbol one
    · exact second symbol two

theorem vanishes_single : sets.Vanishes [.nonterminal id] ↔ sets.isNullable id = true := by
  unfold Vanishes
  constructor
  · intro all
    obtain ⟨other, same, nullable⟩ := all _ List.mem_cons_self
    cases same
    exact nullable
  · intro nullable symbol member
    exact ⟨id, List.mem_singleton.mp member, nullable⟩

theorem Covers.nullable : ∀ {symbols : List Symbol}, sets.Covers lhs symbols → sets.Vanishes symbols →
    sets.isNullable lhs = true
  | [], covered, _all => covered
  | .terminal kind :: rest, _covered, all => by
      obtain ⟨id, impossible, _⟩ := all _ List.mem_cons_self
      cases impossible
  | .nonterminal id :: rest, covered, all => by
      obtain ⟨first, others⟩ := (@vanishes_append _ [.nonterminal id] _).mp all
      exact Covers.nullable (covered.2 (vanishes_single.mp first)) others

theorem Covers.shows : ∀ {symbols : List Symbol}, sets.Covers lhs symbols → sets.Shows terminal symbols →
    (sets.ofNonterminal lhs).contains terminal = true
  | [], _covered, shown => shown.elim
  | .terminal kind :: rest, covered, shown => by
      rw [show terminal = kind from shown]
      exact covered
  | .nonterminal id :: rest, covered, shown => by
      rcases shown with here | ⟨vanishes, later⟩
      · exact covered.1 terminal here
      · exact Covers.shows (covered.2 vanishes) later

theorem shows_append : ∀ {left right : List Symbol},
    sets.Shows terminal (left ++ right) ↔
      sets.Shows terminal left ∨ sets.Vanishes left ∧ sets.Shows terminal right
  | [], right => by
      constructor
      · intro shown
        exact Or.inr ⟨fun symbol none => (by cases none), shown⟩
      · rintro (impossible | ⟨_, shown⟩)
        · exact impossible.elim
        · exact shown
  | .terminal kind :: rest, right => by
      constructor
      · intro shown
        exact Or.inl shown
      · rintro (shown | ⟨vanishes, _⟩)
        · exact shown
        · obtain ⟨id, impossible, _⟩ := vanishes _ List.mem_cons_self
          cases impossible
  | .nonterminal id :: rest, right => by
      have split := @vanishes_append sets [.nonterminal id] rest
      rw [vanishes_single] at split
      change _ ∨ _ ∧ sets.Shows terminal (rest ++ right) ↔ (_ ∨ _ ∧ sets.Shows terminal rest) ∨
        sets.Vanishes ([.nonterminal id] ++ rest) ∧ sets.Shows terminal right
      rw [split, shows_append, and_or_left, or_assoc, and_assoc]

include covers

theorem vanishes_of_derives {form last : List Symbol} (derives : grammar.Derives form last)
    (vanishes : sets.Vanishes last) : sets.Vanishes form := by
  induction derives using Relation.ReflTransGen.head_induction_on with
  | refl => exact vanishes
  | head produces _ ih =>
      obtain @⟨number, production, before, after, found⟩ := produces
      obtain ⟨front, afterVanishes⟩ := vanishes_append.mp ih
      obtain ⟨beforeVanishes, symbols⟩ := vanishes_append.mp front
      have covered := covers production (Array.mem_of_getElem? found)
      have lhs : sets.Vanishes [.nonterminal production.lhs] := vanishes_single.mpr (covered.nullable symbols)
      exact vanishes_append.mpr ⟨beforeVanishes, vanishes_append.mpr ⟨lhs, afterVanishes⟩⟩

theorem shows_of_derives {form last : List Symbol} (derives : grammar.Derives form last)
    (shown : sets.Shows terminal last) : sets.Shows terminal form := by
  induction derives using Relation.ReflTransGen.head_induction_on with
  | refl => exact shown
  | head produces _ ih =>
      obtain @⟨number, production, before, after, found⟩ := produces
      have covered := covers production (Array.mem_of_getElem? found)
      rw [List.append_assoc] at ih
      rcases shows_append.mp ih with first | ⟨vanishes, rest⟩
      · exact shows_append.mpr (Or.inl first)
      · apply shows_append.mpr
        right
        refine ⟨vanishes, ?_⟩
        rcases shows_append.mp rest with symbols | ⟨symbols, last⟩
        · exact Or.inl (covered.shows symbols)
        · exact Or.inr ⟨covered.nullable symbols, last⟩

end Complete

/-! ### FIRST sets are exact -/

section Exact

variable (numbered : grammar.Numbered)

include numbered

theorem isNullable_iff :
    (ofGrammar grammar).isNullable id = true ↔ grammar.Derives [.nonterminal id] [] := by
  obtain ⟨sound, covers⟩ := ofGrammar_covers numbered
  constructor
  · exact sound.nullable id
  · intro derives
    exact vanishes_single.mp (vanishes_of_derives covers derives (fun symbol none => by cases none))

theorem contains_ofNonterminal_iff :
    ((ofGrammar grammar).ofNonterminal id).contains terminal = true ↔
      grammar.Begins [.nonterminal id] terminal := by
  obtain ⟨sound, covers⟩ := ofGrammar_covers numbered
  constructor
  · exact sound.begins id terminal
  · rintro ⟨rest, derives⟩
    have shown : (ofGrammar grammar).Shows terminal (.terminal terminal :: rest) := rfl
    rcases shows_of_derives covers derives shown with here | ⟨_, impossible⟩
    · exact here
    · exact impossible.elim

omit numbered in
theorem slots_blank {slots : Nat} : (TerminalSet.withCapacity (64 * slots)).slots = slots := by
  change (64 * slots + 63) / 64 = slots
  omega

omit numbered in
theorem slots_ofSymbols {tail : TerminalSet} :
    ∀ symbols : List Symbol, (sets.ofSymbols tail symbols).slots = tail.slots
  | [] => rfl
  | .terminal kind :: rest => by
      unfold ofSymbols
      rw [TerminalSet.slots_add, slots_blank]
  | .nonterminal id :: rest => by
      unfold ofSymbols
      dsimp only
      split
      · rw [TerminalSet.slots_union, TerminalSet.slots_union, slots_blank]
      · rw [TerminalSet.slots_union, slots_blank]

theorem contains_ofSymbols {tail : TerminalSet} (slots : tail.slots = slotsOf grammar) :
    ∀ symbols : List Symbol,
      (∀ symbol, symbol ∈ symbols → grammar.Has symbol) →
      (((ofGrammar grammar).ofSymbols tail symbols).contains terminal = true ↔
        grammar.Begins symbols terminal ∨ grammar.Derives symbols [] ∧ tail.contains terminal = true)
  | [], _has => by
      constructor
      · intro member
        exact Or.inr ⟨.refl, member⟩
      · rintro (impossible | ⟨_, member⟩)
        · exact absurd impossible not_begins_nil
        · exact member
  | .terminal kind :: rest, has => by
      have low : kind.index < grammar.terminalCount := has _ List.mem_cons_self
      have room := fits_of_slots (slots_blank.trans slots) (Nat.le_of_lt low)
      have gone : grammar.Derives (.terminal kind :: rest) [] ↔ _ := derives_cons_nil
      rw [gone, begins_cons, begins_terminal]
      change ((TerminalSet.withCapacity (64 * tail.slots)).add kind).contains terminal = true ↔ _
      rw [TerminalSet.contains_add _ _ _ room, TerminalSet.contains_withCapacity, Bool.false_or, beq_iff_eq]
      simp only [not_derives_terminal_nil, false_and, or_false]
  | .nonterminal id :: rest, has => by
      have sound := (ofGrammar_covers numbered).1
      have inside : id.index < grammar.nonterminalCount := has _ List.mem_cons_self
      have members : ((TerminalSet.withCapacity (64 * tail.slots)).union
          ((ofGrammar grammar).ofNonterminal id)).contains terminal = true ↔
            grammar.Begins [.nonterminal id] terminal := by
        rw [TerminalSet.contains_union_of_slots
            (by rw [sound.slots_ofNonterminal inside, slots_blank, slots]),
          TerminalSet.contains_withCapacity, Bool.false_or, contains_ofNonterminal_iff numbered]
      have later := contains_ofSymbols slots rest
        (fun symbol member => has symbol (List.mem_cons_of_mem _ member))
      have gone : grammar.Derives (.nonterminal id :: rest) [] ↔ _ := derives_cons_nil
      rw [gone, begins_cons, ← isNullable_iff numbered]
      unfold ofSymbols
      dsimp only
      cases (ofGrammar grammar).isNullable id with
      | false =>
          rw [if_neg (by decide), members]
          simp
      | true =>
          rw [if_pos rfl, TerminalSet.contains_union_of_slots
            (by rw [slots_ofSymbols, TerminalSet.slots_union, slots_blank]),
            Bool.or_eq_true, members, later]
          simp [or_assoc]

end Exact

end FirstSets

end IncrementalParsing.Lalr
