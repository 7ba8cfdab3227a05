import IncrementalParsing.Proofs.Grammar.Leading
import IncrementalParsing.Proofs.Lalr.Chart
import Mathlib.Data.List.Induction

/-!
Canonical LR(1) items. An item of the canonical sets has one terminal that may follow it. The sets are
given by the sequences of symbols that lead to them: the closure of the start item, and from there on the
closure of what the items advance to. Merging the sets that have the same items apart from their lookaheads
gives the LALR(1) sets.

Closures are linear: what is in the closure of some items is in the closure of one of them, and the closure
of an item under one lookahead is that under any other with the lookahead replaced.
-/

namespace IncrementalParsing.Lalr

inductive Expanded (grammar : Grammar) (kernel : Item → KindId → Prop) : Item → KindId → Prop
  | kernel {item : Item} {terminal : KindId} : kernel item terminal → Expanded grammar kernel item terminal
  | start {item : Item} {follower terminal : KindId} {id : NonterminalId} {number : Nat} :
      Expanded grammar kernel item follower →
      (Rules.ofGrammar grammar).nextSymbol item = some (.nonterminal id) →
      number ∈ (Rules.ofGrammar grammar).productionsOf id →
      grammar.FirstOf ((Rules.ofGrammar grammar).rest item) follower terminal →
      Expanded grammar kernel ⟨number, 0⟩ terminal

def Advanced (grammar : Grammar) (items : Item → KindId → Prop) (symbol : Symbol) (item : Item)
    (terminal : KindId) : Prop :=
  ∃ before, items before terminal ∧ (Rules.ofGrammar grammar).nextSymbol before = some symbol ∧
    item = before.advance

/-- The item that texts start with, which the end of the input follows. -/
def StartItem (grammar : Grammar) (item : Item) (terminal : KindId) : Prop :=
  item = ⟨(Rules.ofGrammar grammar).augmented, 0⟩ ∧ terminal = .endOfInput

/-- The canonical LR(1) items after a sequence of symbols. -/
def Canonical (grammar : Grammar) (front : List Symbol) : Item → KindId → Prop :=
  front.foldl (fun items symbol => Expanded grammar (Advanced grammar items symbol))
    (Expanded grammar (StartItem grammar))

/-- The sequences of symbols that lead from the first state of an automaton to another one. -/
inductive Automaton.Leads (automaton : Automaton) : List Symbol → Nat → Prop
  | start : Leads automaton [] 0
  | step {front : List Symbol} {state target : Nat} {symbol : Symbol} : Leads automaton front state →
      (symbol, target) ∈ automaton.edgesOf state → Leads automaton (front ++ [symbol]) target

def Single (seed : Item) (tail : KindId) (item : Item) (terminal : KindId) : Prop :=
  item = seed ∧ terminal = tail

variable {grammar : Grammar} {kernel : Item → KindId → Prop} {item seed : Item} {terminal tail : KindId}

theorem canonical_append (front : List Symbol) (symbol : Symbol) :
    Canonical grammar (front ++ [symbol]) =
      Expanded grammar (Advanced grammar (Canonical grammar front) symbol) := by
  unfold Canonical
  rw [List.foldl_append]
  rfl

theorem Canonical.start {front : List Symbol} {follower : KindId} {id : NonterminalId} {number : Nat}
    (canonical : Canonical grammar front item follower)
    (next : (Rules.ofGrammar grammar).nextSymbol item = some (.nonterminal id))
    (produced : number ∈ (Rules.ofGrammar grammar).productionsOf id)
    (first : grammar.FirstOf ((Rules.ofGrammar grammar).rest item) follower terminal) :
    Canonical grammar front ⟨number, 0⟩ terminal := by
  rcases List.eq_nil_or_concat front with rfl | ⟨earlier, symbol, rfl⟩
  · exact Expanded.start canonical next produced first
  · rw [List.concat_eq_append, canonical_append] at canonical ⊢
    exact .start canonical next produced first

theorem Canonical.advance {front : List Symbol} {symbol : Symbol}
    (canonical : Canonical grammar front item terminal)
    (next : (Rules.ofGrammar grammar).nextSymbol item = some symbol) :
    Canonical grammar (front ++ [symbol]) item.advance terminal := by
  rw [canonical_append]
  exact .kernel ⟨item, canonical, next, rfl⟩

theorem Canonical.expand {front : List Symbol} (canonical : Canonical grammar front seed tail)
    (expanded : Expanded grammar (Single seed tail) item terminal) : Canonical grammar front item terminal := by
  induction expanded with
  | kernel same =>
      obtain ⟨rfl, rfl⟩ := same
      exact canonical
  | start _ next produced first ih => exact ih.start next produced first

/-! ### Closures of single items -/

theorem expanded_iff_exists_seed : Expanded grammar kernel item terminal ↔
    ∃ seed tail, kernel seed tail ∧ Expanded grammar (Single seed tail) item terminal := by
  constructor
  · intro expanded
    induction expanded with
    | @kernel item terminal member => exact ⟨item, terminal, member, .kernel ⟨rfl, rfl⟩⟩
    | start _ next produced first ih =>
        obtain ⟨seed, tail, member, here⟩ := ih
        exact ⟨seed, tail, member, .start here next produced first⟩
  · rintro ⟨seed, tail, member, expanded⟩
    induction expanded with
    | kernel same =>
        obtain ⟨rfl, rfl⟩ := same
        exact .kernel member
    | start _ next produced first ih => exact .start ih next produced first

theorem rest_within (numbered : grammar.Numbered) {symbol : Symbol}
    (member : symbol ∈ (Rules.ofGrammar grammar).rest item) :
    symbol.Within grammar.terminalCount grammar.kinds.size := by
  unfold Rules.rest at member
  obtain ⟨place, inside, found⟩ := List.mem_iff_getElem.mp (List.mem_of_mem_drop member)
  have next : (Rules.ofGrammar grammar).nextSymbol ⟨item.production, place⟩ = some symbol := by
    unfold Rules.nextSymbol
    rw [← Array.getElem?_toList, List.getElem?_eq_getElem inside, found]
  exact (nextSymbol_within numbered next).2

theorem begins_rest_lt (numbered : grammar.Numbered)
    (begins : grammar.Begins ((Rules.ofGrammar grammar).rest item) terminal) :
    terminal.index < grammar.terminalCount :=
  (begins.within numbered (fun _ => rest_within numbered)).2

/-- Something can follow wherever a nonterminal begins. -/
theorem exists_firstOf (numbered : grammar.Numbered) (productive : grammar.unproductive? = none) (item : Item)
    (tail : KindId) : ∃ terminal, grammar.FirstOf ((Rules.ofGrammar grammar).rest item) tail terminal := by
  obtain ⟨kinds, derives⟩ := Grammar.exists_word productive
    (fun symbol (member : symbol ∈ (Rules.ofGrammar grammar).rest item) => rest_within numbered member)
  cases kinds with
  | nil => exact ⟨tail, Grammar.firstOf_iff.mpr (Or.inr ⟨derives, rfl⟩)⟩
  | cons kind rest => exact ⟨kind, Grammar.firstOf_iff.mpr (Or.inl ⟨_, derives⟩)⟩

theorem exists_expanded (numbered : grammar.Numbered) (productive : grammar.unproductive? = none)
    (closed : Closed (.ofGrammar grammar) [seed] item) (tail : KindId) :
    ∃ terminal, Expanded grammar (Single seed tail) item terminal := by
  induction closed with
  | kernel member => exact ⟨tail, .kernel ⟨List.mem_singleton.mp member, rfl⟩⟩
  | @start before id number _ next produced ih =>
      obtain ⟨follower, expanded⟩ := ih
      obtain ⟨terminal, first⟩ := exists_firstOf numbered productive before follower
      exact ⟨terminal, .start expanded next produced first⟩

theorem Expanded.terminal_lt (numbered : grammar.Numbered)
    (expanded : Expanded grammar (Single seed tail) item terminal) :
    terminal = tail ∨ terminal.index < grammar.terminalCount := by
  induction expanded with
  | kernel same => exact Or.inl same.2
  | start _ _ _ first ih =>
      rcases Grammar.firstOf_iff.mp first with begins | ⟨_, rfl⟩
      · exact Or.inr (begins_rest_lt numbered begins)
      · exact ih

/-- What follows an item is the end of the input or another terminal of the grammar. -/
theorem Canonical.terminal_lt (numbered : grammar.Numbered) {front : List Symbol}
    (canonical : Canonical grammar front item terminal) : terminal.index < grammar.terminalCount := by
  have expands : ∀ {kernel : Item → KindId → Prop} {item : Item} {terminal : KindId},
      (∀ seed tail, kernel seed tail → tail.index < grammar.terminalCount) →
      Expanded grammar kernel item terminal → terminal.index < grammar.terminalCount := by
    intro kernel item terminal low expanded
    obtain ⟨seed, tail, member, here⟩ := expanded_iff_exists_seed.mp expanded
    rcases here.terminal_lt numbered with rfl | below
    · exact low seed _ member
    · exact below
  induction front using List.reverseRecOn generalizing item terminal with
  | nil =>
      apply expands _ canonical
      rintro seed tail ⟨_, rfl⟩
      have reserved := numbered.reserved
      change 0 < grammar.terminalCount
      omega
  | append_singleton front symbol ih =>
      rw [canonical_append] at canonical
      apply expands _ canonical
      rintro seed tail ⟨before, earlier, _, _⟩
      exact ih earlier

section Replaced

variable (numbered : grammar.Numbered) {marker : KindId} (foreign : grammar.terminalCount ≤ marker.index)

include numbered foreign

private theorem Expanded.of_marker (expanded : Expanded grammar (Single seed marker) item terminal) :
    (terminal ≠ marker → Expanded grammar (Single seed tail) item terminal) ∧
      (terminal = marker → Expanded grammar (Single seed tail) item tail) := by
  induction expanded with
  | kernel same => exact ⟨fun other => absurd same.2 other, fun _ => .kernel ⟨same.1, rfl⟩⟩
  | @start before follower terminal id number _ next produced first ih =>
      have present : ∃ other, Expanded grammar (Single seed tail) before other := by
        by_cases same : follower = marker
        · exact ⟨tail, ih.2 same⟩
        · exact ⟨follower, ih.1 same⟩
      obtain ⟨other, here⟩ := present
      rcases Grammar.firstOf_iff.mp first with begins | ⟨vanishes, rfl⟩
      · have low := begins_rest_lt numbered begins
        refine ⟨fun _ => .start here next produced (Grammar.firstOf_iff.mpr (Or.inl begins)), ?_⟩
        rintro rfl
        omega
      · constructor
        · intro other
          exact .start (ih.1 other) next produced (Grammar.firstOf_iff.mpr (Or.inr ⟨vanishes, rfl⟩))
        · intro same
          exact .start (ih.2 same) next produced (Grammar.firstOf_iff.mpr (Or.inr ⟨vanishes, rfl⟩))

/-- A closure under one lookahead is that under a placeholder, with the lookahead in its place: what arises
without the placeholder arises anyway, what the placeholder is passed on to the lookahead is passed on to. -/
theorem expanded_iff_marker (proper : tail ≠ marker) :
    Expanded grammar (Single seed tail) item terminal ↔
      Expanded grammar (Single seed marker) item terminal ∧ terminal ≠ marker ∨
        Expanded grammar (Single seed marker) item marker ∧ terminal = tail := by
  constructor
  · intro expanded
    induction expanded with
    | kernel same =>
        obtain ⟨rfl, rfl⟩ := same
        exact Or.inr ⟨.kernel ⟨rfl, rfl⟩, rfl⟩
    | @start before follower terminal id number _ next produced first ih =>
        rcases Grammar.firstOf_iff.mp first with begins | ⟨vanishes, rfl⟩
        · have low := begins_rest_lt numbered begins
          have away : terminal ≠ marker := by
            rintro rfl
            omega
          have arises : ∀ other, grammar.FirstOf ((Rules.ofGrammar grammar).rest before) other terminal :=
            fun _ => Grammar.firstOf_iff.mpr (Or.inl begins)
          rcases ih with ⟨here, _⟩ | ⟨here, _⟩
          · exact Or.inl ⟨.start here next produced (arises _), away⟩
          · exact Or.inl ⟨.start here next produced (arises _), away⟩
        · rcases ih with ⟨here, away⟩ | ⟨here, rfl⟩
          · exact Or.inl ⟨.start here next produced first, away⟩
          · exact Or.inr ⟨.start here next produced (Grammar.firstOf_iff.mpr (Or.inr ⟨vanishes, rfl⟩)), rfl⟩
  · rintro (⟨expanded, away⟩ | ⟨expanded, rfl⟩)
    · exact (expanded.of_marker numbered foreign).1 away
    · exact (expanded.of_marker numbered foreign).2 rfl

end Replaced

end IncrementalParsing.Lalr
