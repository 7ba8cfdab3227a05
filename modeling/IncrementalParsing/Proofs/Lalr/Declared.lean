import IncrementalParsing.Proofs.Lalr.Chart

/-!
What a table keeps of a declaration. Every step of a right-hand side has a place for its label; the
hidden nonterminals are the rules with a hidden name and the helpers of repetitions; and there is
nothing on the stack of an accepted text besides the start nonterminal.
-/

namespace IncrementalParsing

namespace Table

structure Declared (table : Table) : Prop where
  labels : ∀ production, production ∈ table.productions →
    production.fields.length = production.symbols.length
  error_visible : table.isHidden .error = false
  hidden_iff : ∀ kind, table.isTerminal kind = false → table.HasKind kind →
    (table.isHidden kind = true ↔
      isHiddenName (table.kinds.name kind) = true ∨ table.isRepeat kind = true)

def AcceptsStart (table : Table) : Prop :=
  ∀ state kind next terminal, table.HasKind kind → table.successor state kind = some next →
    table.isTerminal terminal = true → table.action next terminal = .accept →
    kind = table.startKind ∧
      ∀ before other, table.HasKind other → table.successor before other ≠ some state

end Table

namespace Lalr

variable {grammar : Grammar} {table : Table}

theorem compile_declared {declaration : Declaration} (normalized : declaration.normalize = .ok grammar)
    (compiled : Compiled grammar table) : table.Declared := by
  obtain ⟨errorVisible, visible⟩ := Declaration.normalize_visible normalized
  rw [← compiled.kinds_eq] at errorVisible visible
  rw [← compiled.terminalCount_eq, ← compiled.ruleCount_eq] at visible
  constructor
  · intro production member
    rw [compiled.productions_eq] at member
    obtain ⟨source, _, rfl⟩ := Array.mem_map.mp member
    simp [productionInfo, Production.symbols]
  · obtain ⟨info, found, shown⟩ := Option.map_eq_some_iff.mp errorVisible
    have here : table.kinds.kinds[KindId.error.index]? = some info := found
    unfold Table.isHidden
    rw [here]
    dsimp only
    rw [shown]
    rfl
  · intro kind nonterminal known
    have above : table.terminalCount ≤ kind.index := Nat.le_of_not_lt (of_decide_eq_false nonterminal)
    obtain ⟨info, found⟩ : ∃ info, table.kinds.kinds[kind.index]? = some info :=
      ⟨_, Array.getElem?_eq_getElem known⟩
    have shown := visible _ _ found above
    unfold Table.isHidden Table.isRepeat KindTable.name
    rw [found]
    dsimp only
    rw [shown, decide_eq_true (show kind.index < table.kinds.size from known), Bool.and_true, decide_eq_true_iff]
    rcases Nat.lt_or_ge kind.index (table.terminalCount + table.ruleCount) with low | high
    · rw [decide_eq_true low]
      simp [Nat.not_le_of_lt low]
    · rw [decide_eq_false (Nat.not_lt_of_le high)]
      simp [high]

theorem Compiled.augmented_unreached (compiled : Compiled grammar table) {state next : StateId} {kind : KindId}
    (known : table.HasKind kind)
    (reached : table.successor state kind = some next) :
    ¬ compiled.Items next ⟨grammar.productions.size, 0⟩ := by
  rintro ⟨kernel, found, closed⟩
  obtain ⟨source, target, symbol, _, targetAt, among, _⟩ := compiled.successor_kernel known reached
  cases targetAt.symm.trans found
  generalize shape : (⟨grammar.productions.size, 0⟩ : Item) = item at closed
  cases closed with
  | kernel member =>
      obtain ⟨before, _, _, rfl⟩ := (mem_successor among _).mp member
      exact absurd (congrArg Item.dot shape) (Nat.succ_ne_zero _).symm
  | start _ _ produced =>
      obtain ⟨_, production, there, _⟩ := (Rules.mem_productionsOf grammar).mp produced
      cases shape
      rw [Array.getElem?_eq_none (Nat.le_refl _)] at there
      cases there

theorem compile_acceptsStart (numbered : grammar.Numbered) (compiled : Compiled grammar table) :
    table.AcceptsStart := by
  intro state kind next terminal known reached isTerminal accepts
  have low : terminal.index < grammar.terminalCount :=
    compiled.terminalCount_eq ▸ of_decide_eq_true isTerminal
  obtain ⟨_, member⟩ := compiled.accepts_end numbered low accepts
  obtain ⟨before, due⟩ := compiled.items_before numbered known reached member Nat.one_pos
  dsimp only at before due
  constructor
  · unfold Table.nextKind Table.rhs at due
    rw [Array.getElem?_eq_none (Nat.le_of_eq compiled.productions_size)] at due
    exact (Option.some.inj due).symm
  · intro earlier other otherKnown led
    exact compiled.augmented_unreached otherKnown led before

theorem compile_start_ne_accept (numbered : grammar.Numbered) (compiled : Compiled grammar table)
    {terminal : KindId} (isTerminal : table.isTerminal terminal = true) :
    table.action .start terminal ≠ .accept := by
  intro accepts
  have low : terminal.index < grammar.terminalCount :=
    compiled.terminalCount_eq ▸ of_decide_eq_true isTerminal
  exact absurd (compiled.dot_of_items_start (compiled.accepts_end numbered low accepts).2) Nat.one_ne_zero

end Lalr

end IncrementalParsing
