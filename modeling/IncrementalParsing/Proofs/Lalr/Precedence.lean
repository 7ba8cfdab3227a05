import IncrementalParsing.Proofs.Lalr.Candidates

/-!
Cells that precedence settles. What a state claims is known from the closure of its kernel: only
productions at their ends are reduced, and the precedences of its shifts are those in force at the marks.
A row is made without a conflict when precedence decides wherever a shift and a reduction compete.
-/

namespace IncrementalParsing.Lalr

/-! ### Precedences of shifts -/

def Claims.Ranges (column : Nat) (holds : Int → Prop) (claims : Claims) : Prop :=
  ∀ low high, claims.shifting column = some (low, high) → holds low ∧ holds high

section Ranges

variable {claims : Claims} {column : Nat} {holds : Int → Prop}

theorem Claims.Ranges.shift (ranges : claims.Ranges column holds) {terminal : KindId} {precedence : Int}
    (here : terminal.index = column → holds precedence) :
    (claims.shift terminal precedence).Ranges column holds := by
  intro low high found
  unfold Claims.shifting Claims.shift at found
  rw [Array.getElem?_modify] at found
  split at found
  · rename_i same
    cases old : claims.shifts[column]? with
    | none =>
        rw [old] at found
        cases found
    | some earlier =>
        rw [old, Option.map_some, Option.getD_some] at found
        cases earlier with
        | none =>
            cases found
            exact ⟨here same, here same⟩
        | some range =>
            obtain ⟨lowest, highest⟩ := range
            have known : claims.shifting column = some (lowest, highest) := by
              unfold Claims.shifting
              rw [old, Option.getD_some]
            obtain ⟨lowHolds, highHolds⟩ := ranges lowest highest known
            cases found
            constructor
            · rcases min_choice lowest precedence with same | other
              · exact same.symm ▸ lowHolds
              · exact other.symm ▸ here ‹_›
            · rcases max_choice highest precedence with same | other
              · exact same.symm ▸ highHolds
              · exact other.symm ▸ here ‹_›
  · exact ranges low high found

theorem Claims.Ranges.claim {grammar : Grammar} {construction : Construction} {following : TerminalSet}
    {closed : Construction.ClosedItem} (ranges : claims.Ranges column holds)
    (here : ∀ terminal, construction.rules.nextSymbol closed.item = some (.terminal terminal) →
      terminal.index = column → holds (stepPrecedence grammar closed.item)) :
    (Lalr.claim grammar construction following claims closed).Ranges column holds := by
  unfold Lalr.claim
  cases next : construction.rules.nextSymbol closed.item with
  | none =>
      dsimp only
      apply foldl_keeps (Claims.Ranges column holds) _ _ _ _ ranges
      intro terminal _ before kept
      exact kept
  | some symbol =>
      cases symbol with
      | terminal terminal => exact ranges.shift (here terminal next)
      | nonterminal id => exact ranges

theorem claimsOf_ranges {grammar : Grammar} {construction : Construction} {closures : Closures}
    {kernel : List (Item × TerminalSet)} {terminal : KindId}
    (each : ∀ entry, entry ∈ kernel → ∀ closed, closed ∈ closures.of entry.1 →
      construction.rules.nextSymbol closed.item = some (.terminal terminal) →
      holds (stepPrecedence grammar closed.item)) :
    (claimsOf grammar construction closures kernel).Ranges terminal.index holds := by
  unfold claimsOf
  apply foldl_keeps (Claims.Ranges terminal.index holds)
  · intro entry member before ranges
    apply foldl_keeps (Claims.Ranges terminal.index holds) _ _ _ _ ranges
    intro closed inside claims kept
    apply kept.claim
    intro other next same
    cases TerminalSet.index_injective same
    exact each entry member closed inside next
  · intro low high found
    unfold Claims.shifting Claims.none at found
    rw [Array.getElem?_replicate] at found
    split at found <;> cases found

end Ranges

/-! ### Claims of a state -/

def claimsAt (grammar : Grammar) (automaton : Automaton) (sets : Array TerminalSet) (state : Nat) : Claims :=
  claimsOf grammar (.ofGrammar grammar) (.ofConstruction (.ofGrammar grammar))
    (kernelWithLookaheads (.ofAutomaton automaton) sets automaton state)

section States

variable {grammar : Grammar} {automaton : Automaton} {sets : Array TerminalSet} {state : Nat}
  {kernel : List Item} (found : automaton.kernels[state]? = some kernel)

include found

theorem mem_closure_of_claimed {entry : Item × TerminalSet} {closed : Construction.ClosedItem}
    (member : entry ∈ kernelWithLookaheads (.ofAutomaton automaton) sets automaton state)
    (inClosure : closed ∈ (Closures.ofConstruction (.ofGrammar grammar)).of entry.1) :
    closed.item ∈ closure (.ofGrammar grammar) kernel := by
  obtain ⟨inside, _⟩ := Array.getElem?_eq_some_iff.mp found
  obtain ⟨_, ⟨_, other, known, at_, _⟩, _⟩ := mem_kernelWithLookaheads inside member
  cases found.symm.trans known
  have consistent := Rules.ofGrammar_consistent grammar
  exact (mem_closure consistent).mpr
    (closed_of_mem_constructionClosure consistent (List.mem_of_getElem? at_) (mem_closuresOf inClosure))

theorem closed_of_reducing {column number : Nat}
    (claimed : (claimsAt grammar automaton sets state).reducing column = some number) :
    ∃ item, item ∈ closure (.ofGrammar grammar) kernel ∧
      (Rules.ofGrammar grammar).nextSymbol item = none ∧ item.production = number := by
  have listed : (claimsAt grammar automaton sets state).reductions[column]? = some (some number) := by
    unfold Claims.reducing at claimed
    cases cell : (claimsAt grammar automaton sets state).reductions[column]? with
    | none =>
        rw [cell] at claimed
        cases claimed
    | some reduction =>
        rw [cell, Option.getD_some] at claimed
        rw [claimed]
  obtain ⟨entry, closed, _, member, inClosure, ended, same, _, _⟩ := claimsOf_sound grammar _ _ listed
  exact ⟨closed.item, mem_closure_of_claimed found member inClosure, ended, same⟩

theorem claimsAt_ranges {terminal : KindId} {holds : Int → Prop}
    (each : ∀ item, item ∈ closure (.ofGrammar grammar) kernel →
      (Rules.ofGrammar grammar).nextSymbol item = some (.terminal terminal) →
      holds (stepPrecedence grammar item)) :
    (claimsAt grammar automaton sets state).Ranges terminal.index holds := by
  apply claimsOf_ranges
  intro entry member closed inClosure next
  exact each closed.item (mem_closure_of_claimed found member inClosure) next

end States

section Canonical

variable {grammar : Grammar} {table : Table} (compiled : Compiled grammar table) (numbered : grammar.Numbered)
  (productive : grammar.unproductive? = none) {state : StateId} {front : List Symbol} {item : Item}
  {terminal : KindId} (leads : compiled.automaton.Leads front state.index)
  (canonical : Canonical grammar front item terminal)

include numbered productive leads canonical

theorem Compiled.reducing_ne_none (done : (Rules.ofGrammar grammar).nextSymbol item = none) :
    (compiled.claims state.index).reducing terminal.index ≠ none := by
  obtain ⟨arcs, settled⟩ := compiled.exists_settled numbered productive
  obtain ⟨kernel, found⟩ := compiled.explored.leads_lt leads
  have inside := (Array.getElem?_eq_some_iff.mp found).1
  have weighs := @claimsOf_cell _ _ numbered productive compiled.explored compiled.sets _ _ inside
    (canonical.terminal_lt numbered)
  exact weighs.kept _ (settled.reduce_mem numbered productive compiled.explored leads canonical done)

theorem Compiled.shifting_ne_none {kind : KindId}
    (next : (Rules.ofGrammar grammar).nextSymbol item = some (.terminal kind)) :
    (compiled.claims state.index).shifting kind.index ≠ none := by
  obtain ⟨arcs, settled⟩ := compiled.exists_settled numbered productive
  obtain ⟨kernel, found⟩ := compiled.explored.leads_lt leads
  have inside := (Array.getElem?_eq_some_iff.mp found).1
  have weighs := @claimsOf_cell _ _ numbered productive compiled.explored compiled.sets _ _ inside
    (nextSymbol_within numbered next).2.2
  exact weighs.shift.mpr (settled.shift_mem numbered productive compiled.explored leads canonical next)

end Canonical

/-! ### Rows without conflicts -/

/-- Precedence decides wherever a shift and a reduction compete. -/
def Claims.Decided (grammar : Grammar) (claims : Claims) : Prop :=
  ∀ column, column < grammar.terminalCount → ∀ number production low high,
    claims.reducing column = some number → grammar.productions[number]? = some production →
    claims.shifting column = some (low, high) → resolve production low high ≠ .unresolved

theorem settle_decided {grammar : Grammar} {claims : Claims} (decided : claims.Decided grammar) (state : Nat)
    {column : Nat} (inside : column < grammar.terminalCount) (before : SettledRow) :
    ∃ after, settle grammar state claims before column = .ok after ∧ after.conflicts = before.conflicts := by
  have decides := decided column inside
  unfold Claims.reducing Claims.shifting at decides
  unfold settle
  cases claimed : (claims.reductions[column]?).getD none with
  | none => exact ⟨_, rfl, rfl⟩
  | some number =>
      dsimp only
      cases found : (grammar.productions[number]? : Option Production) with
      | none =>
          cases (claims.shifts[column]?).getD none with
          | none => exact ⟨_, rfl, rfl⟩
          | some range => exact ⟨_, rfl, rfl⟩
      | some production =>
          cases competes : (claims.shifts[column]?).getD none with
          | none => exact ⟨_, rfl, rfl⟩
          | some range =>
              have settled := decides number production range.1 range.2 claimed found competes
              dsimp only
              cases resolved : resolve production range.1 range.2 with
              | shift => exact ⟨_, rfl, rfl⟩
              | reduce => exact ⟨_, rfl, rfl⟩
              | unresolved => exact absurd resolved settled

theorem exists_actionRow {grammar : Grammar} {claims : Claims} (decided : claims.Decided grammar) (state : Nat)
    (edges : List (Symbol × Nat)) :
    ∃ row, actionRow grammar state claims edges = .ok row ∧ row.conflicts = 0 := by
  have folds : ∀ (columns : List Nat) (before : SettledRow), (∀ column, column ∈ columns →
      column < grammar.terminalCount) → ∃ after, columns.foldlM (settle grammar state claims) before = .ok after ∧
      after.conflicts = before.conflicts := by
    intro columns
    induction columns with
    | nil => exact fun before _ => ⟨before, rfl, rfl⟩
    | cons column rest ih =>
        intro before inside
        obtain ⟨middle, settled, same⟩ :=
          settle_decided decided state (inside column List.mem_cons_self) before
        obtain ⟨after, folded, still⟩ := ih middle (fun other member => inside other (List.mem_cons_of_mem _ member))
        refine ⟨after, ?_, still.trans same⟩
        rw [List.foldlM_cons, settled]
        exact folded
  exact folds (List.range grammar.terminalCount) _ fun column => List.mem_range.mp

end IncrementalParsing.Lalr
