import IncrementalParsing.Proofs.Lalr.Chart

/-!
The frame of a table: as many rows as states, and a lexing mode for each state. The frame makes the
number of terminals a matter of the values that tell tables apart.
-/

namespace IncrementalParsing

/-- The rows of a table are as long as there are terminals, and every state has a mode that the table
knows. -/
structure Table.Framed (table : Table) : Prop where
  states_pos : 0 < table.stateCount
  actions_size : table.actions.size = table.stateCount * table.terminalCount
  gotos_size : table.gotos.size = table.stateCount * table.nonterminalCount
  modes_pos : 0 < table.lexModeCount
  mode_lt : ∀ mode, mode ∈ table.stateModes → mode.index < table.lexModeCount

theorem Table.Framed.lexMode_lt {table : Table} (framed : table.Framed) (state : StateId) :
    (table.lexMode state).index < table.lexModeCount := by
  unfold Table.lexMode
  cases found : table.stateModes[state.index]? with
  | none => exact framed.modes_pos
  | some mode => exact framed.mode_lt mode (Array.mem_of_getElem? found)

theorem Table.Framed.state_lt {table : Table} (framed : table.Framed) {state next : StateId}
    {kind : KindId} (reached : table.successor state kind = some next) :
    state.index < table.stateCount := by
  have place : ∀ {width column size : Nat}, size = table.stateCount * width →
      state.index * width + column < size → state.index < table.stateCount := by
    intro width column size sizes inside
    rw [sizes] at inside
    exact Nat.lt_of_mul_lt_mul_right (Nat.lt_of_le_of_lt (Nat.le_add_right _ _) inside)
  unfold Table.successor at reached
  split at reached
  · cases cell : table.actions[state.index * table.terminalCount + kind.index]? with
    | none =>
        unfold Table.action at reached
        rw [cell] at reached
        cases reached
    | some action => exact place framed.actions_size (Array.getElem?_eq_some_iff.mp cell).1
  · unfold Table.goto at reached
    split at reached
    · cases reached
    · dsimp only at reached
      cases cell : table.gotos[state.index * table.nonterminalCount +
          (kind.index - table.terminalCount)]? with
      | none =>
          rw [cell] at reached
          cases reached
      | some target => exact place framed.gotos_size (Array.getElem?_eq_some_iff.mp cell).1

theorem Table.Framed.same_counts {left right : Table} (leftFramed : left.Framed)
    (rightFramed : right.Framed) (same : left.fingerprint = right.fingerprint) :
    left.terminalCount = right.terminalCount ∧ left.kinds.size = right.kinds.size := by
  have modes : left.stateModes = right.stateModes := congrArg Fingerprint.stateModes same
  have actions : left.actions = right.actions := congrArg Fingerprint.actions same
  have kinds := congrArg (fun print : Fingerprint => print.kinds.length) same
  constructor
  · have states : left.stateCount = right.stateCount := congrArg Array.size modes
    have sizes := leftFramed.actions_size
    rw [actions, rightFramed.actions_size, states] at sizes
    exact (Nat.eq_of_mul_eq_mul_left rightFramed.states_pos sizes).symm
  · simpa [Table.fingerprint, KindTable.size] using kinds

namespace Lalr

theorem LexMode_index_ofIndex {index : Nat} (small : index < 65536) :
    (LexMode.ofIndex index).index = index := by
  simpa [LexMode.index, LexMode.ofIndex] using small

structure Modes.Fit (states : Nat) (modes : Modes) : Prop where
  sets_pos : 0 < modes.sets.size
  sets_le : modes.sets.size < 65536
  states_eq : modes.ofStates.size = states
  known : ∀ mode, mode ∈ modes.ofStates → mode.index < modes.sets.size

theorem Modes.assign_fit {states : Nat} {before after : Modes} {row : Array Action}
    (fit : before.Fit states) (assigned : before.assign row = .ok after) : after.Fit (states + 1) := by
  have positive := fit.sets_pos
  have bound := fit.sets_le
  unfold Modes.assign at assigned
  dsimp only at assigned
  split at assigned
  · rename_i mode found
    cases assigned
    refine ⟨positive, bound, by rw [Array.size_push, fit.states_eq], ?_⟩
    intro other member
    rcases Array.mem_push.mp member with old | new
    · exact fit.known other old
    · subst new
      unfold Modes.number? at found
      obtain ⟨place, among, same⟩ := Option.map_eq_some_iff.mp found
      subst same
      have inside := (List.findIdx?_eq_some_iff_getElem.mp among).1
      rw [List.length_drop, Array.length_toList] at inside
      rw [LexMode_index_ofIndex (by omega)]
      dsimp only
      omega
  · split at assigned
    · cases assigned
    · rename_i room
      cases assigned
      refine ⟨by rw [Array.size_push]; omega, by rw [Array.size_push]; omega,
        by rw [Array.size_push, fit.states_eq], ?_⟩
      intro other member
      rw [Array.size_push]
      rcases Array.mem_push.mp member with old | new
      · exact Nat.lt_succ_of_lt (fit.known other old)
      · subst new
        rw [LexMode_index_ofIndex bound]
        exact Nat.lt_succ_self _

theorem Modes.assignAll_fit : ∀ (rows : List SettledRow) {states : Nat} {before after : Modes},
    before.Fit states →
    rows.foldlM (fun modes row => (modes.assign row.actions : Except (Failure ConfigurationError) Modes))
      before = .ok after → after.Fit (states + rows.length)
  | [], _, _, _, fit, folded => by
      rw [List.foldlM_nil] at folded
      exact pure_ok.mp folded ▸ fit
  | row :: rest, states, _, _, fit, folded => by
      rw [List.foldlM_cons] at folded
      obtain ⟨middle, assigned, remaining⟩ := bind_ok.mp folded
      have final := Modes.assignAll_fit rest (Modes.assign_fit fit (lift_ok.mp assigned)) remaining
      rw [List.length_cons, Nat.add_comm rest.length 1, ← Nat.add_assoc]
      exact final

theorem size_layout {α β : Type} (row : β → Array α) (width : Nat) :
    ∀ (items : List β) (before : Array α), (∀ item, item ∈ items → (row item).size = width) →
      (items.foldl (fun all item => all ++ row item) before).size = before.size + items.length * width
  | [], before, _ => by simp
  | item :: rest, before, sizes => by
      rw [List.foldl_cons, size_layout row width rest _
        (fun other member => sizes other (List.mem_cons_of_mem _ member)), Array.size_append,
        sizes item List.mem_cons_self, List.length_cons, Nat.succ_mul]
      omega

theorem compile_framed {grammar : Grammar} {table : Table} (compiled : Compiled grammar table) :
    table.Framed := by
  have initially : Modes.Fit 0 ⟨#[Modes.recovery grammar], #[]⟩ := by
    refine ⟨Nat.zero_lt_one, show 1 < 65536 by decide, rfl, ?_⟩
    intro mode none
    exact absurd none (Array.not_mem_empty mode)
  have assigned := compiled.assigned
  rw [← Array.foldlM_toList] at assigned
  have fit := Modes.assignAll_fit compiled.rows.toList initially assigned
  rw [Nat.zero_add, Array.length_toList] at fit
  have states : table.stateModes = compiled.modes.ofStates :=
    congrArg Table.stateModes compiled.table_eq
  have sets : table.lexModes = compiled.modes.sets := congrArg Table.lexModes compiled.table_eq
  have actions : table.actions =
      compiled.rows.toList.foldl (fun actions row => actions ++ row.actions) #[] :=
    (congrArg Table.actions compiled.table_eq).trans (Array.foldl_toList _).symm
  have size := compiled.rows_size
  obtain ⟨some, _⟩ := Array.getElem?_eq_some_iff.mp compiled.explored.first
  constructor
  · change 0 < table.stateModes.size
    rw [states, fit.states_eq]
    omega
  · change _ = table.stateModes.size * _
    rw [actions, size_layout _ grammar.terminalCount _ _ compiled.row_size, states, fit.states_eq,
      compiled.terminalCount_eq]
    simp
  · have gotos : table.gotos = (Array.range compiled.automaton.kernels.size).toList.foldl
        (fun gotos state =>
          gotos ++ gotoRow grammar.nonterminalCount (compiled.automaton.edgesOf state)) #[] :=
      (congrArg Table.gotos compiled.table_eq).trans (Array.foldl_toList _).symm
    change _ = table.stateModes.size * _
    rw [gotos, size_layout _ grammar.nonterminalCount _ _ (fun state _ => gotoRow_sound.1), states,
      fit.states_eq, compiled.nonterminalCount_eq, size]
    simp
  · change 0 < table.lexModes.size
    rw [sets]
    exact fit.sets_pos
  · intro mode member
    change mode.index < table.lexModes.size
    rw [states] at member
    rw [sets]
    exact fit.known mode member

end Lalr

end IncrementalParsing
