import IncrementalParsing.Proofs.Lalr.Exact

/-!
Lexing modes mirror the actions. A mode holds the terminals for which its states have something to do, so two
states share a mode exactly if they act on the same terminals. The mode of recovery keeps the first number,
whatever states are numbered after it, and no state gets that number.
-/

namespace IncrementalParsing

/-- A terminal on which a state has something to do. -/
def Table.Admits (table : Table) (state : StateId) (terminal : KindId) : Prop :=
  table.isTerminal terminal = true ∧ table.action state terminal ≠ .error

namespace Lalr

namespace Modes

theorem slots_admitted (row : Array Action) : (admitted row).slots = (row.size + 63) / 64 := by
  unfold admitted
  rw [← Array.foldl_toList,
    TerminalSet.slots_foldl_add (fun entry : Action × Nat => entry.1 = .error) (fun entry => .ofIndex entry.2)]
  rfl

theorem contains_recovery {grammar : Grammar} (numbered : grammar.Numbered) {terminal : KindId} :
    (recovery grammar).contains terminal = true ↔
      terminal.index < grammar.terminalCount ∧ terminal ≠ .error ∧ terminal ∉ grammar.lexical.externals := by
  have fits := numbered.kinds_le
  have room := numbered.rules_le
  unfold Declaration.symbolLimit at fits
  have skipped : ∀ index : Nat, ((KindId.ofIndex index == .error) ||
      grammar.lexical.externals.contains (.ofIndex index)) = true ↔
        KindId.ofIndex index = .error ∨ KindId.ofIndex index ∈ grammar.lexical.externals := by
    intro index
    rw [Bool.or_eq_true, beq_iff_eq, Array.contains_iff_mem]
  unfold recovery
  dsimp only
  rw [TerminalSet.contains_foldl_add (fun index : Nat => ((KindId.ofIndex index == .error) ||
      grammar.lexical.externals.contains (.ofIndex index)) = true) (fun index => index),
    TerminalSet.contains_withCapacity]
  · constructor
    · rintro (none | ⟨index, member, kept, rfl⟩)
      · cases none
      · rw [skipped, KindId.ofIndex_index, not_or] at kept
        exact ⟨List.mem_range.mp member, kept⟩
    · rintro ⟨low, proper, regular⟩
      refine Or.inr ⟨terminal.index, List.mem_range.mpr low, ?_, rfl⟩
      rw [skipped, KindId.ofIndex_index, not_or]
      exact ⟨proper, regular⟩
  · intro index member
    have low := List.mem_range.mp member
    change index < 64 * ((grammar.terminalCount + 63) / 64) ∧ index < 65536
    omega

theorem assign_keeps {before after : Modes} {row : Array Action} {place : Nat} {set : TerminalSet}
    (found : before.sets[place]? = some set) (assigned : before.assign row = .ok after) :
    after.sets[place]? = some set := by
  unfold assign at assigned
  dsimp only at assigned
  split at assigned
  · cases assigned
    exact found
  · split at assigned
    · cases assigned
    · cases assigned
      rw [Array.getElem?_push, if_neg (Nat.ne_of_lt (Array.getElem?_eq_some_iff.mp found).1)]
      exact found

end Modes

section Compiled

variable {grammar : Grammar} {table : Table} (compiled : Compiled grammar table)

include compiled

theorem Compiled.recovery_first : table.lexModes[0]? = some (Modes.recovery grammar) := by
  rw [compiled.lexModes_eq]
  have assigned := compiled.assigned
  rw [← Array.foldlM_toList] at assigned
  refine foldlM_keeps (fun modes : Modes => modes.sets[0]? = some (Modes.recovery grammar)) _ _ _ _ ?_ rfl assigned
  intro row _ before after found step
  exact Modes.assign_keeps found (lift_ok.mp step)

variable (numbered : grammar.Numbered)

include numbered

theorem Compiled.mode_admits {state : StateId} (inside : state.index < table.stateCount) :
    ∃ set, table.lexModes[(table.lexMode state).index]? = some set ∧
      (table.lexMode state).index = (table.lexModes.toList.drop 1).idxOf set + 1 ∧
      set.slots = (grammar.terminalCount + 63) / 64 ∧
      ∀ terminal, set.contains terminal = true ↔ table.Admits state terminal := by
  obtain ⟨row, at_, found, number⟩ := compiled.mode_row inside
  have width := compiled.row_size row (Array.mem_toList_iff.mpr (Array.mem_of_getElem? at_))
  refine ⟨_, found, number, ?_, fun terminal => compiled.contains_mode numbered at_⟩
  rw [Modes.slots_admitted, width]

theorem Compiled.lexMode_eq_iff {state other : StateId} (inside : state.index < table.stateCount)
    (otherInside : other.index < table.stateCount) :
    table.lexMode state = table.lexMode other ↔
      ∀ terminal, table.Admits state terminal ↔ table.Admits other terminal := by
  obtain ⟨set, found, number, slots, admits⟩ := compiled.mode_admits numbered inside
  obtain ⟨against, otherFound, otherNumber, otherSlots, otherAdmits⟩ :=
    compiled.mode_admits numbered otherInside
  constructor
  · intro same terminal
    rw [same, otherFound] at found
    cases found
    rw [← admits, ← otherAdmits]
  · intro same
    have fits := numbered.kinds_le
    have room := numbered.rules_le
    unfold Declaration.symbolLimit at fits
    have equal : set = against := by
      apply TerminalSet.eq_of_contains (by omega) (slots.trans otherSlots.symm)
      intro terminal
      rw [Bool.eq_iff_iff, admits, otherAdmits, same]
    have index : (table.lexMode state).index = (table.lexMode other).index := by
      rw [number, otherNumber, equal]
    have raw : (table.lexMode state).raw = (table.lexMode other).raw := UInt16.toNat_inj.mp index
    exact congrArg LexMode.mk raw

theorem Compiled.expected_exact {state : StateId} (inside : state.index < table.stateCount) :
    (table.expected state).Pairwise (fun first second => first.index < second.index) ∧
      ∀ terminal, terminal ∈ table.expected state ↔ table.Admits state terminal := by
  obtain ⟨set, found, _, slots, admits⟩ := compiled.mode_admits numbered inside
  have fits := numbered.kinds_le
  have room := numbered.rules_le
  unfold Declaration.symbolLimit at fits
  have small : set.slots ≤ 1024 := by omega
  unfold Table.expected
  rw [found]
  exact ⟨TerminalSet.toList_increasing small, fun terminal => (TerminalSet.mem_toList small).trans (admits terminal)⟩

end Compiled

end Lalr

namespace Declaration

/-- Modes mirror the actions of a table. That of recovery admits every terminal but the error token and the
immediate tokens, and belongs to no state. The mode of a state admits the terminals on which the state has
something to do; states with the same such terminals have the same mode, others have different ones; and they
are listed as expected once each in increasing order. -/
theorem compile_modes {declaration : Declaration} {table : Table} (compiled : declaration.compile = .ok table) :
    (∃ recovery, table.modeTerminals .error = .ok recovery ∧
      ∀ terminal, recovery.contains terminal = true ↔ table.isTerminal terminal = true ∧
        terminal ≠ .error ∧ terminal ∉ table.lexical.externals) ∧
    ∀ state : StateId, state.index < table.stateCount →
      table.lexMode state ≠ .error ∧
      (∃ set, table.modeTerminals (table.lexMode state) = .ok set ∧
        ∀ terminal, set.contains terminal = true ↔ table.Admits state terminal) ∧
      (∀ other : StateId, other.index < table.stateCount →
        (table.lexMode state = table.lexMode other ↔
          ∀ terminal, table.Admits state terminal ↔ table.Admits other terminal)) ∧
      (table.expected state).Pairwise (fun first second => first.index < second.index) ∧
      ∀ terminal, terminal ∈ table.expected state ↔ table.Admits state terminal := by
  obtain ⟨grammar, normalized, compiling⟩ := bind_ok.mp compiled
  have numbered := normalize_numbered normalized
  obtain ⟨made⟩ := Lalr.compile_ok compiling
  refine ⟨⟨_, requireAt_ok.mpr made.recovery_first, fun terminal => ?_⟩, fun state inside => ?_⟩
  · rw [Lalr.Modes.contains_recovery numbered, made.lexical_eq]
    unfold Table.isTerminal
    rw [decide_eq_true_eq, made.terminalCount_eq]
  · obtain ⟨set, found, number, _, admits⟩ := made.mode_admits numbered inside
    refine ⟨fun recovering => ?_, ⟨set, requireAt_ok.mpr found, admits⟩,
      fun other otherInside => made.lexMode_eq_iff numbered inside otherInside, made.expected_exact numbered inside⟩
    rw [recovering] at number
    cases number

namespace Quoted

/-- Characters between quotes; the scanner looks for them where the token before ends. -/
def declaration : Declaration :=
  { Declaration.empty "quoted" with
    rules := #[("string", .sequence [.literal "q", .repeated (.symbol "content"), .literal "q"])]
    externals := #["content"] }

theorem compiles : declaration.compile.toOption.isSome = true := by decide +kernel

def table : Table := declaration.compile.toOption.get compiles

/-- The characters have the number 2 and quotes the number 3; behind one character and behind several the same
is expected. -/
theorem modes : table.terminalCount = 4 ∧ table.lexical.externals = #[⟨2⟩] ∧ table.stateCount = 7 ∧
    table.lexMode ⟨3⟩ = table.lexMode ⟨4⟩ ∧ table.expected ⟨3⟩ = [⟨2⟩, ⟨3⟩] := by
  decide +kernel

end Quoted

theorem compile_modes_quoted :
    (∃ recovery, Quoted.table.modeTerminals .error = .ok recovery ∧ recovery.contains ⟨2⟩ = false ∧
      recovery.contains ⟨3⟩ = true) ∧
    Quoted.table.lexMode ⟨3⟩ ≠ .error ∧ Quoted.table.Admits ⟨3⟩ ⟨2⟩ ∧
    ∀ terminal, Quoted.table.Admits ⟨3⟩ terminal ↔ Quoted.table.Admits ⟨4⟩ terminal := by
  have compiled : Quoted.declaration.compile = .ok Quoted.table := eq_ok_get _
  obtain ⟨⟨recovery, recovers, admitted⟩, states⟩ := compile_modes compiled
  obtain ⟨count, externals, stateCount, shared, expects⟩ := Quoted.modes
  rw [externals] at admitted
  have inside : ∀ index : UInt16, index.toNat < 7 → (⟨index⟩ : StateId).index < Quoted.table.stateCount :=
    fun _ below => stateCount.symm ▸ below
  obtain ⟨regular, _, same, _, listed⟩ := states ⟨3⟩ (inside 3 (by decide))
  refine ⟨⟨recovery, recovers, ?_, (admitted ⟨3⟩).mpr ⟨?_, by decide, ?_⟩⟩, regular, ?_,
    (same ⟨4⟩ (inside 4 (by decide))).mp shared⟩
  · rw [Bool.eq_false_iff]
    intro characters
    exact ((admitted ⟨2⟩).mp characters).2.2 (Array.mem_singleton.mpr rfl)
  · unfold Table.isTerminal
    rw [count]
    rfl
  · rw [Array.mem_singleton]
    decide
  · rw [← listed, expects]
    exact List.mem_cons_self

end Declaration

end IncrementalParsing
