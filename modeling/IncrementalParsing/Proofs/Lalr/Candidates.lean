import IncrementalParsing.Proofs.Lalr.Propagation

/-!
What the items of a state may want to do on a terminal, and what is left of it in a row. Where nothing
competes, a row does what an item wants; where a shift competes with a join of ropes, it joins. The
candidates are read off the same closures and lookaheads as the claims that a row is settled from, but all
of them are kept.
-/

namespace IncrementalParsing.Lalr

/-- What may be done in a cell of the table: a shift, or the reduction of a production. The number behind
those of the productions stands for acceptance. -/
inductive Candidate where
  | shift
  | reduce (number : Nat)
deriving DecidableEq, Repr

/-- What a closed item wants to do on a terminal, when `following` may follow the kernel item that was
closed. -/
def candidate? (construction : Construction) (following : TerminalSet) (terminal : KindId)
    (closed : Construction.ClosedItem) : Option Candidate :=
  match construction.rules.nextSymbol closed.item with
  | some (.terminal kind) => if kind = terminal then some .shift else none
  | some (.nonterminal _) => none
  | none =>
      if (reducedOn construction following closed).contains terminal then some (.reduce closed.item.production)
      else none

def candidates (construction : Construction) (closures : Closures) (kernel : List (Item × TerminalSet))
    (terminal : KindId) : List Candidate :=
  kernel.flatMap fun entry => (closures.of entry.1).filterMap (candidate? construction entry.2 terminal)

/-! ### Claims and candidates -/

namespace Claims

def shifting (claims : Claims) (column : Nat) : Option (Int × Int) := (claims.shifts[column]?).getD Option.none

/-- The production that is claimed to be reduced in a column. -/
def reducing (claims : Claims) (column : Nat) : Option Nat := (claims.reductions[column]?).getD Option.none

structure Weighs (terminalCount : Nat) (terminal : KindId) (claims : Claims) (wanted : Candidate → Prop) :
    Prop where
  shifts_size : claims.shifts.size = terminalCount
  reductions_size : claims.reductions.size = terminalCount
  shift : claims.shifting terminal.index ≠ Option.none ↔ wanted .shift
  sound : ∀ number, claims.reducing terminal.index = some number → wanted (.reduce number)
  kept : ∀ number, wanted (.reduce number) → claims.reducing terminal.index ≠ Option.none

variable {terminalCount : Nat} {terminal : KindId} {claims : Claims} {wanted : Candidate → Prop}

theorem Weighs.congr {others : Candidate → Prop} (weighs : claims.Weighs terminalCount terminal wanted)
    (same : ∀ candidate, others candidate ↔ wanted candidate) : claims.Weighs terminalCount terminal others where
  shifts_size := weighs.shifts_size
  reductions_size := weighs.reductions_size
  shift := weighs.shift.trans (same .shift).symm
  sound number claimed := (same _).mpr (weighs.sound number claimed)
  kept number wants := weighs.kept number ((same _).mp wants)

theorem none_weighs : (Claims.none terminalCount).Weighs terminalCount terminal fun _ => False := by
  have blank : ∀ {α : Type} (column : Nat),
      ((Array.replicate terminalCount (Option.none : Option α))[column]?).getD Option.none = Option.none := by
    intro α column
    rw [Array.getElem?_replicate]
    split <;> rfl
  refine ⟨Array.size_replicate, Array.size_replicate, ?_, ?_, ?_⟩
  · exact ⟨fun some => some (blank _), False.elim⟩
  · intro number claimed
    cases (blank terminal.index).symm.trans claimed
  · intro number
    exact False.elim

theorem reducing_reduce (augmented : Nat) (other : KindId) (number : Nat) {column : Nat}
    (inside : column < claims.reductions.size) :
    (claims.reduce augmented other number).reducing column =
      if other.index = column then
        some (match claims.reducing column with
          | some existing => preferred augmented existing number
          | .none => number)
      else claims.reducing column := by
  unfold reducing Claims.reduce
  rw [Array.getElem?_modify, Array.getElem?_eq_getElem inside]
  split
  · cases claims.reductions[column] <;> rfl
  · rfl

theorem shifting_shift (other : KindId) (precedence : Int) {column : Nat}
    (inside : column < claims.shifts.size) :
    (claims.shift other precedence).shifting column ≠ Option.none ↔
      claims.shifting column ≠ Option.none ∨ other.index = column := by
  unfold shifting Claims.shift
  rw [Array.getElem?_modify, Array.getElem?_eq_getElem inside]
  by_cases same : other.index = column
  · rw [if_pos same]
    cases claims.shifts[column] <;> simp [same]
  · rw [if_neg same]
    simp [same]

theorem Weighs.reduce (weighs : claims.Weighs terminalCount terminal wanted)
    (low : terminal.index < terminalCount) (augmented number : Nat) (other : KindId) :
    (claims.reduce augmented other number).Weighs terminalCount terminal
      fun candidate => wanted candidate ∨ terminal = other ∧ candidate = .reduce number := by
  have cell := reducing_reduce augmented other number (weighs.reductions_size.symm ▸ low)
  refine ⟨weighs.shifts_size, ?_, ?_, ?_, ?_⟩
  · unfold Claims.reduce
    rw [Array.size_modify]
    exact weighs.reductions_size
  · exact ⟨fun some => Or.inl (weighs.shift.mp some),
      fun wants => weighs.shift.mpr (wants.resolve_right fun other => Candidate.noConfusion other.2)⟩
  · intro chosen claimed
    rw [cell] at claimed
    split at claimed
    · rename_i index
      have same := TerminalSet.index_injective index
      have chosenEq := Option.some.inj claimed
      split at chosenEq
      · rename_i existing old
        rcases preferred_eq augmented existing number with first | second
        · exact Or.inl (chosenEq.symm ▸ first.symm ▸ weighs.sound existing old)
        · exact Or.inr ⟨same.symm, by rw [← chosenEq, second]⟩
      · exact Or.inr ⟨same.symm, by rw [chosenEq]⟩
    · exact Or.inl (weighs.sound chosen claimed)
  · intro chosen wants
    rw [cell]
    split
    · exact Option.some_ne_none _
    · rename_i index
      rcases wants with old | ⟨same, _⟩
      · exact weighs.kept chosen old
      · exact absurd (congrArg KindId.index same.symm) index

theorem Weighs.shifts (weighs : claims.Weighs terminalCount terminal wanted)
    (low : terminal.index < terminalCount) (other : KindId) (precedence : Int) :
    (claims.shift other precedence).Weighs terminalCount terminal
      fun candidate => wanted candidate ∨ other = terminal ∧ candidate = .shift := by
  have cell := shifting_shift other precedence (weighs.shifts_size.symm ▸ low)
  refine ⟨?_, weighs.reductions_size, ?_, ?_, ?_⟩
  · unfold Claims.shift
    rw [Array.size_modify]
    exact weighs.shifts_size
  · rw [cell, weighs.shift]
    constructor
    · rintro (old | index)
      · exact Or.inl old
      · exact Or.inr ⟨TerminalSet.index_injective index, rfl⟩
    · rintro (old | ⟨same, _⟩)
      · exact Or.inl old
      · exact Or.inr (congrArg KindId.index same)
  · intro chosen claimed
    exact Or.inl (weighs.sound chosen claimed)
  · intro chosen wants
    exact weighs.kept chosen (wants.resolve_right fun other => Candidate.noConfusion other.2)

theorem Weighs.reduceEach (low : terminal.index < terminalCount) (augmented number : Nat) :
    ∀ (terminals : List KindId) {claims : Claims} {wanted : Candidate → Prop},
      claims.Weighs terminalCount terminal wanted →
      (terminals.foldl (fun claims other => claims.reduce augmented other number) claims).Weighs terminalCount
        terminal fun candidate => wanted candidate ∨ terminal ∈ terminals ∧ candidate = .reduce number
  | [], claims, wanted, weighs => weighs.congr fun candidate => by simp
  | other :: rest, claims, wanted, weighs => by
      rw [List.foldl_cons]
      apply (reduceEach low augmented number rest (weighs.reduce low augmented number other)).congr
      intro candidate
      rw [List.mem_cons, or_assoc, or_and_right]

end Claims

section Claimed

variable {grammar : Grammar} {construction : Construction} {closures : Closures} {terminalCount : Nat}
  {terminal : KindId} {claims : Claims} {wanted : Candidate → Prop} (low : terminal.index < terminalCount)

include low

theorem Claims.Weighs.claim (weighs : claims.Weighs terminalCount terminal wanted) {following : TerminalSet}
    {closed : Construction.ClosedItem} (room : (reducedOn construction following closed).slots ≤ 1024) :
    (claim grammar construction following claims closed).Weighs terminalCount terminal
      fun candidate => wanted candidate ∨ candidate? construction following terminal closed = some candidate := by
  unfold Lalr.claim candidate?
  cases next : construction.rules.nextSymbol closed.item with
  | some symbol =>
      cases symbol with
      | terminal kind =>
          apply (weighs.shifts low kind _).congr
          intro candidate
          by_cases same : kind = terminal
          · simp [same, eq_comm]
          · simp [same]
      | nonterminal id =>
          apply weighs.congr
          intro candidate
          simp
  | none =>
      apply (weighs.reduceEach low construction.rules.augmented closed.item.production _).congr
      intro candidate
      change _ ↔ _ ∨ terminal ∈ (reducedOn construction following closed).toList ∧ _
      rw [TerminalSet.mem_toList room]
      by_cases present : (reducedOn construction following closed).contains terminal = true
      · simp [present, eq_comm]
      · simp [present]

theorem Claims.Weighs.claimEach {following : TerminalSet} : ∀ (items : List Construction.ClosedItem)
    {claims : Claims} {wanted : Candidate → Prop}, claims.Weighs terminalCount terminal wanted →
    (∀ closed, closed ∈ items → (reducedOn construction following closed).slots ≤ 1024) →
    (items.foldl (Lalr.claim grammar construction following) claims).Weighs terminalCount terminal
      fun candidate => wanted candidate ∨
        candidate ∈ items.filterMap (candidate? construction following terminal)
  | [], claims, wanted, weighs, _room => weighs.congr fun candidate => by simp
  | closed :: rest, claims, wanted, weighs, room => by
      rw [List.foldl_cons]
      apply (claimEach rest (weighs.claim low (room closed List.mem_cons_self))
        (fun other member => room other (List.mem_cons_of_mem _ member))).congr
      intro candidate
      rw [List.filterMap_cons, or_assoc]
      cases candidate? construction following terminal closed with
      | none => simp
      | some first => simp [eq_comm]

theorem Claims.Weighs.claimAll : ∀ (kernel : List (Item × TerminalSet)) {claims : Claims}
    {wanted : Candidate → Prop}, claims.Weighs terminalCount terminal wanted →
    (∀ entry, entry ∈ kernel → ∀ closed, closed ∈ closures.of entry.1 →
      (reducedOn construction entry.2 closed).slots ≤ 1024) →
    (kernel.foldl (fun claims entry => (closures.of entry.1).foldl (Lalr.claim grammar construction entry.2)
      claims) claims).Weighs terminalCount terminal
      fun candidate => wanted candidate ∨ candidate ∈ candidates construction closures kernel terminal
  | [], claims, wanted, weighs, _room => weighs.congr fun candidate => by simp [candidates]
  | entry :: rest, claims, wanted, weighs, room => by
      rw [List.foldl_cons]
      apply (claimAll rest (weighs.claimEach low _ (room entry List.mem_cons_self))
        (fun other member => room other (List.mem_cons_of_mem _ member))).congr
      intro candidate
      unfold candidates
      rw [List.flatMap_cons, List.mem_append, or_assoc]

end Claimed

theorem claimsOf_weighs {grammar : Grammar} {construction : Construction} {closures : Closures}
    {kernel : List (Item × TerminalSet)} {terminal : KindId} (low : terminal.index < construction.terminalCount)
    (room : ∀ entry, entry ∈ kernel → ∀ closed, closed ∈ closures.of entry.1 →
      (reducedOn construction entry.2 closed).slots ≤ 1024) :
    (claimsOf grammar construction closures kernel).Weighs construction.terminalCount terminal
      fun candidate => candidate ∈ candidates construction closures kernel terminal := by
  apply (Claims.none_weighs.claimAll low kernel room).congr
  intro candidate
  rw [false_or]

/-! ### What is left in a cell -/

section Cells

variable {grammar : Grammar} {claims : Claims} {edges : List (Symbol × Nat)} {state column : Nat}

theorem settle_other {terminal : Nat} {before after : SettledRow}
    (settled : settle grammar state claims before terminal = .ok after) (other : terminal ≠ column) :
    after.actions[column]? = before.actions[column]? := by
  unfold settle at settled
  split at settled
  · cases settled
    rfl
  · split at settled
    · cases settled
      exact Array.getElem?_setIfInBounds_ne other
    · cases settled
      rfl
    · cases settled
      exact Array.getElem?_setIfInBounds_ne other
    · split at settled
      · cases settled
        rfl
      · cases settled
        exact Array.getElem?_setIfInBounds_ne other
      · split at settled
        · cases settled
        · cases settled
          rfl

private theorem settleEach_other : ∀ (terminals : List Nat) {before after : SettledRow},
    terminals.foldlM (settle grammar state claims) before = .ok after → column ∉ terminals →
    after.actions[column]? = before.actions[column]?
  | [], before, after, settled, _away => by
      cases pure_ok.mp settled
      rfl
  | terminal :: rest, before, after, settled, away => by
      rw [List.foldlM_cons] at settled
      obtain ⟨middle, step, settled⟩ := bind_ok.mp settled
      rw [settleEach_other rest settled (fun member => away (List.mem_cons_of_mem _ member)),
        settle_other step (fun same => away (same ▸ List.mem_cons_self))]

theorem actionRow_cell {row : SettledRow} (settled : actionRow grammar state claims edges = .ok row)
    (inside : column < grammar.terminalCount) :
    ∃ before after : SettledRow, settle grammar state claims before column = .ok after ∧
      before.actions[column]? = (shiftRow grammar.terminalCount edges)[column]? ∧
      row.actions[column]? = after.actions[column]? := by
  unfold actionRow at settled
  have parts : List.range grammar.terminalCount =
      List.range column ++ column :: List.range' (column + 1) (grammar.terminalCount - column - 1) := by
    rw [List.range_eq_range', List.range_eq_range']
    have first := @List.range'_append_1 0 column (grammar.terminalCount - column)
    rw [Nat.zero_add, Nat.add_sub_cancel' (Nat.le_of_lt inside)] at first
    rw [← first]
    congr 1
    rw [← List.range'_succ]
    congr 1
    omega
  rw [parts, List.foldlM_append] at settled
  obtain ⟨before, earlier, settled⟩ := bind_ok.mp settled
  rw [List.foldlM_cons] at settled
  obtain ⟨after, here, later⟩ := bind_ok.mp settled
  refine ⟨before, after, here, ?_, ?_⟩
  · rw [settleEach_other _ earlier (fun member => Nat.lt_irrefl _ (List.mem_range.mp member))]
  · apply settleEach_other _ later
    intro member
    obtain ⟨low, _⟩ := List.mem_range'_1.mp member
    omega

theorem actionRow_shift {row : SettledRow} (settled : actionRow grammar state claims edges = .ok row)
    (inside : column < grammar.terminalCount)
    (yields : ∀ number, claims.reducing column = some number →
      ∃ low high, claims.shifting column = some (low, high) ∧
        ∀ production, grammar.productions[number]? = some production → resolve production low high ≠ .reduce) :
    row.actions[column]? = (shiftRow grammar.terminalCount edges)[column]? := by
  obtain ⟨before, after, here, shifted, left⟩ := actionRow_cell settled inside
  rw [left, ← shifted]
  unfold settle at here
  unfold Claims.reducing Claims.shifting at yields
  cases claimed : (claims.reductions[column]?).getD none with
  | none =>
      rw [claimed] at here
      cases here
      rfl
  | some number =>
      obtain ⟨low, high, competes, away⟩ := yields number claimed
      rw [claimed] at here
      dsimp only at here
      rw [competes] at here
      cases found : (grammar.productions[number]? : Option Production) with
      | none =>
          rw [found] at here
          cases here
          rfl
      | some production =>
          rw [found] at here
          dsimp only at here
          cases resolved : resolve production low high with
          | shift =>
              rw [resolved] at here
              cases here
              rfl
          | reduce => exact absurd resolved (away production found)
          | unresolved =>
              rw [resolved] at here
              dsimp only at here
              split at here
              · cases here
              · cases here
                rfl

def reduction (grammar : Grammar) (number : Nat) : Action :=
  if number < grammar.productions.size then .reduce (.ofIndex number) else .accept

theorem actionRow_reduce {row : SettledRow} (settled : actionRow grammar state claims edges = .ok row)
    (inside : column < grammar.terminalCount) {number : Nat} (claimed : claims.reducing column = some number)
    (wins : ∀ low high, claims.shifting column = some (low, high) →
      ∃ production, grammar.productions[number]? = some production ∧ resolve production low high = .reduce) :
    row.actions[column]? = some (reduction grammar number) := by
  obtain ⟨before, after, here, shifted, left⟩ := actionRow_cell settled inside
  have room : column < before.actions.size := by
    have width : column < (shiftRow grammar.terminalCount edges).size := shiftRow_sound.1.symm ▸ inside
    have filled := Array.getElem?_eq_getElem width
    rw [← shifted] at filled
    exact (Array.getElem?_eq_some_iff.mp filled).1
  have put : ∀ action : Action, (before.actions.setIfInBounds column action)[column]? = some action := by
    intro action
    rw [Array.getElem?_setIfInBounds, if_pos rfl, if_pos room]
  rw [left]
  unfold settle at here
  unfold Claims.reducing at claimed
  unfold Claims.shifting at wins
  rw [claimed] at here
  dsimp only at here
  unfold reduction
  rcases Nat.lt_or_ge number grammar.productions.size with known | beyond
  · have found := Array.getElem?_eq_getElem known
    rw [if_pos known]
    cases competing : (claims.shifts[column]?).getD none with
    | none =>
        rw [found, competing] at here
        cases here
        exact put _
    | some range =>
        obtain ⟨production, same, resolved⟩ := wins range.1 range.2 competing
        rw [same, competing] at here
        dsimp only at here
        rw [resolved] at here
        cases here
        exact put _
  · have missing := Array.getElem?_eq_none beyond
    rw [if_neg (Nat.not_lt_of_le beyond)]
    cases competing : (claims.shifts[column]?).getD none with
    | none =>
        rw [missing, competing] at here
        cases here
        exact put _
    | some range =>
        obtain ⟨production, found, _⟩ := wins range.1 range.2 competing
        cases missing.symm.trans found

end Cells

/-! ### Cells that nothing competes for -/

/-- The kernel of a state in which two ropes of a repetition may be joined or the second one may go on. -/
def Joining (grammar : Grammar) (kernel : List Item) (number : Nat) : Prop :=
  (grammar.productions[number]? : Option Production).map (·.kind) = some .repeatJoin ∧
    ⟨number, 1⟩ ∈ kernel ∧ ⟨number, 2⟩ ∈ kernel ∧ ∀ item, item ∈ kernel → item = ⟨number, 1⟩ ∨ item = ⟨number, 2⟩

instance (grammar : Grammar) (kernel : List Item) (number : Nat) : Decidable (Joining grammar kernel number) :=
  inferInstanceAs (Decidable (_ ∧ _ ∧ _ ∧ _))

/-- A shift and a join of ropes may compete where nothing but the ropes is in the kernel. -/
def Excepted (grammar : Grammar) (kernel : List Item) : Candidate → Candidate → Prop
  | .shift, .reduce number => Joining grammar kernel number
  | .reduce number, .shift => Joining grammar kernel number
  | .shift, .shift => False
  | .reduce _, .reduce _ => False

instance (grammar : Grammar) (kernel : List Item) :
    ∀ left right : Candidate, Decidable (Excepted grammar kernel left right)
  | .shift, .reduce number => inferInstanceAs (Decidable (Joining grammar kernel number))
  | .reduce number, .shift => inferInstanceAs (Decidable (Joining grammar kernel number))
  | .shift, .shift => .isFalse id
  | .reduce _, .reduce _ => .isFalse id

def cellOf (grammar : Grammar) (automaton : Automaton) (sets : Array TerminalSet) (state : Nat)
    (terminal : KindId) : List Candidate :=
  candidates (.ofGrammar grammar) (.ofConstruction (.ofGrammar grammar))
    (kernelWithLookaheads (.ofAutomaton automaton) sets automaton state) terminal

/-- No cell has two candidates, except for a shift and a join of ropes. -/
def Uncontested (grammar : Grammar) (automaton : Automaton) (sets : Array TerminalSet) : Prop :=
  ∀ state, state < automaton.kernels.size → ∀ column, column < grammar.terminalCount →
    ∀ left, left ∈ cellOf grammar automaton sets state (.ofIndex column) →
      ∀ right, right ∈ cellOf grammar automaton sets state (.ofIndex column) →
        left = right ∨ Excepted grammar (automaton.kernels[state]?.getD []) left right

instance (grammar : Grammar) (automaton : Automaton) (sets : Array TerminalSet) :
    Decidable (Uncontested grammar automaton sets) :=
  inferInstanceAs (Decidable (∀ _, _ → ∀ _, _ → ∀ _, _ → ∀ _, _ → _))

/-- The table of the grammar is made without a conflict, except for shifts that compete with joins. -/
def ConflictFree (grammar : Grammar) : Prop :=
  ∃ automaton sets, Automaton.ofRules (.ofGrammar grammar) = .ok automaton ∧
    lookaheads (.ofGrammar grammar) (.ofConstruction (.ofGrammar grammar)) (.ofAutomaton automaton) automaton =
      .ok sets ∧
    Uncontested grammar automaton sets

/-! ### Candidates of canonical items -/

section Canonical

variable {grammar : Grammar} {automaton : Automaton} (numbered : grammar.Numbered)
  (productive : grammar.unproductive? = none)
  (explored : automaton.Explored (.ofGrammar grammar) automaton.kernels.size) {flow : Flow}
  (settled : Settled grammar automaton flow)

theorem mem_kernelWithLookaheads {state : Nat} {entry : Item × TerminalSet} {sets : Array TerminalSet}
    (inside : state < automaton.kernels.size)
    (member : entry ∈ kernelWithLookaheads (.ofAutomaton automaton) sets automaton state) :
    ∃ place, Placement.Located automaton place state entry.1 ∧
      entry.2 = (sets[place]?).getD (.withCapacity 0) := by
  have found := Array.getElem?_eq_getElem inside
  unfold kernelWithLookaheads at member
  rw [found, Option.getD_some] at member
  obtain ⟨⟨seed, slot⟩, among, rfl⟩ := List.mem_map.mp member
  exact ⟨_, ⟨slot, _, found, List.mk_mem_zipIdx_iff_getElem?.mp among, rfl⟩, rfl⟩

theorem Placement.Located.mem_kernelWithLookaheads {state place : Nat} {seed : Item} {set : TerminalSet}
    {sets : Array TerminalSet} (located : Placement.Located automaton place state seed)
    (found : sets[place]? = some set) :
    (seed, set) ∈ kernelWithLookaheads (.ofAutomaton automaton) sets automaton state := by
  obtain ⟨slot, kernel, kernelAt, at_, rfl⟩ := located
  unfold kernelWithLookaheads
  rw [kernelAt, Option.getD_some]
  refine List.mem_map.mpr ⟨(seed, slot), List.mk_mem_zipIdx_iff_getElem?.mpr at_, ?_⟩
  dsimp only
  rw [found, Option.getD_some]

theorem slots_reducedOn {construction : Construction} {following : TerminalSet}
    {closed : Construction.ClosedItem} :
    (reducedOn construction following closed).slots = closed.lookahead.slots := by
  unfold reducedOn
  split
  · rw [TerminalSet.slots_union, TerminalSet.slots_remove]
  · rfl

include numbered productive explored settled

/-- An item of a canonical set is wanted by the state that is led to, on the terminal that may follow it. -/
theorem Settled.exists_closed {front : List Symbol} {state : Nat} {item : Item} {terminal : KindId}
    (leads : automaton.Leads front state) (canonical : Canonical grammar front item terminal) :
    ∃ entry closed, entry ∈ kernelWithLookaheads (.ofAutomaton automaton) flow.sets automaton state ∧
      closed ∈ (Closures.ofConstruction (.ofGrammar grammar)).of entry.1 ∧ closed.item = item ∧
      (reducedOn (.ofGrammar grammar) entry.2 closed).contains terminal = true := by
  obtain ⟨place, seed, tail, located, ⟨set, found, present⟩, expanded⟩ :=
    settled.exists_seed numbered productive explored leads canonical
  have marker := marker_index numbered
  have member := located.mem_kernelWithLookaheads found
  have ⟨_, kernel, kernelAt, at_, _⟩ := located
  have closures := closuresOf_kernel explored kernelAt (List.mem_of_getElem? at_)
  have setSlots := settled.flowing.slots set (Array.mem_of_getElem? found)
  have proper := (settled.flowing.sets _ _ _ _ _ found located present).ne_marker numbered
  -- Either the lookahead arises in the closure, or it is what follows the kernel item.
  have arises : ∃ closed, closed ∈ (Construction.ofGrammar grammar).closure seed ∧ closed.item = item ∧
      (closed.lookahead.contains terminal = true ∧ terminal ≠ (Construction.ofGrammar grammar).marker ∨
        closed.lookahead.contains (Construction.ofGrammar grammar).marker = true ∧ terminal = tail) := by
    rcases (expanded_iff_marker numbered (Nat.le_of_eq marker.symm) proper).mp expanded with
      ⟨here, away⟩ | ⟨passes, same⟩
    · obtain ⟨closed, inClosure, itemEq, known⟩ := Construction.closure_complete numbered productive here
      exact ⟨closed, inClosure, itemEq, Or.inl ⟨known, away⟩⟩
    · obtain ⟨closed, inClosure, itemEq, known⟩ := Construction.closure_complete numbered productive passes
      exact ⟨closed, inClosure, itemEq, Or.inr ⟨known, same⟩⟩
  obtain ⟨closed, inClosure, itemEq, known⟩ := arises
  have ⟨closedSlots, _⟩ := Construction.closure_sound numbered productive inClosure
  refine ⟨(seed, set), closed, member, closures ▸ inClosure, itemEq, ?_⟩
  have joined : ∀ kind, ((closed.lookahead.remove (Construction.ofGrammar grammar).marker).union
      set).contains kind = ((closed.lookahead.remove (Construction.ofGrammar grammar).marker).contains kind ||
        set.contains kind) := by
    intro kind
    apply TerminalSet.contains_union_of_slots
    rw [TerminalSet.slots_remove, closedSlots, setSlots]
  unfold reducedOn
  rcases known with ⟨here, away⟩ | ⟨passes, rfl⟩
  · split
    · rw [joined, TerminalSet.contains_remove, here, Bool.true_and, bne_iff_ne.mpr away, Bool.true_or]
    · exact here
  · rw [if_pos passes, joined, present, Bool.or_true]

theorem Settled.shift_mem {front : List Symbol} {state : Nat} {item : Item} {terminal kind : KindId}
    (leads : automaton.Leads front state) (canonical : Canonical grammar front item terminal)
    (next : (Rules.ofGrammar grammar).nextSymbol item = some (.terminal kind)) :
    .shift ∈ cellOf grammar automaton flow.sets state kind := by
  obtain ⟨entry, closed, member, inClosure, rfl, _⟩ :=
    settled.exists_closed numbered productive explored leads canonical
  apply List.mem_flatMap.mpr
  refine ⟨entry, member, List.mem_filterMap.mpr ⟨closed, inClosure, ?_⟩⟩
  unfold candidate?
  have goes : (Construction.ofGrammar grammar).rules.nextSymbol closed.item = some (.terminal kind) := next
  rw [goes]
  exact if_pos rfl

theorem Settled.reduce_mem {front : List Symbol} {state : Nat} {item : Item} {terminal : KindId}
    (leads : automaton.Leads front state) (canonical : Canonical grammar front item terminal)
    (done : (Rules.ofGrammar grammar).nextSymbol item = none) :
    .reduce item.production ∈ cellOf grammar automaton flow.sets state terminal := by
  obtain ⟨entry, closed, member, inClosure, rfl, present⟩ :=
    settled.exists_closed numbered productive explored leads canonical
  apply List.mem_flatMap.mpr
  refine ⟨entry, member, List.mem_filterMap.mpr ⟨closed, inClosure, ?_⟩⟩
  unfold candidate?
  have ended : (Construction.ofGrammar grammar).rules.nextSymbol closed.item = none := done
  rw [ended]
  exact if_pos present

omit settled in
theorem claimsOf_cell {sets : Array TerminalSet} {state : Nat} {terminal : KindId}
    (inside : state < automaton.kernels.size) (low : terminal.index < grammar.terminalCount) :
    (claimsOf grammar (.ofGrammar grammar) (.ofConstruction (.ofGrammar grammar))
      (kernelWithLookaheads (.ofAutomaton automaton) sets automaton state)).Weighs grammar.terminalCount terminal
      fun candidate => candidate ∈ cellOf grammar automaton sets state terminal := by
  refine @claimsOf_weighs grammar (.ofGrammar grammar) _ _ _ low ?_
  intro entry member closed inClosure
  obtain ⟨place, ⟨slot, kernel, found, at_, _⟩, _⟩ := mem_kernelWithLookaheads inside member
  rw [closuresOf_kernel explored found (List.mem_of_getElem? at_)] at inClosure
  have ⟨slots, _⟩ := Construction.closure_sound numbered productive inClosure
  rw [slots_reducedOn, slots]
  exact slotsOf_le numbered

end Canonical

/-! ### Actions -/

namespace Compiled

theorem exists_settled {grammar : Grammar} {table : Table} (compiled : Compiled grammar table)
    (numbered : grammar.Numbered) (productive : grammar.unproductive? = none) :
    ∃ arcs, Settled grammar compiled.automaton ⟨compiled.sets, arcs⟩ := by
  obtain ⟨sets, arcs, computed, settled⟩ := lookaheads_settled numbered productive compiled.explored
  cases compiled.lookaheads.symm.trans computed
  exact ⟨arcs, settled⟩

/-- A terminal behind a mark is shifted where every reduction gives way. -/
theorem action_shifts {grammar : Grammar} {table : Table} (compiled : Compiled grammar table)
    (numbered : grammar.Numbered) {state : StateId} {kernel : List Item} {item : Item} {kind : KindId}
    (found : compiled.automaton.kernels[state.index]? = some kernel)
    (closed : item ∈ closure (.ofGrammar grammar) kernel)
    (next : (Rules.ofGrammar grammar).nextSymbol item = some (.terminal kind))
    (yields : ∀ number, (compiled.claims state.index).reducing kind.index = some number →
      ∃ low high, (compiled.claims state.index).shifting kind.index = some (low, high) ∧
        ∀ production, grammar.productions[number]? = some production → resolve production low high ≠ .reduce) :
    ∃ target, (Symbol.terminal kind, target) ∈ compiled.automaton.edgesOf state.index ∧
      table.action state kind = .shift (.ofIndex target) := by
  obtain ⟨inside, _⟩ := Array.getElem?_eq_some_iff.mp found
  have low : kind.index < grammar.terminalCount := (nextSymbol_within numbered next).2.2
  obtain ⟨row, at_, settledRow⟩ := compiled.exists_row inside
  have cell := compiled.action_cell low state
  rw [at_, Option.bind_some, actionRow_shift settledRow low yields] at cell
  obtain ⟨target, lookup⟩ := compiled.explored.lookup_edge found closed next
  have edge := mem_of_lookup lookup
  obtain ⟨shifted, shiftedAt⟩ := shiftRow_complete low edge
  rcases shiftRow_sound.2 _ _ shiftedAt with none | ⟨other, place, member, index, same⟩
  · cases none
  · cases TerminalSet.index_injective index
    cases compiled.explored.edge_unique found edge member
    refine ⟨target, edge, ?_⟩
    rw [cell, shiftedAt, Option.getD_some, same]

theorem action_reduces {grammar : Grammar} {table : Table} (compiled : Compiled grammar table) {state : StateId}
    (inside : state.index < compiled.automaton.kernels.size) {terminal : KindId}
    (low : terminal.index < grammar.terminalCount) {number : Nat}
    (claimed : (compiled.claims state.index).reducing terminal.index = some number)
    (wins : ∀ low high, (compiled.claims state.index).shifting terminal.index = some (low, high) →
      ∃ production, grammar.productions[number]? = some production ∧ resolve production low high = .reduce) :
    table.action state terminal = reduction grammar number := by
  obtain ⟨row, at_, settledRow⟩ := compiled.exists_row inside
  rw [compiled.action_cell low, at_, Option.bind_some, actionRow_reduce settledRow low claimed wins,
    Option.getD_some]

variable {grammar : Grammar} {table : Table} {compiled : Compiled grammar table} (numbered : grammar.Numbered)
  (productive : grammar.unproductive? = none)
  (uncontested : Uncontested grammar compiled.automaton compiled.sets) {state : StateId} {kernel : List Item}
  (found : compiled.automaton.kernels[state.index]? = some kernel) {front : List Symbol}
  (leads : compiled.automaton.Leads front state.index) {item : Item} {terminal : KindId}
  (canonical : Canonical grammar front item terminal)

include uncontested found in
theorem cell_eq_or (low : terminal.index < grammar.terminalCount) {left right : Candidate}
    (one : left ∈ cellOf grammar compiled.automaton compiled.sets state.index terminal)
    (another : right ∈ cellOf grammar compiled.automaton compiled.sets state.index terminal) :
    left = right ∨ Excepted grammar kernel left right := by
  obtain ⟨inside, _⟩ := Array.getElem?_eq_some_iff.mp found
  have either := uncontested state.index inside terminal.index low
  rw [KindId.ofIndex_index, found, Option.getD_some] at either
  exact either left one right another

include numbered productive uncontested found leads canonical

/-- A terminal behind a mark is shifted, unless ropes are to be joined there. -/
theorem action_shift {kind : KindId} (next : (Rules.ofGrammar grammar).nextSymbol item = some (.terminal kind))
    (away : ∀ number, ¬ Joining grammar kernel number) :
    ∃ target, (Symbol.terminal kind, target) ∈ compiled.automaton.edgesOf state.index ∧
      table.action state kind = .shift (.ofIndex target) := by
  obtain ⟨inside, _⟩ := Array.getElem?_eq_some_iff.mp found
  obtain ⟨arcs, settled⟩ := compiled.exists_settled numbered productive
  have low : kind.index < grammar.terminalCount := (nextSymbol_within numbered next).2.2
  have wanted := settled.shift_mem numbered productive compiled.explored leads canonical next
  have weighs : (compiled.claims state.index).Weighs grammar.terminalCount kind fun candidate =>
      candidate ∈ cellOf grammar compiled.automaton compiled.sets state.index kind :=
    claimsOf_cell numbered productive compiled.explored inside low
  have inClosure : item ∈ closure (.ofGrammar grammar) kernel :=
    (mem_closure (Rules.ofGrammar_consistent grammar)).mpr
      (closed_of_canonical compiled.explored leads found canonical)
  apply compiled.action_shifts numbered found inClosure next
  intro number claimed
  rcases cell_eq_or uncontested found low wanted (weighs.sound number claimed) with same | excepted
  · cases same
  · exact absurd excepted (away number)

theorem action_reduce (done : (Rules.ofGrammar grammar).nextSymbol item = none) :
    table.action state terminal = reduction grammar item.production := by
  obtain ⟨inside, _⟩ := Array.getElem?_eq_some_iff.mp found
  obtain ⟨arcs, settled⟩ := compiled.exists_settled numbered productive
  have low := canonical.terminal_lt numbered
  have wanted := settled.reduce_mem numbered productive compiled.explored leads canonical done
  have weighs : (compiled.claims state.index).Weighs grammar.terminalCount terminal fun candidate =>
      candidate ∈ cellOf grammar compiled.automaton compiled.sets state.index terminal :=
    claimsOf_cell numbered productive compiled.explored inside low
  have claimed : (compiled.claims state.index).reducing terminal.index = some item.production := by
    cases chosen : (compiled.claims state.index).reducing terminal.index with
    | none => exact absurd chosen (weighs.kept _ wanted)
    | some number =>
        rcases cell_eq_or uncontested found low wanted (weighs.sound number chosen) with same | excepted
        · rw [Candidate.reduce.inj same]
        · exact excepted.elim
  apply compiled.action_reduces inside low claimed
  intro lowest highest competes
  have shifts : .shift ∈ cellOf grammar compiled.automaton compiled.sets state.index terminal :=
    weighs.shift.mp (competes ▸ Option.some_ne_none _)
  rcases cell_eq_or uncontested found low shifts wanted with same | excepted
  · cases same
  · obtain ⟨production, known, joins⟩ := Option.map_eq_some_iff.mp excepted.1
    refine ⟨production, known, ?_⟩
    unfold resolve
    exact if_pos joins

end Compiled

end IncrementalParsing.Lalr
