import IncrementalParsing.Proofs.Lalr.Modes
import IncrementalParsing.Proofs.Lalr.Precedence

/-!
Tables that are made. States and lexing modes are numbered with 16 bits, and conflicts may be refused. A
table is made when there are few enough kernels, when precedence decides every competition, and when the
states do not all admit different terminals.
-/

namespace IncrementalParsing.Lalr

/-! ### States -/

namespace Automaton

structure Drawn (family : List (List Item)) (automaton : Automaton) : Prop where
  distinct : automaton.kernels.toList.Nodup
  among : ∀ kernel, kernel ∈ automaton.kernels.toList → kernel ∈ family

variable {family : List (List Item)} (few : family.length ≤ stateLimit)

include few

theorem Drawn.number {automaton : Automaton} (drawn : automaton.Drawn family) {kernel : List Item}
    (member : kernel ∈ family) :
    ∃ target next, automaton.number kernel = .ok (target, next) ∧ next.Drawn family := by
  unfold Automaton.number
  cases known : automaton.kernels.findIdx? (· == kernel) with
  | some state => exact ⟨state, automaton, rfl, drawn⟩
  | none =>
      have fresh : kernel ∉ automaton.kernels.toList := by
        intro old
        have away := Array.findIdx?_eq_none_iff.mp known kernel (Array.mem_toList_iff.mp old)
        simp at away
      have distinct : (kernel :: automaton.kernels.toList).Nodup := List.nodup_cons.mpr ⟨fresh, drawn.distinct⟩
      have among : ∀ other, other ∈ kernel :: automaton.kernels.toList → other ∈ family := by
        intro other listed
        rcases List.mem_cons.mp listed with rfl | old
        · exact member
        · exact drawn.among other old
      have room : automaton.kernels.size + 1 ≤ family.length := by
        simpa using distinct.length_le_of_subset among
      dsimp only
      rw [if_neg (by omega)]
      refine ⟨_, _, rfl, ?_, ?_⟩
      · rw [Array.toList_push]
        exact (List.perm_append_singleton kernel _).symm.nodup distinct
      · intro other listed
        rw [Array.toList_push] at listed
        exact among other ((List.perm_append_singleton kernel _).mem_iff.mp listed)

theorem Drawn.connect : ∀ (pairs : List (Symbol × List Item)) (edges : List (Symbol × Nat)) {automaton : Automaton},
    automaton.Drawn family → (∀ pair, pair ∈ pairs → pair.2 ∈ family) →
    ∃ after, Automaton.connect pairs edges automaton = .ok after ∧ after.Drawn family
  | [], edges, automaton, drawn, _among => ⟨_, rfl, drawn.distinct, drawn.among⟩
  | (symbol, kernel) :: rest, edges, automaton, drawn, among => by
      obtain ⟨target, next, numbered, further⟩ := drawn.number few (among _ List.mem_cons_self)
      obtain ⟨after, connected, last⟩ := Drawn.connect rest ((symbol, target) :: edges) further
        (fun pair member => among pair (List.mem_cons_of_mem _ member))
      refine ⟨after, ?_, last⟩
      unfold Automaton.connect
      rw [numbered]
      exact connected

variable {rules : Rules} (leads : ∀ kernel, kernel ∈ family → ∀ pair, pair ∈ successors rules kernel → pair.2 ∈ family)

include leads

theorem Drawn.explore : ∀ (rounds state : Nat) {automaton : Automaton}, automaton.Drawn family →
    ∃ after, Automaton.explore rules rounds state automaton = .ok after ∧ after.Drawn family
  | 0, state, automaton, drawn => ⟨automaton, rfl, drawn⟩
  | rounds + 1, state, automaton, drawn => by
      unfold Automaton.explore
      cases found : automaton.kernels[state]? with
      | none => exact ⟨automaton, rfl, drawn⟩
      | some kernel =>
          have member := drawn.among kernel (Array.mem_toList_iff.mpr (Array.mem_of_getElem? found))
          obtain ⟨next, connected, further⟩ := Drawn.connect few _ [] drawn (leads kernel member)
          obtain ⟨after, explored, last⟩ := Drawn.explore rounds (state + 1) further
          refine ⟨after, ?_, last⟩
          dsimp only
          rw [connected]
          exact explored

theorem exists_ofRules (begins : startKernel rules ∈ family) :
    ∃ automaton, ofRules rules = .ok automaton ∧ automaton.Drawn family := by
  apply Drawn.explore few leads
  constructor
  · exact List.nodup_singleton _
  · intro kernel only
    exact List.mem_singleton.mp only ▸ begins

end Automaton

/-! ### Modes -/

structure Modes.Drawn (family : List TerminalSet) (modes : Modes) : Prop where
  positive : 0 < modes.sets.size
  distinct : (modes.sets.toList.drop 1).Nodup
  among : ∀ set, set ∈ modes.sets.toList.drop 1 → set ∈ family

theorem Modes.Drawn.assign {family : List TerminalSet} (few : family.length < 65535) {modes : Modes}
    (drawn : modes.Drawn family) {row : Array Action} (member : admitted row ∈ family) :
    ∃ after, modes.assign row = .ok after ∧ after.Drawn family := by
  unfold Modes.assign
  dsimp only
  cases known : modes.number? (admitted row) with
  | some mode => exact ⟨_, rfl, drawn.positive, drawn.distinct, drawn.among⟩
  | none =>
      have fresh : admitted row ∉ modes.sets.toList.drop 1 := by
        intro old
        unfold Modes.number? at known
        have away := List.findIdx?_eq_none_iff.mp (Option.map_eq_none_iff.mp known) _ old
        simp at away
      have distinct := List.nodup_cons.mpr ⟨fresh, drawn.distinct⟩
      have among : ∀ set, set ∈ admitted row :: modes.sets.toList.drop 1 → set ∈ family := by
        intro set listed
        rcases List.mem_cons.mp listed with rfl | old
        · exact member
        · exact drawn.among set old
      have positive := drawn.positive
      have room : modes.sets.size ≤ family.length := by
        have bound := distinct.length_le_of_subset among
        rw [List.length_cons, List.length_drop, Array.length_toList] at bound
        omega
      have pushed : (modes.sets.push (admitted row)).toList.drop 1 = modes.sets.toList.drop 1 ++ [admitted row] := by
        rw [Array.toList_push, List.drop_append_of_le_length (by rw [Array.length_toList]; exact positive)]
      dsimp only
      rw [if_neg (by omega)]
      refine ⟨_, rfl, ?_, ?_, ?_⟩
      · rw [Array.size_push]
        omega
      · rw [pushed]
        exact (List.perm_append_singleton (admitted row) _).symm.nodup distinct
      · intro set listed
        rw [pushed] at listed
        exact among set ((List.perm_append_singleton (admitted row) _).mem_iff.mp listed)

theorem Modes.Drawn.assignAll {family : List TerminalSet} (few : family.length < 65535) :
    ∀ (rows : List SettledRow) {modes : Modes}, modes.Drawn family →
      (∀ row, row ∈ rows → admitted row.actions ∈ family) →
      ∃ after, rows.foldlM
        (fun modes row => (modes.assign row.actions : Except (Failure ConfigurationError) Modes)) modes = .ok after
  | [], modes, _drawn, _among => ⟨modes, rfl⟩
  | row :: rest, modes, drawn, among => by
      obtain ⟨next, assigned, further⟩ := drawn.assign few (among row List.mem_cons_self)
      obtain ⟨after, remaining⟩ := Modes.Drawn.assignAll few rest further
        (fun other member => among other (List.mem_cons_of_mem row member))
      refine ⟨after, ?_⟩
      rw [List.foldlM_cons, assigned]
      exact remaining

theorem admitted_congr {left right : Array Action}
    (same : left.map (fun action => decide (action = .error)) = right.map fun action => decide (action = .error)) :
    Modes.admitted left = Modes.admitted right := by
  have folds : ∀ (left right : List Action) (place : Nat) (set : TerminalSet),
      left.map (fun action => decide (action = Action.error)) = right.map (fun action => decide (action = .error)) →
      (left.zipIdx place).foldl
        (fun set entry => if entry.1 = .error then set else set.add (.ofIndex entry.2)) set =
      (right.zipIdx place).foldl
        (fun set entry => if entry.1 = .error then set else set.add (.ofIndex entry.2)) set := by
    intro left
    induction left with
    | nil =>
        intro right place set equal
        rw [List.map_eq_nil_iff.mp equal.symm]
    | cons first rest ih =>
        intro right place set equal
        cases right with
        | nil => cases equal
        | cons other others =>
            obtain ⟨head, tail⟩ := List.cons.inj equal
            rw [List.zipIdx_cons, List.zipIdx_cons, List.foldl_cons, List.foldl_cons, ih others _ _ tail]
            dsimp only
            rw [if_congr (decide_eq_decide.mp head) rfl rfl]
  have sizes := congrArg Array.size same
  rw [Array.size_map, Array.size_map] at sizes
  unfold Modes.admitted
  rw [← Array.foldl_toList, ← Array.foldl_toList, Array.toList_zipIdx, Array.toList_zipIdx, sizes]
  apply folds
  simpa using congrArg Array.toList same

/-! ### Tables -/

theorem dedup_length_lt {sets : List TerminalSet} {set : TerminalSet} {left right : Nat} (apart : left < right)
    (one : sets[left]? = some set) (two : sets[right]? = some set) : sets.dedup.length < sets.length := by
  have repeats : ¬ sets.Nodup := by
    intro distinct
    obtain ⟨inside, _⟩ := List.getElem?_eq_some_iff.mp one
    have same := (List.getElem?_inj inside distinct).mp (one.trans two.symm)
    omega
  rcases Nat.lt_or_ge sets.dedup.length sets.length with less | more
  · exact less
  · have whole := (List.dedup_sublist sets).eq_of_length_le more
    exact absurd (List.dedup_eq_self.mp whole) repeats

theorem sumOf_eq_zero : ∀ {numbers : List Nat}, (∀ number, number ∈ numbers → number = 0) → sumOf numbers = 0
  | [], _zero => rfl
  | number :: rest, zero => by
      rw [sumOf_cons, zero number List.mem_cons_self,
        sumOf_eq_zero fun other member => zero other (List.mem_cons_of_mem _ member)]

def RowAt (grammar : Grammar) (automaton : Automaton) (sets : Array TerminalSet) (state : Nat)
    (row : SettledRow) : Prop :=
  actionRow grammar state (claimsAt grammar automaton sets state) (automaton.edgesOf state) = .ok row

theorem exists_actionRows {grammar : Grammar} {automaton : Automaton} {sets : Array TerminalSet}
    (decided : ∀ state, state < automaton.kernels.size → (claimsAt grammar automaton sets state).Decided grammar) :
    ∃ rows, actionRows grammar (.ofGrammar grammar) (.ofConstruction (.ofGrammar grammar))
        (.ofAutomaton automaton) sets automaton = .ok rows ∧ rows.size = automaton.kernels.size ∧
      ∀ state, state < automaton.kernels.size →
        ∃ row, rows[state]? = some row ∧ RowAt grammar automaton sets state row ∧ row.conflicts = 0 := by
  have makes : ∀ state, state < automaton.kernels.size →
      ∃ row, RowAt grammar automaton sets state row ∧ row.conflicts = 0 :=
    fun state inside => exists_actionRow (decided state inside) state _
  obtain ⟨rows, settled⟩ := exists_mapM
    (fun state => actionRow grammar state (claimsAt grammar automaton sets state) (automaton.edgesOf state))
    (List.range automaton.kernels.size) (fun state member => by
      obtain ⟨row, made, _⟩ := makes state (List.mem_range.mp member)
      exact ⟨row, made⟩)
  obtain ⟨length, each⟩ := mapM_ok _ _ rows settled
  refine ⟨rows.toArray, ?_, by simpa using length, fun state inside => ?_⟩
  · unfold actionRows
    rw [Array.mapM_eq_mapM_toList, Array.toList_range]
    exact map_ok.mpr ⟨rows, settled, rfl⟩
  · obtain ⟨row, at_, made⟩ := each state state (List.getElem?_range inside)
    obtain ⟨other, madeToo, none⟩ := makes state inside
    cases made.symm.trans madeToo
    exact ⟨row, by simpa using at_, made, none⟩

theorem exists_compile_of_rows {grammar : Grammar} {automaton : Automaton} {sets : Array TerminalSet}
    {rows : Array SettledRow} (made : Automaton.ofRules (.ofGrammar grammar) = .ok automaton)
    (computed : lookaheads (.ofGrammar grammar) (.ofConstruction (.ofGrammar grammar)) (.ofAutomaton automaton)
      automaton = .ok sets)
    (rowsMade : actionRows grammar (.ofGrammar grammar) (.ofConstruction (.ofGrammar grammar))
      (.ofAutomaton automaton) sets automaton = .ok rows)
    (few : (rows.toList.map fun row => Modes.admitted row.actions).dedup.length < 65535) :
    ∃ table, compile grammar = .ok table ∧ table.conflicts = sumOf (rows.toList.map (·.conflicts)) := by
  have begun : Modes.Drawn (rows.toList.map fun row => Modes.admitted row.actions).dedup
      ⟨#[Modes.recovery grammar], #[]⟩ :=
    ⟨Nat.one_pos, List.nodup_nil, fun set none => absurd none List.not_mem_nil⟩
  obtain ⟨modes, assigned⟩ := begun.assignAll few rows.toList fun row member =>
    List.mem_dedup.mpr (List.mem_map.mpr ⟨row, member, rfl⟩)
  have same : Automaton.ofRules (Construction.ofGrammar grammar).rules = .ok automaton := made
  unfold compile
  dsimp only
  rw [same]
  exact ⟨_, bind_ok.mpr ⟨automaton, rfl, bind_ok.mpr ⟨sets, lift_ok.mpr computed, bind_ok.mpr ⟨rows, rowsMade,
    bind_ok.mpr ⟨modes, Array.foldlM_toList.symm.trans assigned, rfl⟩⟩⟩⟩, rfl⟩

/-- A table is made without a conflict when an automaton is made, precedence decides in every state, and two
of the states admit the same terminals. -/
theorem exists_compile {grammar : Grammar} (numbered : grammar.Numbered) (productive : grammar.unproductive? = none)
    {automaton : Automaton} (made : Automaton.ofRules (.ofGrammar grammar) = .ok automaton)
    (decided : ∀ sets state, state < automaton.kernels.size → (claimsAt grammar automaton sets state).Decided grammar)
    {left right : Nat} (apart : left < right) (inside : right < automaton.kernels.size)
    (shared : ∀ sets leftRow rightRow, RowAt grammar automaton sets left leftRow →
      RowAt grammar automaton sets right rightRow →
      Modes.admitted leftRow.actions = Modes.admitted rightRow.actions) :
    ∃ table, compile grammar = .ok table ∧ table.conflicts = 0 := by
  have explored := Automaton.ofRules_explored made
  obtain ⟨sets, arcs, computed, _⟩ := lookaheads_settled numbered productive explored
  obtain ⟨rows, rowsMade, size, rowOf⟩ := exists_actionRows (decided sets)
  have few : (rows.toList.map fun row => Modes.admitted row.actions).dedup.length < 65535 := by
    obtain ⟨leftRow, leftAt, leftMade, _⟩ := rowOf left (Nat.lt_trans apart inside)
    obtain ⟨rightRow, rightAt, rightMade, _⟩ := rowOf right inside
    have mode : ∀ {state : Nat} {row : SettledRow}, rows[state]? = some row →
        (rows.toList.map fun row => Modes.admitted row.actions)[state]? = some (Modes.admitted row.actions) := by
      intro state row found
      rw [List.getElem?_map, Array.getElem?_toList, found]
      rfl
    have shorter := dedup_length_lt apart (mode leftAt)
      ((mode rightAt).trans (congrArg some (shared sets leftRow rightRow leftMade rightMade).symm))
    have fits := explored.size_le
    unfold Automaton.stateLimit at fits
    rw [List.length_map] at shorter
    have length : rows.toList.length = automaton.kernels.size := size
    omega
  obtain ⟨table, compiled, conflicts⟩ := exists_compile_of_rows made computed rowsMade few
  refine ⟨table, compiled, conflicts.trans (sumOf_eq_zero ?_)⟩
  intro number member
  obtain ⟨row, listed, rfl⟩ := List.mem_map.mp member
  obtain ⟨state, below, at_⟩ := List.mem_iff_getElem.mp listed
  obtain ⟨other, found, _, none⟩ := rowOf state (size ▸ below)
  have here : rows[state]? = some row := by
    rw [← Array.getElem?_toList, List.getElem?_eq_getElem below, at_]
  cases here.symm.trans found
  exact none

end IncrementalParsing.Lalr
