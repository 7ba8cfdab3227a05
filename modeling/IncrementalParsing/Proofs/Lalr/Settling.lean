import IncrementalParsing.Proofs.Lalr.Modes

/-!
Chains of reductions. On a lookahead a table may reduce several times before it shifts, accepts or
reports an error. Whether such a chain ends for every path of the automaton is decided by the topmost
pairs of states alone: a chain that goes below a pair leaves a shorter path behind.
-/

namespace IncrementalParsing

namespace Table

/-- States of a stack from the top down, each the successor of the one below it. -/
inductive Path (table : Table) : List StateId → Prop
  | start : Path table [.start]
  | step {state next : StateId} {below : List StateId} {kind : KindId} : Path table (state :: below) →
      table.HasKind kind → table.successor state kind = some next → Path table (next :: state :: below)

def actionOn (table : Table) (terminal : KindId) (states : List StateId) : Action :=
  table.action (states.head?.getD .start) terminal

/-- What a reduction on a terminal makes of some states, if the table asks for one that does not go
below them. -/
def reduced? (table : Table) (terminal : KindId) (states : List StateId) : Option (List StateId) :=
  match table.actionOn terminal states with
  | .reduce id =>
      table.productions[id.index]?.bind fun production =>
        match states.drop production.length with
        | [] => none
        | top :: below => (table.goto top production.lhs).map (· :: top :: below)
  | _ => none

/-- A chain of reductions that ends, with the action at its end. -/
inductive Settles (table : Table) (terminal : KindId) : List StateId → Action → Prop
  | stop {states : List StateId} : table.reduced? terminal states = none →
      Settles table terminal states (table.actionOn terminal states)
  | step {states next : List StateId} {last : Action} : table.reduced? terminal states = some next →
      Settles table terminal next last → Settles table terminal states last

/-- No chain of reductions stays forever above a state that the automaton comes to. -/
structure Settling (table : Table) : Prop where
  first : ∀ terminal, table.isTerminal terminal = true → ∃ last, table.Settles terminal [.start] last
  pairs : ∀ next state below terminal, table.Path (next :: state :: below) →
    table.isTerminal terminal = true → ∃ last, table.Settles terminal [next, state] last

variable {table : Table} {terminal : KindId}

theorem actionOn_append {states : List StateId} (nonempty : states ≠ []) (below : List StateId) :
    table.actionOn terminal (states ++ below) = table.actionOn terminal states := by
  cases states with
  | nil => exact absurd rfl nonempty
  | cons top rest => rfl

theorem reduced?_eq_some {states next : List StateId} (reduced : table.reduced? terminal states = some next) :
    ∃ id production top below target, table.actionOn terminal states = .reduce id ∧
      table.productions[id.index]? = some production ∧
      states.drop production.length = top :: below ∧ table.goto top production.lhs = some target ∧
      next = target :: top :: below := by
  unfold reduced? at reduced
  split at reduced
  · rename_i id acts
    obtain ⟨production, found, reduced⟩ := Option.bind_eq_some_iff.mp reduced
    split at reduced
    · cases reduced
    · rename_i top below left
      obtain ⟨target, goes, same⟩ := Option.map_eq_some_iff.mp reduced
      exact ⟨id, production, top, below, target, acts, found, left, goes, same.symm⟩
  · cases reduced

theorem reduced?_of {states : List StateId} {id : ProductionId} {production : ProductionInfo}
    {top target : StateId} {below : List StateId}
    (acts : table.actionOn terminal states = .reduce id)
    (found : table.productions[id.index]? = some production)
    (left : states.drop production.length = top :: below)
    (goes : table.goto top production.lhs = some target) :
    table.reduced? terminal states = some (target :: top :: below) := by
  unfold reduced?
  rw [acts]
  dsimp only
  rw [found, Option.bind_some, left]
  dsimp only
  rw [goes]
  rfl

theorem reduced?_append {states next : List StateId} (below : List StateId)
    (reduced : table.reduced? terminal states = some next) :
    table.reduced? terminal (states ++ below) = some (next ++ below) := by
  obtain ⟨id, production, top, rest, target, acts, found, left, goes, same⟩ := reduced?_eq_some reduced
  have nonempty : states ≠ [] := by
    intro empty
    rw [empty, List.drop_nil] at left
    cases left
  have within : production.length ≤ states.length := by
    rcases Nat.le_total production.length states.length with low | high
    · exact low
    · rw [List.drop_of_length_le high] at left
      cases left
  rw [same]
  refine reduced?_of ((actionOn_append nonempty below).trans acts) found ?_ goes
  rw [List.drop_append_of_le_length within, left]
  rfl

/-- The chain above a part of the states belongs to the chain of all of them. -/
theorem Settles.of_append {below : List StateId} : ∀ {whole : List StateId} {last : Action},
    table.Settles terminal whole last → ∀ states : List StateId, states ++ below = whole →
    ∃ last, table.Settles terminal states last := by
  intro whole last settles
  induction settles with
  | stop ended =>
      intro states same
      cases reduced : table.reduced? terminal states with
      | none => exact ⟨_, .stop reduced⟩
      | some next =>
          have more := reduced?_append below reduced
          rw [same, ended] at more
          cases more
  | step stepped _ ih =>
      intro states same
      cases reduced : table.reduced? terminal states with
      | none => exact ⟨_, .stop reduced⟩
      | some next =>
          have more := reduced?_append below reduced
          rw [same, stepped] at more
          obtain ⟨last, settles⟩ := ih next (Option.some.inj more).symm
          exact ⟨last, .step reduced settles⟩

theorem Path.drop : ∀ {states : List StateId}, table.Path states → ∀ (count : Nat) {top : StateId}
    {below : List StateId}, states.drop count = top :: below → table.Path (top :: below)
  | _, .start, 0, _, _, same => by
      cases same
      exact .start
  | _, .start, _ + 1, _, _, same => by
      rw [List.drop_succ_cons, List.drop_nil] at same
      cases same
  | _, .step path known reached, 0, _, _, same => by
      cases same
      exact .step path known reached
  | _, .step path _ _, count + 1, _, _, same => path.drop count same

section Charted

variable {items : StateId → Lalr.Item → Prop} (numbered : table.Numbered) (chart : table.Chart items)

include chart

theorem Path.viable : ∀ {states : List StateId}, table.Path states → ∀ (production dot : Nat),
    items (states.head?.getD .start) ⟨production, dot⟩ →
    ∃ top below, states.drop dot = top :: below ∧ items top ⟨production, 0⟩
  | _, .start, production, dot, member => by
      have beginning : dot = 0 := chart.start_dot _ member
      subst beginning
      exact ⟨_, _, rfl, member⟩
  | _, .step _ _ _, production, 0, member => ⟨_, _, rfl, member⟩
  | _, .step path known reached, production, dot + 1, member => by
      obtain ⟨lower, _⟩ := chart.before _ _ _ _ known reached member (Nat.succ_pos dot)
      obtain ⟨top, below, left, begun⟩ := path.viable production dot lower
      exact ⟨top, below, left, begun⟩

include numbered

theorem Path.reduces {states : List StateId} (path : table.Path states) {id : ProductionId}
    (isTerminal : table.isTerminal terminal = true)
    (acts : table.actionOn terminal states = .reduce id) :
    ∃ production top below target, table.productions[id.index]? = some production ∧
      states.drop production.length = top :: below ∧ table.goto top production.lhs = some target ∧
      table.Path (target :: top :: below) := by
  obtain ⟨item, production, member, number, done, found⟩ := chart.reduces _ _ _ isTerminal acts
  have rhs : table.rhs item.production = production.symbols.map table.symbolKind := by
    unfold Table.rhs
    rw [number, found]
  have whole : item.dot = production.length := by
    have atEnd : (table.rhs item.production).length ≤ item.dot := List.getElem?_eq_none_iff.mp done
    have bound := (chart.dot_le _ _ member).2
    rw [rhs, List.length_map] at atEnd bound
    exact Nat.le_antisymm bound atEnd
  obtain ⟨top, below, left, begun⟩ := path.viable chart item.production item.dot member
  rw [number] at begun
  rw [whole] at left
  obtain ⟨waiting, here, due⟩ := chart.begun _ _ _ found begun
  have lhs := numbered.lhs production (Array.mem_of_getElem? found)
  obtain ⟨target, goes⟩ := chart.goes _ _ _ here due lhs.1
  refine ⟨production, top, below, target, found, left, goes, .step (path.drop _ left) lhs.2 ?_⟩
  unfold Table.successor
  rw [lhs.1]
  exact goes

theorem Path.reduced?_none {states : List StateId} (path : table.Path states)
    (isTerminal : table.isTerminal terminal = true) (ended : table.reduced? terminal states = none)
    (id : ProductionId) : table.actionOn terminal states ≠ .reduce id := by
  intro acts
  obtain ⟨production, top, below, target, found, left, goes, _⟩ :=
    path.reduces numbered chart isTerminal acts
  rw [reduced?_of acts found left goes] at ended
  cases ended

theorem Path.reduced? {states next : List StateId} (path : table.Path states)
    (isTerminal : table.isTerminal terminal = true)
    (reduced : table.reduced? terminal states = some next) : table.Path next := by
  obtain ⟨id, production, top, below, target, acts, found, left, goes, same⟩ := reduced?_eq_some reduced
  obtain ⟨other, top', below', target', found', left', goes', after⟩ :=
    path.reduces numbered chart isTerminal acts
  cases found.symm.trans found'
  cases left.symm.trans left'
  cases goes.symm.trans goes'
  exact same ▸ after

theorem Settles.last_ne {states : List StateId} {last : Action}
    (settles : table.Settles terminal states last) (path : table.Path states)
    (isTerminal : table.isTerminal terminal = true) (id : ProductionId) : last ≠ .reduce id := by
  induction settles with
  | stop ended => exact path.reduced?_none numbered chart isTerminal ended id
  | step reduced _ ih => exact ih (path.reduced? numbered chart isTerminal reduced)

/-- Chains end on every path if they end above every pair of states. The induction on the length of
the path covers the chains that go below a pair. -/
theorem Settling.settles (settling : table.Settling) (isTerminal : table.isTerminal terminal = true) :
    ∀ (bound : Nat) (states : List StateId), states.length ≤ bound → table.Path states →
      ∃ last, table.Settles terminal states last
  | 0, states, small, path => by
      cases path <;> simp at small
  | bound + 1, states, small, path => by
      cases path with
      | start => exact settling.first terminal isTerminal
      | @step state next below kind lower known reached =>
          obtain ⟨end_, above⟩ := settling.pairs next state below terminal (.step lower known reached) isTerminal
          have onward : ∀ {upper : List StateId} {last : Action}, table.Settles terminal upper last →
              upper ≠ [] → table.Path (upper ++ below) →
              ∃ last, table.Settles terminal (upper ++ below) last := by
            intro upper last chain
            induction chain with
            | @stop upper ended =>
                intro nonempty path
                cases reduced : table.reduced? terminal (upper ++ below) with
                | none => exact ⟨_, .stop reduced⟩
                | some after =>
                    obtain ⟨id, production, top, rest, target, acts, found, left, goes, same⟩ :=
                      reduced?_eq_some reduced
                    have beyond : upper.length ≤ production.length := by
                      rcases Nat.lt_or_ge production.length upper.length with inside | outside
                      · rw [List.drop_append_of_le_length (Nat.le_of_lt inside)] at left
                        obtain ⟨first, others, shape⟩ := List.exists_cons_of_length_pos
                          (show 0 < (upper.drop production.length).length by
                            rw [List.length_drop]
                            omega)
                        rw [shape] at left
                        cases left
                        have here := reduced?_of ((actionOn_append nonempty below).symm.trans acts) found
                          shape goes
                        rw [ended] at here
                        cases here
                      · exact outside
                    have shorter : after.length ≤ bound := by
                      have length := congrArg List.length left
                      rw [List.length_drop, List.length_append, List.length_cons] at length
                      rw [same, List.length_cons, List.length_cons]
                      simp only [List.length_cons] at small
                      omega
                    obtain ⟨last, settles⟩ := settling.settles isTerminal bound after shorter
                      (path.reduced? numbered chart isTerminal reduced)
                    exact ⟨last, .step reduced settles⟩
            | step stepped _ ih =>
                intro nonempty path
                have reduced := reduced?_append below stepped
                obtain ⟨_, _, _, _, _, _, _, _, _, same⟩ := reduced?_eq_some stepped
                obtain ⟨last, settles⟩ := ih (by rw [same]; exact List.cons_ne_nil _ _)
                  (path.reduced? numbered chart isTerminal reduced)
                exact ⟨last, .step reduced settles⟩
          exact onward above (List.cons_ne_nil _ _) (.step lower known reached)

theorem settling_iff : table.Settling ↔ ∀ states terminal, table.Path states →
    table.isTerminal terminal = true → ∃ last, table.Settles terminal states last := by
  constructor
  · intro settling states terminal path isTerminal
    exact settling.settles numbered chart isTerminal states.length states (Nat.le_refl _) path
  · intro settles
    refine ⟨fun terminal isTerminal => settles _ terminal .start isTerminal, ?_⟩
    intro next state below terminal path isTerminal
    obtain ⟨last, whole⟩ := settles _ terminal path isTerminal
    exact whole.of_append [next, state] rfl

end Charted

/-! ### Looking for endless chains -/

/-- Whether a chain of reductions ends within some steps. -/
def settlesWithin (table : Table) (terminal : KindId) : Nat → List StateId → Bool
  | 0, _ => false
  | fuel + 1, states =>
      match table.reduced? terminal states with
      | none => true
      | some next => table.settlesWithin terminal fuel next

/-- Whether the chains above all pairs of states end within some steps. -/
def settlingWithin (table : Table) (fuel : Nat) : Bool :=
  (List.range table.terminalCount).all fun terminal =>
    table.settlesWithin (.ofIndex terminal) fuel [.start] &&
      (List.range table.stateCount).all fun state => (List.range table.kinds.size).all fun kind =>
        match table.successor (.ofIndex state) (.ofIndex kind) with
        | none => true
        | some next => table.settlesWithin (.ofIndex terminal) fuel [next, .ofIndex state]

theorem settles_of_within : ∀ (fuel : Nat) (states : List StateId),
    table.settlesWithin terminal fuel states = true → ∃ last, table.Settles terminal states last
  | 0, _, within => by cases within
  | fuel + 1, states, within => by
      unfold settlesWithin at within
      cases reduced : table.reduced? terminal states with
      | none => exact ⟨_, .stop reduced⟩
      | some next =>
          rw [reduced] at within
          obtain ⟨last, settles⟩ := settles_of_within fuel next within
          exact ⟨last, .step reduced settles⟩

theorem StateId_ofIndex_index (state : StateId) : StateId.ofIndex state.index = state := by
  cases state with | mk raw => simp [StateId.index, StateId.ofIndex]

theorem settling_of_within (framed : table.Framed) (fuel : Nat) (within : table.settlingWithin fuel = true) :
    table.Settling := by
  have each : ∀ terminal, table.isTerminal terminal = true →
      table.settlesWithin terminal fuel [.start] = true ∧
      ∀ state kind next, state.index < table.stateCount → table.HasKind kind →
        table.successor state kind = some next → table.settlesWithin terminal fuel [next, state] = true := by
    intro terminal isTerminal
    have bound : terminal.index < table.terminalCount := of_decide_eq_true isTerminal
    have here := List.all_eq_true.mp within terminal.index (List.mem_range.mpr bound)
    rw [KindId.ofIndex_index, Bool.and_eq_true] at here
    refine ⟨here.1, ?_⟩
    intro state kind next stateLt known reached
    have states := List.all_eq_true.mp here.2 state.index (List.mem_range.mpr stateLt)
    have kinds := List.all_eq_true.mp states kind.index (List.mem_range.mpr known)
    rw [StateId_ofIndex_index, KindId.ofIndex_index, reached] at kinds
    exact kinds
  refine ⟨fun terminal isTerminal => settles_of_within fuel _ (each terminal isTerminal).1, ?_⟩
  intro next state below terminal path isTerminal
  cases path with
  | step _ known reached =>
      exact settles_of_within fuel _
        ((each terminal isTerminal).2 _ _ _ (framed.state_lt reached) known reached)

end Table

end IncrementalParsing
