import IncrementalParsing.Proofs.Lalr.Complete
import IncrementalParsing.Proofs.Operators.States

/-!
Runs over chains of operators. Where an operand ends, the pending operator is reduced or the next one is
shifted, as their levels and sides say. So a run over a chain makes the reductions of the tree that the chain
is read as.
-/

namespace IncrementalParsing.Operators

open Lalr

variable {operators : Operators} {grammar : Grammar} {table : Table}

variable (operators) in
def Follower (terminal : KindId) : Prop :=
  terminal = .endOfInput ∨ ∃ index : operators.Index, terminal = operators.kind index

/-! ### Actions -/

section Actions

variable (normal : operators.Normal grammar) {compiled : Compiled grammar table} {state : StateId}
  {front : List Symbol} (leads : compiled.automaton.Leads front state.index) {pending : Option operators.Index}
  {terminal : KindId}

include normal

theorem Normal.action_before
    (found : compiled.automaton.kernels[state.index]? = some (Place.before pending).kernel) :
    ∃ target, table.action state operandKind = .shift target := by
  obtain ⟨target, _, acts⟩ := compiled.action_shifts normal.numbered found
    (normal.mem_closure_before.mpr (Or.inr (Or.inr rfl))) (normal.next_operand 0)
    fun number claimed => nomatch (normal.reducing_before found).symm.trans claimed
  exact ⟨_, acts⟩

include leads

theorem Normal.action_operand
    (found : compiled.automaton.kernels[state.index]? = some (Place.operand : operators.Place).kernel)
    (canonical : Canonical grammar front ⟨operators.list.length, 1⟩ terminal) :
    table.action state terminal = .reduce (.ofIndex operators.list.length) := by
  have inside := (Array.getElem?_eq_some_iff.mp found).1
  have claims := @Normal.claims_operand _ _ normal _ compiled.sets _ found terminal
  have size := normal.size
  cases claimed : (compiled.claims state.index).reducing terminal.index with
  | none =>
      exact absurd claimed
        (compiled.reducing_ne_none normal.numbered normal.productive leads canonical (normal.next_operand 1))
  | some number =>
      cases claims.1 number claimed
      have acts := compiled.action_reduces inside (canonical.terminal_lt normal.numbered) claimed
        fun low high competes => nomatch claims.2.symm.trans competes
      unfold reduction at acts
      rwa [if_pos (by omega)] at acts

theorem Normal.action_closes {last : operators.Index}
    (found : compiled.automaton.kernels[state.index]? = some (Place.after (some last)).kernel)
    (canonical : Canonical grammar front ⟨last, 3⟩ terminal)
    (closes : ∀ index, terminal = operators.kind index → operators.Closes last index) :
    table.action state terminal = .reduce (.ofIndex last) := by
  have inside := (Array.getElem?_eq_some_iff.mp found).1
  have size := normal.size
  have below := last.isLt
  cases claimed : (compiled.claims state.index).reducing terminal.index with
  | none =>
      exact absurd claimed
        (compiled.reducing_ne_none normal.numbered normal.productive leads canonical (normal.next_production last 3))
  | some number =>
      cases normal.reducing_after found claimed
      have acts := compiled.action_reduces inside (canonical.terminal_lt normal.numbered) claimed
        fun low high competes => by
          obtain ⟨index, same, rfl, rfl⟩ := normal.shifting_after found competes
          exact ⟨_, normal.production_eq last, (resolve_eq last index).trans (if_pos (closes index same))⟩
      change _ = reduction grammar last at acts
      unfold reduction at acts
      rwa [if_pos (by omega)] at acts

theorem Normal.action_opens {index : operators.Index}
    (found : compiled.automaton.kernels[state.index]? = some (Place.after pending).kernel)
    (canonical : Canonical grammar front ⟨index, 1⟩ terminal)
    (opens : ∀ last, pending = some last → operators.Opens last index) :
    ∃ target, table.action state (operators.kind index) = .shift target := by
  have size := normal.size
  have next := normal.next_production index 1
  obtain ⟨target, _, acts⟩ := compiled.action_shifts normal.numbered found
    (normal.mem_closure_after.mpr (Or.inr ⟨index, rfl⟩)) next fun number claimed => by
      cases normal.reducing_after found claimed
      cases shifts : (compiled.claims state.index).shifting (operators.kind index).index with
      | none =>
          exact absurd shifts (compiled.shifting_ne_none normal.numbered normal.productive leads canonical next)
      | some range =>
          obtain ⟨other, same, low, high⟩ := normal.shifting_after found shifts
          cases kind_injective same
          refine ⟨range.1, range.2, rfl, fun production known => ?_⟩
          rw [low, high]
          cases pending with
          | none =>
              have bound := (Array.getElem?_eq_some_iff.mp known).1
              change operators.list.length + 1 < _ at bound
              omega
          | some last =>
              cases (normal.production_eq last).symm.trans known
              rw [resolve_eq, if_neg (opens_iff_not_closes.mp (opens last rfl))]
              exact fun impossible => nomatch impossible
  exact ⟨_, acts⟩

theorem Normal.action_whole
    (found : compiled.automaton.kernels[state.index]? = some (Place.after (none : Option operators.Index)).kernel)
    (canonical : Canonical grammar front ⟨operators.list.length + 1, 1⟩ .endOfInput) :
    table.action state .endOfInput = .accept := by
  have inside := (Array.getElem?_eq_some_iff.mp found).1
  have size := normal.size
  cases claimed : (compiled.claims state.index).reducing KindId.endOfInput.index with
  | none =>
      exact absurd claimed
        (compiled.reducing_ne_none normal.numbered normal.productive leads canonical (normal.next_augmented 1))
  | some number =>
      cases normal.reducing_after found claimed
      have acts := compiled.action_reduces inside (canonical.terminal_lt normal.numbered) claimed
        fun low high competes => by
          obtain ⟨index, same, _⟩ := normal.shifting_after found competes
          exact absurd same (endOfInput_ne index)
      change _ = reduction grammar (operators.list.length + 1) at acts
      unfold reduction at acts
      rwa [if_neg (by omega)] at acts

end Actions

/-! ### Where an expression is due -/

section Rest

variable (normal : operators.Normal grammar)

include normal

theorem Normal.rest_production (index : operators.Index) (dot : Nat) :
    (Rules.ofGrammar grammar).rest ⟨index, dot⟩ =
      ([.nonterminal Grammar.start, .terminal (operators.kind index), .nonterminal Grammar.start] :
        List Symbol).drop (dot + 1) := by
  unfold Rules.rest
  rw [Rules.rhs_production grammar (normal.production_eq index)]
  rfl

theorem Normal.rest_seed (pending : Option operators.Index) : (Rules.ofGrammar grammar).rest (seed pending) = [] := by
  cases pending with
  | none =>
      unfold Rules.rest seed
      rw [← normal.size, Rules.rhs_augmented]
      rfl
  | some index => exact normal.rest_production index 2

end Rest

/-- A run is where an expression is due. What may follow the expression follows whatever it is an operand of. -/
structure Due (operators : Operators) (compiled : Compiled grammar table) (states : List StateId)
    (stack : List Symbol) (pending : Option operators.Index) : Prop where
  spells : compiled.Spells states stack
  place : compiled.automaton.kernels[(states.head?.getD .start).index]? = some (Place.before pending).kernel
  seeded : ∀ terminal, operators.Follower terminal → (pending = none → terminal = .endOfInput) →
    Canonical grammar stack.reverse (seed pending) terminal

def Passes (compiled : Compiled grammar table) (states : List StateId) (stack : List Symbol)
    (first : Table.Configuration) (ids : List ProductionId) (coming : List KindId) : Prop :=
  ∃ next position trace, compiled.Spells (next :: states) (.nonterminal Grammar.start :: stack) ∧
    table.Performs first ids ⟨next :: states, coming, position, trace⟩

section Due

variable (normal : operators.Normal grammar) {compiled : Compiled grammar table} {states : List StateId}
  {stack : List Symbol} {pending : Option operators.Index} {coming : List KindId} {position : Nat}
  {trace : List Table.Reduction}

include normal

theorem Normal.place_of_push {next : StateId} {symbol : Symbol} {place other : operators.Place}
    (found : compiled.automaton.kernels[(states.head?.getD .start).index]? = some place.kernel)
    (step : place.Step symbol other) (spells : compiled.Spells (next :: states) (symbol :: stack)) :
    compiled.automaton.kernels[((next :: states).head?.getD .start).index]? = some other.kernel := by
  cases spells with
  | push _ within reached =>
      obtain ⟨_, passed, _, edge, same⟩ :=
        compiled.successor_edge (compiled.hasKind normal.numbered within) reached
      obtain ⟨target, goes, at_⟩ := normal.step_of_edge compiled.explored found edge
      obtain ⟨_, _, behind⟩ := @Place.Step.exists_item _ _ normal _ _ _ goes
      cases symbolKind_injective normal.numbered (nextSymbol_within normal.numbered behind).2 within same
      cases step.unique goes
      exact at_

theorem Due.start : Due operators compiled [] [] none where
  spells := .start
  place := normal.startKernel_eq ▸ compiled.explored.first
  seeded terminal _ ends := by
    rw [ends rfl]
    refine .kernel ⟨?_, rfl⟩
    rw [Rules.augmented_ofGrammar, normal.size]
    rfl

variable (due : Due operators compiled states stack pending)

include due

theorem Due.begins {number : Nat} (le : number ≤ operators.list.length) {terminal : KindId}
    (follower : operators.Follower terminal) : Canonical grammar stack.reverse ⟨number, 0⟩ terminal := by
  have last : ∀ number, number ≤ operators.list.length →
      Canonical grammar stack.reverse ⟨number, 0⟩ .endOfInput := by
    intro number le
    apply (due.seeded .endOfInput (Or.inl rfl) fun _ => rfl).start (normal.next_seed pending)
      (normal.mem_productionsOf.mpr le)
    rw [normal.rest_seed]
    exact Grammar.firstOf_iff.mpr (Or.inr ⟨.refl, rfl⟩)
  rcases follower with rfl | ⟨index, rfl⟩
  · exact last number le
  · apply (last index (Nat.le_of_lt index.isLt)).start (normal.next_production index 0)
      (normal.mem_productionsOf.mpr le)
    rw [normal.rest_production]
    exact Grammar.firstOf_iff.mpr (Or.inl ⟨_, .refl⟩)

theorem Due.reduces {first : Table.Configuration} {ids : List ProductionId} {after : List StateId} {number : Nat}
    {production : Production} (found : grammar.productions[number]? = some production)
    (made : production.lhs = Grammar.start) (left : after.drop production.symbols.length = states)
    (spells : compiled.Spells after (production.symbols.reverse ++ stack))
    (performs : table.Performs first ids ⟨after, coming, position, trace⟩)
    (acts : table.action (after.head?.getD .start) (coming.head?.getD .endOfInput) = .reduce (.ofIndex number)) :
    Passes compiled states stack first (ids ++ [.ofIndex number]) coming := by
  have few := @length_lt operators
  have size := normal.size
  have next := normal.next_seed pending
  rw [← made] at next
  obtain ⟨target, spelled, stepped⟩ := @Compiled.Spells.reduces grammar table compiled normal.numbered _ _ _ _ coming
    position trace (by omega) _ _ found spells (due.seeded .endOfInput (Or.inl rfl) fun _ => rfl) next acts
  rw [left, made] at spelled
  rw [left] at stepped
  exact ⟨target, _, _, spelled, performs.reduce acts stepped⟩

theorem Due.operand (follower : operators.Follower (coming.head?.getD .endOfInput)) :
    Passes compiled states stack ⟨states, operandKind :: coming, position, trace⟩
      [.ofIndex operators.list.length] coming := by
  obtain ⟨target, shifts⟩ := normal.action_before due.place
  have next : (Rules.ofGrammar grammar).nextSymbol ⟨operators.list.length, 0⟩ = some (.terminal operandKind) :=
    normal.next_operand 0
  have pushed := due.spells.shifts (nextSymbol_within normal.numbered next).2 shifts
  have place := normal.place_of_push due.place (.operand pending) pushed
  have complete := (due.begins normal (Nat.le_refl _) follower).advance next
  rw [← List.reverse_cons] at complete
  have reduces := normal.action_operand (pushed.leads normal.numbered) place complete
  have performs : table.Performs ⟨states, operandKind :: coming, position, trace⟩ []
      ⟨target :: states, coming, position + 1, trace⟩ :=
    .shift .refl shifts (@Table.runStep_shifted table ⟨states, operandKind :: coming, position, trace⟩ _ shifts)
  exact due.reduces normal normal.operand_eq rfl rfl pushed performs reduces

theorem Due.operator {left : StateId} (spells : compiled.Spells (left :: states) (.nonterminal Grammar.start :: stack))
    {index : operators.Index} (opens : ∀ last, pending = some last → operators.Opens last index) :
    ∃ target, Due operators compiled (target :: left :: states)
        (.terminal (operators.kind index) :: .nonterminal Grammar.start :: stack) (some index) ∧
      table.Performs ⟨left :: states, operators.kind index :: coming, position, trace⟩ []
        ⟨target :: left :: states, coming, position + 1, trace⟩ := by
  have place := normal.place_of_push due.place (.expression pending) spells
  have begun : ∀ terminal, operators.Follower terminal →
      Canonical grammar (Symbol.nonterminal Grammar.start :: stack).reverse ⟨index, 1⟩ terminal := by
    intro terminal follower
    rw [List.reverse_cons]
    exact (due.begins normal (Nat.le_of_lt index.isLt) follower).advance (normal.next_production index 0)
  obtain ⟨target, shifts⟩ := normal.action_opens (spells.leads normal.numbered) place
    (begun .endOfInput (Or.inl rfl)) opens
  have next := normal.next_production index 1
  have pushed := spells.shifts (nextSymbol_within normal.numbered next).2 shifts
  have stepped := @Table.runStep_shifted table
    ⟨left :: states, operators.kind index :: coming, position, trace⟩ _ shifts
  refine ⟨target, ⟨pushed, normal.place_of_push place (.operator pending index) pushed, ?_⟩,
    .shift .refl shifts stepped⟩
  intro terminal follower _
  rw [List.reverse_cons]
  exact (begun terminal follower).advance next

theorem Due.closes {left middle right : StateId} {index : operators.Index} {first : Table.Configuration}
    {ids : List ProductionId}
    (later : Due operators compiled (middle :: left :: states)
      (.terminal (operators.kind index) :: .nonterminal Grammar.start :: stack) (some index))
    (spells : compiled.Spells (right :: middle :: left :: states)
      (.nonterminal Grammar.start :: .terminal (operators.kind index) :: .nonterminal Grammar.start :: stack))
    (performs : table.Performs first ids ⟨right :: middle :: left :: states, coming, position, trace⟩)
    (follower : operators.Follower (coming.head?.getD .endOfInput))
    (closes : ∀ next, coming.head?.getD .endOfInput = operators.kind next → operators.Closes index next) :
    Passes compiled states stack first (ids ++ [.ofIndex index]) coming := by
  have place := normal.place_of_push later.place (.expression (some index)) spells
  have complete := (((due.begins normal (Nat.le_of_lt index.isLt) follower).advance
    (normal.next_production index 0)).advance (normal.next_production index 1)).advance
    (normal.next_production index 2)
  rw [← List.reverse_cons, ← List.reverse_cons, ← List.reverse_cons] at complete
  have reduces := normal.action_closes (spells.leads normal.numbered) place complete closes
  exact due.reduces normal (normal.production_eq index) rfl rfl spells performs reduces

end Due

/-! ### Runs over chains -/

variable (operators) in
/-- A chain of operators with operands between them. -/
def word : List operators.Index → List KindId
  | [] => [operandKind]
  | index :: rest => operandKind :: operators.kind index :: word rest

theorem word_append (index : operators.Index) (right : List operators.Index) : ∀ left : List operators.Index,
    operators.word (left ++ index :: right) = operators.word left ++ operators.kind index :: operators.word right
  | [] => rfl
  | other :: rest => congrArg (operandKind :: operators.kind other :: ·) (word_append index right rest)

def reductions : Grouping operators.Index → List ProductionId
  | .operand => [.ofIndex operators.list.length]
  | .binary index left right => reductions left ++ reductions right ++ [.ofIndex index]

/-- A run passes a tree that is grouped as levels and sides say, where the pending operator opens for the tree
and the tree closes for what follows. -/
theorem Due.tree (normal : operators.Normal grammar) {compiled : Compiled grammar table}
    {tree : Grouping operators.Index} (grouped : operators.Grouped tree) {states : List StateId}
    {stack : List Symbol} {pending : Option operators.Index} (due : Due operators compiled states stack pending)
    (opens : ∀ last root, pending = some last → tree.root? = some root → operators.Opens last root)
    (coming : List KindId) (follower : operators.Follower (coming.head?.getD .endOfInput))
    (closes : ∀ root next, tree.root? = some root → coming.head?.getD .endOfInput = operators.kind next →
      operators.Closes root next) (position : Nat) (trace : List Table.Reduction) :
    Passes compiled states stack ⟨states, operators.word tree.chain ++ coming, position, trace⟩ (reductions tree)
      coming := by
  induction tree generalizing states stack pending coming position trace with
  | operand => exact due.operand normal follower
  | binary index left right leftIh rightIh =>
      obtain ⟨leftCloses, rightOpens, leftGrouped, rightGrouped⟩ := grouped
      change Passes compiled states stack
        ⟨states, operators.word (left.chain ++ index :: right.chain) ++ coming, position, trace⟩
        (reductions left ++ reductions right ++ [.ofIndex index]) coming
      rw [word_append, List.append_assoc, List.cons_append]
      obtain ⟨before, place, notes, leftSpells, leftPerforms⟩ := leftIh leftGrouped due
        (fun last root waits found => (opens last index waits rfl).of_closes (leftCloses root found))
        (operators.kind index :: (operators.word right.chain ++ coming)) (Or.inr ⟨index, rfl⟩)
        (fun root next found comes => kind_injective comes ▸ leftCloses root found) position trace
      obtain ⟨middle, later, shifts⟩ := due.operator normal leftSpells fun last waits => opens last index waits rfl
      obtain ⟨behind, _, _, rightSpells, rightPerforms⟩ := rightIh rightGrouped later
        (fun last root waits found => Option.some.inj waits ▸ rightOpens root found) coming follower
        (fun root next found comes => (closes index next rfl comes).of_opens (rightOpens root found)) (place + 1) notes
      have performs := (leftPerforms.trans shifts).trans rightPerforms
      rw [List.append_nil] at performs
      exact due.closes normal later rightSpells performs follower fun next comes => closes index next rfl comes

/-! ### Trees of reductions -/

variable (operators) in
/-- What a reduction makes of the trees that were made before, the latest one first. -/
def build (stack : List (Grouping operators.Index)) (id : ProductionId) : Option (List (Grouping operators.Index)) :=
  if below : id.index < operators.list.length then
    match stack with
    | right :: left :: rest => some (.binary ⟨id.index, below⟩ left right :: rest)
    | _ => none
  else if id.index = operators.list.length then some (.operand :: stack)
  else none

theorem foldlM_reductions : ∀ (tree : Grouping operators.Index) (stack : List (Grouping operators.Index)),
    (reductions tree).foldlM operators.build stack = some (tree :: stack)
  | .operand, stack => by
      have few := @length_lt operators
      have index : (ProductionId.ofIndex operators.list.length).index = operators.list.length :=
        ProductionId.index_ofIndex (by omega)
      unfold reductions build
      simp [index]
  | .binary operator left right, stack => by
      have few := @length_lt operators
      have below := operator.isLt
      have index : (ProductionId.ofIndex operator).index = operator := ProductionId.index_ofIndex (by omega)
      unfold reductions
      rw [List.foldlM_append, List.foldlM_append, foldlM_reductions left]
      change (List.foldlM operators.build (left :: stack) (reductions right)).bind _ = _
      rw [foldlM_reductions right]
      unfold build
      simp [index, below]

/-- A run accepts a word, and its reductions build a tree. -/
def Builds (operators : Operators) (table : Table) (input : List KindId) (tree : Grouping operators.Index) : Prop :=
  ∃ ids last trace, table.Performs (.initial input) ids last ∧
    table.runStep last = .ok (.inr (.accepted trace)) ∧ ids.foldlM operators.build [] = some [tree]

theorem Builds.accepted {input : List KindId} {tree : Grouping operators.Index}
    (builds : operators.Builds table input tree) :
    ∃ steps trace, ∀ fuel, steps ≤ fuel → table.runFrom fuel (.initial input) = .ok (.accepted trace) := by
  obtain ⟨_, _, trace, performs, stops, _⟩ := builds
  obtain ⟨steps, enough⟩ := performs.reaches.runFrom stops
  exact ⟨steps, trace, enough⟩

/-- Every tree that is grouped as levels and sides say is built by the run over its chain. -/
theorem Normal.builds (normal : operators.Normal grammar) (compiled : Compiled grammar table)
    {tree : Grouping operators.Index} (grouped : operators.Grouped tree) :
    operators.Builds table (operators.word tree.chain) tree := by
  have due : Due operators compiled [] [] none := .start normal
  obtain ⟨next, position, trace, spells, performs⟩ := due.tree normal grouped
    (fun _ _ impossible => nomatch impossible) [] (Or.inl rfl)
    (fun _ other _ same => absurd same (endOfInput_ne other)) 0 []
  rw [List.append_nil] at performs
  have place := normal.place_of_push due.place (.expression none) spells
  have whole := (due.seeded .endOfInput (Or.inl rfl) fun _ => rfl).advance (normal.next_seed none)
  have acts := normal.action_whole (spells.leads normal.numbered) place whole
  exact ⟨_, _, _, performs, @Table.runStep_accepted table ⟨[next], [], position, trace⟩ acts, foldlM_reductions tree []⟩

/-- Levels and sides decide everything: a table is made without a conflict. It accepts every chain, and what its
reductions build is the one tree of the chain that is grouped as levels and sides say. -/
theorem table_groups (operators : Operators) (name : String) :
    ∃ table, (operators.declaration name).compile = .ok table ∧ table.conflicts = 0 ∧
      ∀ chain : List operators.Index,
        (∃ steps trace, ∀ fuel, steps ≤ fuel →
          table.runFrom fuel (.initial (operators.word chain)) = .ok (.accepted trace)) ∧
        ∃ tree, (∀ other, other.chain = chain ∧ operators.Grouped other ↔ other = tree) ∧
          operators.Builds table (operators.word chain) tree := by
  obtain ⟨grammar, normalized, normal⟩ := exists_normal operators name
  obtain ⟨table, made, free⟩ := normal.exists_compile
  obtain ⟨compiled⟩ := compile_ok made
  refine ⟨table, ?_, free, fun chain => ?_⟩
  · unfold Declaration.compile
    rw [normalized, ok_bind]
    exact made
  · have builds := normal.builds compiled (grouped_group chain)
    rw [chain_group] at builds
    refine ⟨builds.accepted, operators.group chain, fun other => ?_, builds⟩
    constructor
    · rintro ⟨rfl, grouped⟩
      exact grouped_iff.mp grouped
    · rintro rfl
      exact ⟨chain_group chain, grouped_group chain⟩

/-! ### Arithmetic -/

def arithmetic : Operators where
  list := [⟨"+", 1, .left⟩, ⟨"-", 1, .left⟩, ⟨"*", 2, .left⟩, ⟨"^", 3, .right⟩]
  nonempty := List.cons_ne_nil _ _
  distinct := by decide
  named := by decide
  agree := by decide
  fit := by decide

namespace Arithmetic

def plus : arithmetic.Index := ⟨0, by decide⟩

def minus : arithmetic.Index := ⟨1, by decide⟩

def times : arithmetic.Index := ⟨2, by decide⟩

def power : arithmetic.Index := ⟨3, by decide⟩

def tree : Grouping arithmetic.Index :=
  .binary minus
    (.binary plus .operand (.binary times .operand (.binary power .operand (.binary power .operand .operand))))
    .operand

end Arithmetic

open Arithmetic in
theorem table_groups_arithmetic :
    ∃ table, (arithmetic.declaration "arithmetic").compile = .ok table ∧ table.conflicts = 0 ∧
      arithmetic.Builds table (arithmetic.word [plus, times, power, power, minus]) tree := by
  obtain ⟨table, made, free, groups⟩ := table_groups arithmetic "arithmetic"
  obtain ⟨_, only, unique, builds⟩ := groups [plus, times, power, power, minus]
  refine ⟨table, made, free, ?_⟩
  rw [(unique tree).mp ⟨rfl, grouped_iff.mpr rfl⟩]
  exact builds

end IncrementalParsing.Operators
