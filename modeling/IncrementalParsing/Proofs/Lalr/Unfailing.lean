import IncrementalParsing.Proofs.Lalr.Candidates
import IncrementalParsing.Proofs.Lalr.GuardedFlow
import IncrementalParsing.Proofs.Lalr.Itemwise

/-!
The construction of a table never breaks off. States are explored with closures of whole kernels, lookaheads
are computed from closures of single items; both have the same items. So a state has an edge for whatever
stands behind a mark there, and the kernel behind the edge has the item with the mark moved. Sets of terminals
are made for the terminals and the placeholder, and nothing else is ever put into them.
-/

namespace IncrementalParsing.Lalr

namespace Guarded

/-- What a closed item at its end may be reduced on, when `following` may follow the kernel item that was
closed. -/
def reductionsOf (grammar : Grammar) (following : TerminalSet) (closed : Construction.ClosedItem) :
    Except Fault TerminalSet :=
  if closed.lookahead.contains (Construction.ofGrammar grammar).marker then do
    let (lookahead, _) ← (closed.lookahead.remove (Construction.ofGrammar grammar).marker).unionBelow
      (capacityOf grammar) following
    return lookahead
  else return closed.lookahead

def claim (grammar : Grammar) (following : TerminalSet) (claims : Claims) (closed : Construction.ClosedItem) :
    Except Fault Claims :=
  match (Rules.ofGrammar grammar).nextSymbol closed.item with
  | some (.terminal terminal) => do
      let _ ← requireAt claims.shifts terminal.index
      return claims.shift terminal (stepPrecedence grammar closed.item)
  | some (.nonterminal _) => return claims
  | none => do
      let lookahead ← reductionsOf grammar following closed
      lookahead.toList.foldlM
        (fun claims terminal => do
          let _ ← requireAt claims.reductions terminal.index
          return claims.reduce (Rules.ofGrammar grammar).augmented terminal closed.item.production)
        claims

/-- All claims of a state. -/
def claimsOf (grammar : Grammar) (sets : FirstSets) (kernel : List (Item × TerminalSet)) : Except Fault Claims :=
  kernel.foldlM
    (fun claims entry => do
      let closure ← itemClosure grammar sets entry.1
      closure.foldlM (claim grammar entry.2) claims)
    (.none grammar.terminalCount)

def insertEach {α : Type} (capacity : Nat) (skips : α → Bool) (kindOf : α → KindId) (entries : List α) :
    Except Fault TerminalSet :=
  entries.foldlM
    (fun set entry =>
      if skips entry then return set
      else do
        let (set, _) ← set.insertBelow capacity (kindOf entry)
        return set)
    (.withCapacity capacity)

def recovery (grammar : Grammar) : Except Fault TerminalSet :=
  insertEach grammar.terminalCount
    (fun index => KindId.ofIndex index == .error || grammar.lexical.externals.contains (.ofIndex index))
    .ofIndex (List.range grammar.terminalCount)

def admitted (row : Array Action) : Except Fault TerminalSet :=
  insertEach row.size (fun entry => entry.1 == .error) (fun entry => .ofIndex entry.2) row.zipIdx.toList

theorem insertEach_eq {α : Type} {capacity : Nat} {skips : α → Bool} {kindOf : α → KindId} {entries : List α}
    (low : ∀ entry, entry ∈ entries → (kindOf entry).index < capacity) :
    insertEach capacity skips kindOf entries =
      .ok (entries.foldl (fun set entry => if skips entry then set else set.add (kindOf entry))
        (.withCapacity capacity)) := by
  refine (foldlM_agrees (fun set => set.MadeFor capacity) entries ?_ _ (TerminalSet.madeFor_withCapacity _)).1
  intro entry member set made
  dsimp only
  cases skips entry with
  | true => exact ⟨rfl, made⟩
  | false =>
      rw [if_neg Bool.false_ne_true, if_neg Bool.false_ne_true,
        TerminalSet.insertBelow_eq made (low entry member)]
      exact ⟨rfl, made.add _⟩

theorem recovery_eq {grammar : Grammar} (numbered : grammar.Numbered) :
    recovery grammar = .ok (Modes.recovery grammar) := by
  refine insertEach_eq ?_
  intro index member
  have low := List.mem_range.mp member
  have fits := numbered.kinds_le
  have room := numbered.rules_le
  unfold Declaration.symbolLimit at fits
  rw [KindId.index_ofIndex (by omega)]
  exact low

theorem admitted_eq {row : Array Action} (small : row.size ≤ 65536) : admitted row = .ok (Modes.admitted row) := by
  have low : ∀ entry, entry ∈ row.zipIdx.toList → (KindId.ofIndex entry.2).index < row.size := by
    rintro ⟨action, place⟩ member
    have found := Array.mk_mem_zipIdx_iff_getElem?.mp (Array.mem_toList_iff.mp member)
    obtain ⟨inside, _⟩ := Array.getElem?_eq_some_iff.mp found
    dsimp only
    rw [KindId.index_ofIndex (by omega)]
    exact inside
  unfold admitted Modes.admitted
  rw [insertEach_eq low, ← Array.foldl_toList]
  simp only [beq_iff_eq]

/-! ### Claims -/

structure Roomy (grammar : Grammar) (claims : Claims) : Prop where
  shifts : claims.shifts.size = grammar.terminalCount
  reductions : claims.reductions.size = grammar.terminalCount

section Claims

variable {grammar : Grammar} {automaton : Automaton} {claims : Claims} {seed : Item} {following : TerminalSet}
  {closed : Construction.ClosedItem} (numbered : grammar.Numbered) (productive : grammar.unproductive? = none)

theorem Roomy.shift (roomy : Roomy grammar claims) (terminal : KindId) (precedence : Int) :
    Roomy grammar (claims.shift terminal precedence) where
  shifts := (Array.size_modify ..).trans roomy.shifts
  reductions := roomy.reductions

theorem Roomy.reduce (roomy : Roomy grammar claims) (augmented : Nat) (terminal : KindId) (number : Nat) :
    Roomy grammar (claims.reduce augmented terminal number) where
  shifts := roomy.shifts
  reductions := (Array.size_modify ..).trans roomy.reductions

include numbered productive

/-- What a closed item may be reduced on are terminals: the placeholder gives way to what follows the kernel
item. -/
theorem reductionsOf_eq (member : closed ∈ (Construction.ofGrammar grammar).closure seed)
    (slots : following.slots = slotsOf grammar)
    (low : ∀ terminal, following.contains terminal = true → terminal.index < grammar.terminalCount) :
    reductionsOf grammar following closed = .ok (reducedOn (.ofGrammar grammar) following closed) ∧
      ∀ terminal, terminal ∈ (reducedOn (.ofGrammar grammar) following closed).toList →
        terminal.index < grammar.terminalCount := by
  obtain ⟨room, sound⟩ := Construction.closure_sound numbered productive member
  have made : closed.lookahead.MadeFor (capacityOf grammar) := room
  have below : following.bits < 1 <<< capacityOf grammar :=
    TerminalSet.bits_lt_of_contains (slots ▸ slotsOf_le numbered)
      (fun terminal present => Nat.lt_succ_of_lt (low terminal present))
  have proper : ∀ terminal, closed.lookahead.contains terminal = true →
      terminal ≠ (Construction.ofGrammar grammar).marker → terminal.index < grammar.terminalCount :=
    fun terminal present other => ((sound terminal present).terminal_lt numbered).resolve_left other
  constructor
  · unfold reductionsOf reducedOn
    rw [TerminalSet.unionBelow_eq (made.remove _) below]
    split <;> rfl
  · intro terminal listed
    rw [TerminalSet.mem_toList (by rw [slots_reducedOn, room]; exact slotsOf_le numbered)] at listed
    unfold reducedOn at listed
    split at listed
    · rw [TerminalSet.contains_union_below (made.remove _) below, Bool.or_eq_true,
        TerminalSet.contains_remove, Bool.and_eq_true, bne_iff_ne] at listed
      rcases listed with ⟨present, other⟩ | given
      · exact proper terminal present other
      · exact low terminal given
    · rename_i lacks
      refine proper terminal listed ?_
      rintro rfl
      exact lacks listed

theorem claim_eq (member : closed ∈ (Construction.ofGrammar grammar).closure seed)
    (slots : following.slots = slotsOf grammar)
    (low : ∀ terminal, following.contains terminal = true → terminal.index < grammar.terminalCount)
    (roomy : Roomy grammar claims) :
    claim grammar following claims closed = .ok (Lalr.claim grammar (.ofGrammar grammar) following claims closed) ∧
      Roomy grammar (Lalr.claim grammar (.ofGrammar grammar) following claims closed) := by
  have rules : (Construction.ofGrammar grammar).rules = .ofGrammar grammar := rfl
  unfold claim Lalr.claim
  rw [rules]
  cases next : (Rules.ofGrammar grammar).nextSymbol closed.item with
  | some symbol =>
      cases symbol with
      | terminal kind =>
          have inside : kind.index < claims.shifts.size := roomy.shifts ▸ (nextSymbol_within numbered next).2.2
          dsimp only
          rw [requireAt_of_lt _ _ inside]
          exact ⟨rfl, roomy.shift _ _⟩
      | nonterminal id => exact ⟨rfl, roomy⟩
  | none =>
      obtain ⟨answers, terminals⟩ := reductionsOf_eq numbered productive member slots low
      dsimp only
      rw [answers, ok_bind]
      refine foldlM_agrees (Roomy grammar) (reducedOn (.ofGrammar grammar) following closed).toList ?_ claims roomy
      intro terminal listed before roomyBefore
      have inside : terminal.index < before.reductions.size := roomyBefore.reductions ▸ terminals terminal listed
      rw [requireAt_of_lt _ _ inside]
      exact ⟨rfl, roomyBefore.reduce _ _ _⟩

theorem exists_claims (explored : automaton.Explored (.ofGrammar grammar) automaton.kernels.size)
    {sets : Array TerminalSet} {arcs : Array (Nat × Nat)} (settled : Settled grammar automaton ⟨sets, arcs⟩)
    {state : Nat} (inside : state < automaton.kernels.size) :
    ∃ claims, claimsOf grammar (.ofGrammar grammar)
      (kernelWithLookaheads (.ofAutomaton automaton) sets automaton state) = .ok claims := by
  have each : ∀ entry, entry ∈ kernelWithLookaheads (.ofAutomaton automaton) sets automaton state →
      ∀ before, Roomy grammar before → ∃ after,
        (itemClosure grammar (.ofGrammar grammar) entry.1 >>= fun closure =>
          closure.foldlM (claim grammar entry.2) before) = .ok after ∧ Roomy grammar after := by
    rintro ⟨seed, following⟩ among before roomy
    obtain ⟨place, located, noted⟩ := mem_kernelWithLookaheads inside among
    have placeLt : place < sets.size := settled.flowing.size ▸ place_lt_total located
    have found := Array.getElem?_eq_getElem placeLt
    rw [found, Option.getD_some] at noted
    obtain rfl : following = sets[place] := noted
    have low : ∀ terminal, sets[place].contains terminal = true → terminal.index < grammar.terminalCount := by
      intro terminal present
      obtain ⟨_, _, canonical⟩ := settled.flowing.sets _ _ _ _ terminal found located present
      exact canonical.terminal_lt numbered
    obtain ⟨slot, kernel, kernelAt, at_, _⟩ := located
    obtain ⟨closure, answers, _, members⟩ := mem_itemClosure numbered productive
      (explored.kernel_inner kernelAt (List.mem_of_getElem? at_))
    obtain ⟨folded, roomyAfter⟩ := foldlM_agrees (Roomy grammar) closure
      (fun closed member _ roomy => claim_eq numbered productive ((members closed).mp member)
        (settled.flowing.slots _ (Array.getElem_mem placeLt)) low roomy) before roomy
    rw [answers, ok_bind]
    exact ⟨_, folded, roomyAfter⟩
  have blank : Roomy grammar (.none grammar.terminalCount) := ⟨Array.size_replicate, Array.size_replicate⟩
  obtain ⟨claims, folded, _⟩ := exists_foldlM each blank
  exact ⟨claims, folded⟩

end Claims

end Guarded

/-! ### Both closures -/

structure Coherent (grammar : Grammar) (automaton : Automaton) (state : Nat) (kernel : List Item) : Prop where
  whole : Guarded.kernelClosure (.ofGrammar grammar) kernel = .ok (closure (.ofGrammar grammar) kernel)
  single : ∀ seed, seed ∈ kernel → ∃ items, Guarded.itemClosure grammar (.ofGrammar grammar) seed = .ok items ∧
    ∀ closed, closed ∈ items ↔ closed ∈ (Closures.ofConstruction (.ofGrammar grammar)).of seed
  agree : ∀ item, item ∈ closure (.ofGrammar grammar) kernel ↔ ∃ seed items closed, seed ∈ kernel ∧
    Guarded.itemClosure grammar (.ofGrammar grammar) seed = .ok items ∧ closed ∈ items ∧ closed.item = item
  leads : ∀ item symbol, item ∈ closure (.ofGrammar grammar) kernel →
    (Rules.ofGrammar grammar).nextSymbol item = some symbol →
    ((automaton.edgesOf state).map (·.1)).count symbol = 1 ∧
      ∃ target next, (symbol, target) ∈ automaton.edgesOf state ∧ automaton.kernels[target]? = some next ∧
        Increasing next ∧ next.Nodup ∧ item.advance ∈ next

section Coherence

variable {grammar : Grammar} {automaton : Automaton} (numbered : grammar.Numbered)
  (productive : grammar.unproductive? = none)
  (explored : automaton.Explored (.ofGrammar grammar) automaton.kernels.size)

include explored

theorem Automaton.Explored.leads_on {state : Nat} {kernel : List Item} {item : Item} {symbol : Symbol}
    (found : automaton.kernels[state]? = some kernel) (member : item ∈ closure (.ofGrammar grammar) kernel)
    (next : (Rules.ofGrammar grammar).nextSymbol item = some symbol) :
    ((automaton.edgesOf state).map (·.1)).count symbol = 1 ∧
      ∃ target next, (symbol, target) ∈ automaton.edgesOf state ∧ automaton.kernels[target]? = some next ∧
        Increasing next ∧ next.Nodup ∧ item.advance ∈ next := by
  obtain ⟨target, lookup⟩ := explored.lookup_edge found member next
  have edge := mem_of_lookup lookup
  obtain ⟨after, targetAt, among⟩ := explored.edge_kernel found edge
  have increasing := explored.kernel_increasing targetAt
  exact ⟨List.count_eq_one_of_mem (explored.edges_distinct found) (List.mem_map.mpr ⟨_, edge, rfl⟩),
    target, after, edge, targetAt, increasing, increasing.nodup,
    (mem_successor among _).mpr ⟨item, member, next, rfl⟩⟩

include numbered productive

theorem coherent_of_explored {state : Nat} {kernel : List Item}
    (found : automaton.kernels[state]? = some kernel) : Coherent grammar automaton state kernel where
  whole := kernelClosure_eq (Rules.ofGrammar_declared numbered) (Rules.leadingIn_eq grammar) kernel
  single := by
    intro seed member
    obtain ⟨items, answers, _, members⟩ :=
      Guarded.mem_itemClosure numbered productive (explored.kernel_inner found member)
    refine ⟨items, answers, ?_⟩
    rw [closuresOf_kernel explored found member]
    exact members
  agree := by
    intro item
    rw [mem_closure (Rules.ofGrammar_consistent grammar), closed_iff_exists_seed]
    constructor
    · rintro ⟨seed, member, closed⟩
      obtain ⟨items, answers, _, whole, _⟩ := Guarded.itemClosure_exact numbered productive seed
      obtain ⟨entry, among, same⟩ := (whole item).mp closed
      exact ⟨seed, items, entry, member, answers, among, same⟩
    · rintro ⟨seed, items, closed, member, answers, among, same⟩
      obtain ⟨others, answersToo, _, whole, _⟩ := Guarded.itemClosure_exact numbered productive seed
      cases answers.symm.trans answersToo
      exact ⟨seed, member, (whole item).mpr ⟨closed, among, same⟩⟩
  leads _ _ member next := explored.leads_on found member next

end Coherence

/-- The construction does not break off. In every state the closure of the kernel has the items that the
closures of its single items have; each of them leads on over exactly one edge, to a kernel in order that has
the item with the mark moved. Kernels are not repeated. With every access checked and every set of terminals
kept within its capacity, FIRST sets, lookaheads and the sets of modes come out as they do without checks, and
the claims of no state break off. -/
theorem construction_unfailing {declaration : Declaration} {grammar : Grammar} {automaton : Automaton}
    (normalized : declaration.normalize = .ok grammar)
    (made : Automaton.ofRules (.ofGrammar grammar) = .ok automaton) :
    automaton.kernels.toList.Nodup ∧
      (∀ (state : Nat) (kernel : List Item), automaton.kernels[state]? = some kernel →
        Coherent grammar automaton state kernel) ∧
      Guarded.firstSets grammar = .ok (.ofGrammar grammar) ∧
      (∃ sets, Guarded.lookaheads grammar (.ofGrammar grammar) (.ofAutomaton automaton) automaton = .ok sets ∧
        lookaheads (.ofGrammar grammar) (.ofConstruction (.ofGrammar grammar)) (.ofAutomaton automaton) automaton =
          .ok sets ∧
        ∀ state, state < automaton.kernels.size → ∃ claims, Guarded.claimsOf grammar (.ofGrammar grammar)
          (kernelWithLookaheads (.ofAutomaton automaton) sets automaton state) = .ok claims) ∧
      Guarded.recovery grammar = .ok (Modes.recovery grammar) ∧
      ∀ row : Array Action, row.size = grammar.terminalCount → Guarded.admitted row = .ok (Modes.admitted row) := by
  have numbered := Declaration.normalize_numbered normalized
  obtain ⟨_, _, _, _, productive, _⟩ := Declaration.normalize_ok normalized
  have explored := Automaton.ofRules_explored made
  refine ⟨Automaton.ofRules_distinct made, fun _ _ => coherent_of_explored numbered productive explored,
    Guarded.firstSets_eq numbered, ?_, Guarded.recovery_eq numbered, fun row width => ?_⟩
  · obtain ⟨sets, arcs, guarded, computed, settled⟩ := Guarded.lookaheads_eq numbered productive explored
    exact ⟨sets, guarded, computed, fun _ inside =>
      Guarded.exists_claims numbered productive explored settled inside⟩
  · have fits := numbered.kinds_le
    have room := numbered.rules_le
    unfold Declaration.symbolLimit at fits
    exact Guarded.admitted_eq (by omega)

/-! ### A series -/

namespace Series

def declaration : Declaration :=
  { Declaration.empty "series" with
    rules := #[("series", .choice [.sequence [.symbol "series", .literal ",", .literal "x"], .literal "x"])] }

theorem normalizes : declaration.normalize.toOption.isSome = true := by decide +kernel

def grammar : Grammar := declaration.normalize.toOption.get normalizes

theorem explores : (Automaton.ofRules (.ofGrammar grammar)).toOption.isSome = true := by decide +kernel

def automaton : Automaton := (Automaton.ofRules (.ofGrammar grammar)).toOption.get explores

theorem begins : automaton.kernels[0]? = some [⟨2, 0⟩] ∧
    closure (.ofGrammar grammar) [⟨2, 0⟩] = [⟨2, 0⟩, ⟨0, 0⟩, ⟨1, 0⟩] ∧
    (Rules.ofGrammar grammar).nextSymbol ⟨0, 0⟩ = some (.nonterminal ⟨0⟩) := by
  decide +kernel

end Series

theorem construction_unfailing_series :
    Series.automaton.kernels.toList.Nodup ∧
      (∃ items closed, Guarded.itemClosure Series.grammar (.ofGrammar Series.grammar) ⟨2, 0⟩ = .ok items ∧
        closed ∈ items ∧ closed.item = ⟨1, 0⟩) ∧
      (∃ target next, (.nonterminal ⟨0⟩, target) ∈ Series.automaton.edgesOf 0 ∧
        Series.automaton.kernels[target]? = some next ∧ ⟨0, 1⟩ ∈ next) ∧
      ∃ sets, Guarded.lookaheads Series.grammar (.ofGrammar Series.grammar) (.ofAutomaton Series.automaton)
        Series.automaton = .ok sets := by
  have normalized : Series.declaration.normalize = .ok Series.grammar := eq_ok_get _
  have made : Automaton.ofRules (.ofGrammar Series.grammar) = .ok Series.automaton := eq_ok_get _
  obtain ⟨distinct, coherent, _, ⟨sets, computed, _⟩, _⟩ := construction_unfailing normalized made
  obtain ⟨kernelAt, whole, begins⟩ := Series.begins
  have state := coherent 0 _ kernelAt
  refine ⟨distinct, ?_, ?_, sets, computed⟩
  · have member : (⟨1, 0⟩ : Item) ∈ closure (.ofGrammar Series.grammar) [⟨2, 0⟩] := by
      rw [whole]
      decide
    obtain ⟨seed, items, closed, only, answers, among, same⟩ := (state.agree _).mp member
    cases List.mem_singleton.mp only
    exact ⟨items, closed, answers, among, same⟩
  · have member : (⟨0, 0⟩ : Item) ∈ closure (.ofGrammar Series.grammar) [⟨2, 0⟩] := by
      rw [whole]
      decide
    obtain ⟨_, target, next, edge, at_, _, _, advanced⟩ := state.leads _ _ member begins
    exact ⟨target, next, edge, at_, advanced⟩

/-- The beginnings of a series are gone through again once a comma may follow them; the placeholder has the
number 4. -/
example : (Guarded.itemClosure Series.grammar (.ofGrammar Series.grammar) ⟨2, 0⟩).toOption.map
    (·.map fun closed => (closed.item, closed.lookahead.toList)) =
      some [(⟨2, 0⟩, [⟨4⟩]), (⟨0, 0⟩, [⟨2⟩, ⟨4⟩]), (⟨1, 0⟩, [⟨2⟩, ⟨4⟩])] := by
  decide +kernel

end IncrementalParsing.Lalr
