import IncrementalParsing.Proofs.Lalr.GuardedFirst
import IncrementalParsing.Proofs.Lalr.Placeholder

/-!
Closures under a placeholder, item by item. An item with news is expanded again: it offers the lookaheads
behind its nonterminal to the beginnings of the productions, and those of them that are new or that grow wait
in turn. Everything that is noted belongs to the closure. What does not wait has passed on all that it has, so
that once nothing waits everything that belongs to the closure is noted. Each item that waits stands for a
fact that was learned when it was put there, and there are only so many.
-/

namespace IncrementalParsing.Lalr

namespace Guarded

/-- The items of a closure so far with their lookaheads, in the order in which they were found. -/
abbrev Entries := List (Item × TerminalSet)

structure Agenda where
  entries : Entries
  work : List Item

namespace Agenda

def offer (capacity : Nat) (lookahead : TerminalSet) (agenda : Agenda) (item : Item) : Except Fault Agenda :=
  match agenda.entries.lookup item with
  | none => return ⟨agenda.entries ++ [(item, lookahead)], item :: agenda.work⟩
  | some known => do
      let (merged, grew) ← known.unionBelow capacity lookahead
      if grew then
        return ⟨agenda.entries.map fun entry => if entry.1 = item then (item, merged) else entry,
          item :: agenda.work⟩
      else return agenda

/-- Offers what may follow the nonterminal behind the mark of an item to the beginnings of its productions. -/
def expand (grammar : Grammar) (sets : FirstSets) (agenda : Agenda) (item : Item) : Except Fault Agenda :=
  match (Rules.ofGrammar grammar).nextSymbol item with
  | some (.nonterminal id) =>
      match agenda.entries.lookup item with
      | none => .error .malformedArgument
      | some known => do
          let lookahead ← firstOf grammar sets ((Rules.ofGrammar grammar).rest item) known
          ((Rules.ofGrammar grammar).startsOf id).foldlM (offer (capacityOf grammar) lookahead) agenda
  | _ => return agenda

/-- Expands the items that wait until there are none, for at most so many rounds. -/
def run (grammar : Grammar) (sets : FirstSets) : Nat → Agenda → Except Fault Entries
  | 0, _ => .error .outOfFuel
  | rounds + 1, agenda =>
      match agenda.work with
      | [] => return agenda.entries
      | item :: rest => do
          let next ← expand grammar sets ⟨agenda.entries, rest⟩ item
          run grammar sets rounds next

end Agenda

def itemClosure (grammar : Grammar) (sets : FirstSets) (seed : Item) :
    Except Fault (List Construction.ClosedItem) := do
  let (only, _) ← (TerminalSet.withCapacity (capacityOf grammar)).insertBelow (capacityOf grammar)
    (Construction.ofGrammar grammar).marker
  let entries ← Agenda.run grammar sets (grammar.productions.size * (grammar.terminalCount + 2) + 2)
    ⟨[(seed, only)], [seed]⟩
  return entries.map fun entry => ⟨entry.1, entry.2⟩

namespace Agenda

/-! ### Entries -/

theorem lookup_concat {entries : Entries} {item : Item} (absent : entries.lookup item = none)
    (set : TerminalSet) (other : Item) :
    (entries ++ [(item, set)]).lookup other = if other = item then some set else entries.lookup other := by
  rw [List.lookup_append]
  by_cases same : other = item
  · subst same
    rw [absent, if_pos rfl, Option.none_or, List.lookup_cons, beq_self_eq_true]
  · have away : (other == item) = false := beq_eq_false_iff_ne.mpr same
    rw [if_neg same, List.lookup_cons, away]
    exact Option.or_none

theorem lookup_replace (item : Item) (set : TerminalSet) (other : Item) : ∀ entries : Entries,
    (entries.map fun entry => if entry.1 = item then (item, set) else entry).lookup other =
      if other = item then (entries.lookup item).map fun _ => set else entries.lookup other
  | [] => by simp
  | (first, here) :: rest => by
      have later := lookup_replace item set other rest
      rw [List.map_cons, List.lookup_cons, later, List.lookup_cons, List.lookup_cons]
      by_cases same : first = item
      · subst same
        by_cases wanted : other = first
        · subst wanted
          simp
        · have away : (other == first) = false := beq_eq_false_iff_ne.mpr wanted
          rw [if_pos rfl, away, if_neg wanted, if_neg wanted]
      · have apart : (item == first) = false := beq_eq_false_iff_ne.mpr (Ne.symm same)
        rw [if_neg same, apart]
        by_cases wanted : other = item
        · subst wanted
          simp [apart]
        · simp [wanted]

theorem keys_replace (item : Item) (set : TerminalSet) (entries : Entries) :
    (entries.map fun entry => if entry.1 = item then (item, set) else entry).map (·.1) = entries.map (·.1) := by
  rw [List.map_map]
  apply List.map_congr_left
  intro entry _
  rw [Function.comp_apply]
  split
  · rename_i same
    exact same.symm
  · rfl

structure Put (item : Item) (set : TerminalSet) (before after : Entries) : Prop where
  distinct : (after.map (·.1)).Nodup
  found : ∀ other, after.lookup other = if other = item then some set else before.lookup other
  more : ∀ old, before.lookup item = some old → ∀ terminal, old.contains terminal = true →
    set.contains terminal = true
  news : ∀ old, before.lookup item = some old →
    ∃ terminal, old.contains terminal = false ∧ set.contains terminal = true

namespace Put

variable {item : Item} {set : TerminalSet} {before after : Entries}

theorem of_absent {entries : Entries} (distinct : (entries.map (·.1)).Nodup)
    (absent : entries.lookup item = none) (set : TerminalSet) : Put item set entries (entries ++ [(item, set)]) where
  distinct := by
    have fresh : item ∉ entries.map (·.1) := by
      intro member
      obtain ⟨⟨_, old⟩, among, rfl⟩ := List.mem_map.mp member
      rw [lookup_of_mem distinct among] at absent
      cases absent
    rw [List.map_append]
    exact (List.perm_append_singleton item _).symm.nodup (List.nodup_cons.mpr ⟨fresh, distinct⟩)
  found := lookup_concat absent set
  more _ impossible := by
    rw [absent] at impossible
    cases impossible
  news _ impossible := by
    rw [absent] at impossible
    cases impossible

theorem of_grew {entries : Entries} (distinct : (entries.map (·.1)).Nodup) {old : TerminalSet}
    (known : entries.lookup item = some old)
    (more : ∀ terminal, old.contains terminal = true → set.contains terminal = true)
    (news : ∃ terminal, old.contains terminal = false ∧ set.contains terminal = true) :
    Put item set entries (entries.map fun entry => if entry.1 = item then (item, set) else entry) where
  distinct := (keys_replace item set entries).symm ▸ distinct
  found other := by
    rw [lookup_replace, known]
    rfl
  more before same := by
    cases known.symm.trans same
    exact more
  news before same := by
    cases known.symm.trans same
    exact news

variable (put : Put item set before after)

include put

theorem here : after.lookup item = some set := by rw [put.found, if_pos rfl]

theorem away {other : Item} (apart : other ≠ item) : after.lookup other = before.lookup other := by
  rw [put.found, if_neg apart]

theorem cases_found {other : Item} {members : TerminalSet} (found : after.lookup other = some members) :
    other = item ∧ members = set ∨ before.lookup other = some members := by
  by_cases same : other = item
  · rw [same, put.here] at found
    exact Or.inl ⟨same, (Option.some.inj found).symm⟩
  · rw [put.away same] at found
    exact Or.inr found

end Put

structure Sound (grammar : Grammar) (seed : Item) (entries : Entries) : Prop where
  distinct : (entries.map (·.1)).Nodup
  made : ∀ item set, entries.lookup item = some set → set.MadeFor (capacityOf grammar)
  closed : ∀ item set, entries.lookup item = some set → Closed (.ofGrammar grammar) [seed] item
  due : ∀ item set terminal, entries.lookup item = some set → set.contains terminal = true →
    Expanded grammar (Single seed (Construction.ofGrammar grammar).marker) item terminal

/-- What is known of the beginnings of productions: the last column says that an item has an entry. -/
def Fact (grammar : Grammar) (entries : Entries) (row column : Nat) : Prop :=
  ∃ set, entries.lookup ⟨row, 0⟩ = some set ∧
    (column = capacityOf grammar ∨ set.contains (.ofIndex column) = true)

def Measures (grammar : Grammar) (known : Entries → Nat) : Prop :=
  (∀ entries, known entries ≤ grammar.productions.size * (grammar.terminalCount + 2)) ∧
  ∀ before after changed, Learns (Fact grammar) grammar.productions.size (grammar.terminalCount + 2) before after
    changed → known before + changed.toNat ≤ known after

/-- An agenda grows: nothing is taken away, whatever is new or has news waits, and more waits only for news. -/
structure Grows (known : Entries → Nat) (before after : Agenda) : Prop where
  kept : ∀ item set, before.entries.lookup item = some set → ∃ more, after.entries.lookup item = some more ∧
    (∀ terminal, set.contains terminal = true → more.contains terminal = true) ∧ (item ∉ after.work → more = set)
  waits : ∀ item, item ∈ before.work → item ∈ after.work
  fresh : ∀ item set, before.entries.lookup item = none → after.entries.lookup item = some set → item ∈ after.work
  listed : ∀ item, item ∈ after.work → item ∈ before.work ∨ ∃ set, after.entries.lookup item = some set
  measured : known before.entries + after.work.length ≤ known after.entries + before.work.length

variable {known : Entries → Nat}

theorem Grows.refl (agenda : Agenda) : Grows known agenda agenda where
  kept _ set found := ⟨set, found, fun _ present => present, fun _ => rfl⟩
  waits _ member := member
  fresh _ _ absent found := by
    rw [absent] at found
    cases found
  listed _ member := Or.inl member
  measured := Nat.le_refl _

theorem Grows.trans {first second third : Agenda} (before : Grows known first second)
    (after : Grows known second third) : Grows known first third where
  kept item set found := by
    obtain ⟨middle, foundMiddle, more, same⟩ := before.kept item set found
    obtain ⟨last, foundLast, further, rests⟩ := after.kept item middle foundMiddle
    refine ⟨last, foundLast, fun terminal present => further terminal (more terminal present), fun idle => ?_⟩
    rw [rests idle, same fun waiting => idle (after.waits item waiting)]
  waits item member := after.waits item (before.waits item member)
  fresh item set absent found := by
    cases middle : second.entries.lookup item with
    | none => exact after.fresh item set middle found
    | some known => exact after.waits item (before.fresh item known absent middle)
  listed item member := by
    rcases after.listed item member with earlier | present
    · rcases before.listed item earlier with first | ⟨set, found⟩
      · exact Or.inl first
      · obtain ⟨more, kept, _⟩ := after.kept item set found
        exact Or.inr ⟨more, kept⟩
    · exact Or.inr present
  measured := by
    have first := before.measured
    have second := after.measured
    omega

section Numbered

variable {grammar : Grammar} {seed item : Item} {agenda : Agenda} {lookahead : TerminalSet}
  (numbered : grammar.Numbered)

include numbered

theorem lt_capacity {terminal : KindId}
    (expanded : Expanded grammar (Single seed (Construction.ofGrammar grammar).marker) item terminal) :
    terminal.index < capacityOf grammar := by
  have marker := marker_index numbered
  unfold capacityOf
  rcases expanded.terminal_lt numbered with rfl | low <;> omega

theorem bits_lt_of_due {set : TerminalSet} (made : set.MadeFor (capacityOf grammar))
    (due : ∀ terminal, set.contains terminal = true →
      Expanded grammar (Single seed (Construction.ofGrammar grammar).marker) item terminal) :
    set.bits < 1 <<< capacityOf grammar := by
  have slots : set.slots = slotsOf grammar := made
  exact TerminalSet.bits_lt_of_contains (slots ▸ slotsOf_le numbered)
    (fun terminal present => lt_capacity numbered (due terminal present))

omit numbered in
theorem Sound.put (sound : Sound grammar seed agenda.entries) {set : TerminalSet} {after : Entries}
    (put : Put item set agenda.entries after) (closed : Closed (.ofGrammar grammar) [seed] item)
    (made : set.MadeFor (capacityOf grammar))
    (due : ∀ terminal, set.contains terminal = true →
      Expanded grammar (Single seed (Construction.ofGrammar grammar).marker) item terminal) :
    Sound grammar seed after where
  distinct := put.distinct
  made other members found := by
    rcases put.cases_found found with ⟨rfl, rfl⟩ | before
    · exact made
    · exact sound.made other members before
  closed other members found := by
    rcases put.cases_found found with ⟨rfl, rfl⟩ | before
    · exact closed
    · exact sound.closed other members before
  due other members terminal found present := by
    rcases put.cases_found found with ⟨rfl, rfl⟩ | before
    · exact due terminal present
    · exact sound.due other members terminal before present

omit numbered in
theorem Put.learns {number : Nat} {set : TerminalSet} {before after : Entries}
    (put : Put ⟨number, 0⟩ set before after) (inside : number < grammar.productions.size)
    (low : ∀ terminal, set.contains terminal = true → terminal.index < capacityOf grammar) :
    Learns (Fact grammar) grammar.productions.size (grammar.terminalCount + 2) before after true where
  keeps := by
    rintro row column ⟨old, known, fact⟩
    by_cases same : (⟨row, 0⟩ : Item) = ⟨number, 0⟩
    · obtain rfl : row = number := congrArg Item.production same
      exact ⟨set, put.here, fact.imp id (put.more old known _)⟩
    · exact ⟨old, by rw [put.away same, known], fact⟩
  gains _ := by
    cases known : before.lookup ⟨number, 0⟩ with
    | none =>
        refine ⟨number, capacityOf grammar, inside, Nat.lt_succ_self _, ?_, set, put.here, Or.inl rfl⟩
        rintro ⟨_, impossible, _⟩
        rw [known] at impossible
        cases impossible
    | some old =>
        obtain ⟨terminal, absent, present⟩ := put.news old known
        have below := low terminal present
        refine ⟨number, terminal.index, inside, Nat.lt_succ_of_lt below, ?_, set, put.here, Or.inr ?_⟩
        · rintro ⟨_, again, last | already⟩
          · omega
          · cases known.symm.trans again
            rw [KindId.ofIndex_index, absent] at already
            cases already
        · rwa [KindId.ofIndex_index]
  rests impossible := by cases impossible

omit numbered in
theorem Put.grows {set : TerminalSet} {after : Entries} (put : Put item set agenda.entries after)
    (gained : known agenda.entries + 1 ≤ known after) : Grows known agenda ⟨after, item :: agenda.work⟩ where
  kept other members found := by
    by_cases same : other = item
    · subst same
      exact ⟨set, put.here, put.more members found, fun idle => absurd List.mem_cons_self idle⟩
    · exact ⟨members, by rw [put.away same, found], fun _ present => present, fun _ => rfl⟩
  waits _ member := List.mem_cons_of_mem _ member
  fresh other members absent found := by
    rcases put.cases_found found with ⟨rfl, _⟩ | before
    · exact List.mem_cons_self
    · rw [absent] at before
      cases before
  listed other member := by
    rcases List.mem_cons.mp member with rfl | old
    · exact Or.inr ⟨set, put.here⟩
    · exact Or.inl old
  measured := by
    dsimp only
    rw [List.length_cons]
    omega

/-- An offer does not break off. The item has what was offered, and it waits if that was news. -/
theorem Sound.offer (measures : Measures grammar known) (sound : Sound grammar seed agenda.entries) {number : Nat}
    (closed : Closed (.ofGrammar grammar) [seed] ⟨number, 0⟩) (inside : number < grammar.productions.size)
    (made : lookahead.MadeFor (capacityOf grammar))
    (due : ∀ terminal, lookahead.contains terminal = true →
      Expanded grammar (Single seed (Construction.ofGrammar grammar).marker) ⟨number, 0⟩ terminal) :
    ∃ after, agenda.offer (capacityOf grammar) lookahead ⟨number, 0⟩ = .ok after ∧
      Sound grammar seed after.entries ∧ Grows known agenda after ∧
      ∃ set, after.entries.lookup ⟨number, 0⟩ = some set ∧
        ∀ terminal, lookahead.contains terminal = true → set.contains terminal = true := by
  have gained : ∀ {set : TerminalSet} {after : Entries}, Put ⟨number, 0⟩ set agenda.entries after →
      (∀ terminal, set.contains terminal = true →
        Expanded grammar (Single seed (Construction.ofGrammar grammar).marker) ⟨number, 0⟩ terminal) →
      known agenda.entries + 1 ≤ known after := fun put due =>
    measures.2 _ _ _ (put.learns inside fun terminal present => lt_capacity numbered (due terminal present))
  unfold Agenda.offer
  cases at_ : agenda.entries.lookup ⟨number, 0⟩ with
  | none =>
      have put := Put.of_absent sound.distinct at_ lookahead
      exact ⟨_, rfl, sound.put put closed made due, put.grows (gained put due), lookahead, put.here,
        fun _ present => present⟩
  | some old =>
      have oldMade := sound.made _ old at_
      have below := bits_lt_of_due numbered made due
      have joined : ∀ terminal, (old.union lookahead).contains terminal =
          (old.contains terminal || lookahead.contains terminal) :=
        fun _ => TerminalSet.contains_union_below oldMade below
      have given : ∀ terminal, lookahead.contains terminal = true →
          (old.union lookahead).contains terminal = true := by
        intro terminal present
        rw [joined, present, Bool.or_true]
      dsimp only
      rw [TerminalSet.unionBelow_eq oldMade below, ok_bind]
      dsimp only
      cases grew : (old.unionGrew lookahead).2 with
      | false =>
          refine ⟨agenda, rfl, sound, .refl agenda, old, at_, fun terminal present => ?_⟩
          rw [← TerminalSet.union_of_unionGrew_eq_false grew]
          exact given terminal present
      | true =>
          rw [if_pos rfl]
          have slots : old.slots = slotsOf grammar := oldMade
          have put : Put ⟨number, 0⟩ (old.union lookahead) agenda.entries _ := Put.of_grew sound.distinct at_
            (fun terminal present => by rw [joined, present, Bool.true_or])
            (TerminalSet.exists_news_of_unionGrew (slots ▸ slotsOf_le numbered) grew)
          have dueNow : ∀ terminal, (old.union lookahead).contains terminal = true →
              Expanded grammar (Single seed (Construction.ofGrammar grammar).marker) ⟨number, 0⟩ terminal := by
            intro terminal present
            rw [joined] at present
            rcases Bool.or_eq_true_iff.mp present with mine | offered
            · exact sound.due _ old terminal at_ mine
            · exact due terminal offered
          exact ⟨_, rfl, sound.put put closed (oldMade.union lookahead) dueNow, put.grows (gained put dueNow), _,
            put.here, given⟩

/-! ### Expansion -/

omit numbered in
theorem start_inside {id : NonterminalId} {start : Item} (begins : start ∈ (Rules.ofGrammar grammar).startsOf id) :
    start.dot = 0 ∧ start.production < grammar.productions.size := by
  obtain ⟨dot, produced⟩ := mem_startsOf.mp begins
  obtain ⟨_, _, found, _⟩ := (Rules.mem_productionsOf grammar).mp produced
  obtain ⟨inside, _⟩ := Array.getElem?_eq_some_iff.mp found
  exact ⟨dot, inside⟩

theorem Sound.due_start (productive : grammar.unproductive? = none) {entries : Entries}
    (sound : Sound grammar seed entries) {set : TerminalSet} (found : entries.lookup item = some set)
    {id : NonterminalId} (next : (Rules.ofGrammar grammar).nextSymbol item = some (.nonterminal id)) {number : Nat}
    (produced : number ∈ (Rules.ofGrammar grammar).productionsOf id) {terminal : KindId}
    (behind : grammar.Begins ((Rules.ofGrammar grammar).rest item) terminal ∨
      grammar.Derives ((Rules.ofGrammar grammar).rest item) [] ∧ set.contains terminal = true) :
    Expanded grammar (Single seed (Construction.ofGrammar grammar).marker) ⟨number, 0⟩ terminal := by
  rcases behind with arises | ⟨vanishes, known⟩
  · obtain ⟨follower, expanded⟩ := exists_expanded numbered productive (sound.closed item set found)
      (Construction.ofGrammar grammar).marker
    exact .start expanded next produced (Grammar.firstOf_iff.mpr (Or.inl arises))
  · exact .start (sound.due item set terminal found known) next produced
      (Grammar.firstOf_iff.mpr (Or.inr ⟨vanishes, rfl⟩))

end Numbered

def Passed (grammar : Grammar) (entries : Entries) (item : Item) : Prop :=
  ∀ set id number, entries.lookup item = some set →
    (Rules.ofGrammar grammar).nextSymbol item = some (.nonterminal id) →
    number ∈ (Rules.ofGrammar grammar).productionsOf id →
    ∃ target, entries.lookup ⟨number, 0⟩ = some target ∧ ∀ terminal,
      grammar.Begins ((Rules.ofGrammar grammar).rest item) terminal ∨
        grammar.Derives ((Rules.ofGrammar grammar).rest item) [] ∧ set.contains terminal = true →
      target.contains terminal = true

section Expanding

variable {grammar : Grammar} {seed item : Item} {agenda : Agenda} (numbered : grammar.Numbered)
  (productive : grammar.unproductive? = none)

theorem Passed.grow {entries : Entries} {work : List Item} {after : Agenda} (passed : Passed grammar entries item)
    (grown : Grows known ⟨entries, work⟩ after) (present : ∃ set, entries.lookup item = some set)
    (idle : item ∉ after.work) : Passed grammar after.entries item := by
  intro set id number found next produced
  obtain ⟨old, oldAt⟩ := present
  obtain ⟨_, newAt, _, same⟩ := grown.kept item old oldAt
  cases found.symm.trans newAt
  rw [same idle]
  obtain ⟨target, targetAt, has⟩ := passed old id number oldAt next produced
  obtain ⟨more, moreAt, keeps, _⟩ := grown.kept _ target targetAt
  exact ⟨more, moreAt, fun terminal behind => keeps terminal (has terminal behind)⟩

include numbered productive

/-- An expansion does not break off. The item has then passed on what it has, unless it waits again. -/
theorem Sound.expand (measures : Measures grammar known) {entries : Entries} (sound : Sound grammar seed entries)
    {set : TerminalSet} (found : entries.lookup item = some set) (work : List Item) :
    ∃ after, expand grammar (.ofGrammar grammar) ⟨entries, work⟩ item = .ok after ∧
      Sound grammar seed after.entries ∧ Grows known ⟨entries, work⟩ after ∧
      (item ∉ after.work → Passed grammar after.entries item) := by
  unfold Agenda.expand
  split
  · rename_i id next
    have below := bits_lt_of_due numbered (sound.made item set found)
      (fun terminal => sound.due item set terminal found)
    obtain ⟨lookahead, gathers, made, exactly⟩ := firstOf_exact numbered below
      (fun _ (member : _ ∈ (Rules.ofGrammar grammar).rest item) => (rest_within numbered member).has)
    have offers : ∀ start, start ∈ (Rules.ofGrammar grammar).startsOf id → ∀ before : Agenda,
        Sound grammar seed before.entries →
        ∃ after, before.offer (capacityOf grammar) lookahead start = .ok after ∧
          Sound grammar seed after.entries ∧ Grows known before after ∧
          ∃ target, after.entries.lookup start = some target ∧
            ∀ terminal, lookahead.contains terminal = true → target.contains terminal = true := by
      rintro ⟨number, dot⟩ begins before soundBefore
      obtain ⟨zero, inside⟩ := start_inside begins
      obtain rfl : dot = 0 := zero
      have produced := (mem_startsOf.mp begins).2
      exact soundBefore.offer numbered measures (.start (sound.closed item set found) next produced) inside made
        (fun terminal given =>
          sound.due_start numbered productive found next produced ((exactly terminal).mp given))
    obtain ⟨after, folded, soundAfter, grown, all⟩ := foldlM_done
      (fun start (agenda : Agenda) => ∃ target, agenda.entries.lookup start = some target ∧
        ∀ terminal, lookahead.contains terminal = true → target.contains terminal = true)
      Grows.refl (fun _ _ _ => Grows.trans)
      (fun start before after grown done => by
        obtain ⟨target, targetAt, has⟩ := done
        obtain ⟨more, moreAt, keeps, _⟩ := grown.kept start target targetAt
        exact ⟨more, moreAt, fun terminal given => keeps terminal (has terminal given)⟩)
      ((Rules.ofGrammar grammar).startsOf id) offers ⟨entries, work⟩ sound
    rw [found]
    dsimp only
    rw [gathers, ok_bind]
    refine ⟨after, folded, soundAfter, grown, fun idle now other number nowAt nextOther produced => ?_⟩
    cases next.symm.trans nextOther
    obtain ⟨_, keptAt, _, same⟩ := grown.kept item set found
    cases nowAt.symm.trans keptAt
    rw [same idle]
    obtain ⟨target, targetAt, has⟩ := all ⟨number, 0⟩ (mem_startsOf.mpr ⟨rfl, produced⟩)
    exact ⟨target, targetAt, fun terminal behind => has terminal ((exactly terminal).mpr behind)⟩
  · rename_i other
    refine ⟨_, rfl, sound, .refl _, fun _ _ id _ _ next _ => ?_⟩
    exact absurd next (other id)

/-! ### Runs -/

omit numbered productive in
structure Running (grammar : Grammar) (seed : Item) (agenda : Agenda) : Prop where
  sound : Sound grammar seed agenda.entries
  seeded : ∃ set, agenda.entries.lookup seed = some set ∧
    set.contains (Construction.ofGrammar grammar).marker = true
  listed : ∀ item, item ∈ agenda.work → ∃ set, agenda.entries.lookup item = some set
  passed : ∀ item, item ∉ agenda.work → Passed grammar agenda.entries item

theorem Running.step (measures : Measures grammar known) {rest : List Item}
    (running : Running grammar seed agenda) (waiting : agenda.work = item :: rest) :
    ∃ after, expand grammar (.ofGrammar grammar) ⟨agenda.entries, rest⟩ item = .ok after ∧
      Running grammar seed after ∧
      known agenda.entries + after.work.length ≤ known after.entries + rest.length := by
  obtain ⟨set, found⟩ := running.listed item (waiting ▸ List.mem_cons_self)
  obtain ⟨after, expands, sound, grown, passedHere⟩ :=
    running.sound.expand numbered productive measures found rest
  refine ⟨after, expands, ⟨sound, ?_, ?_, ?_⟩, grown.measured⟩
  · obtain ⟨only, seedAt, marked⟩ := running.seeded
    obtain ⟨more, moreAt, keeps, _⟩ := grown.kept seed only seedAt
    exact ⟨more, moreAt, keeps _ marked⟩
  · intro other member
    rcases grown.listed other member with earlier | present
    · obtain ⟨old, oldAt⟩ := running.listed other (waiting ▸ List.mem_cons_of_mem item earlier)
      obtain ⟨more, moreAt, _⟩ := grown.kept other old oldAt
      exact ⟨more, moreAt⟩
    · exact present
  · intro other idle
    by_cases same : other = item
    · subst same
      exact passedHere idle
    · have before : other ∉ agenda.work := by
        rw [waiting, List.mem_cons, not_or]
        exact ⟨same, fun member => idle (grown.waits other member)⟩
      cases present : agenda.entries.lookup other with
      | some old => exact (running.passed other before).grow grown ⟨old, present⟩ idle
      | none =>
          intro now _ _ nowAt
          exact absurd (grown.fresh other now present nowAt) idle

/-- A run comes to an end when there are more rounds than items that wait and facts still to be learned. -/
theorem Running.run (measures : Measures grammar known) : ∀ (rounds : Nat) (agenda : Agenda),
    Running grammar seed agenda →
    agenda.work.length + grammar.productions.size * (grammar.terminalCount + 2) < rounds + known agenda.entries →
    ∃ entries, Agenda.run grammar (.ofGrammar grammar) rounds agenda = .ok entries ∧
      Running grammar seed ⟨entries, []⟩
  | 0, agenda, _running, enough => by
      have bound := measures.1 agenda.entries
      omega
  | rounds + 1, agenda, running, enough => by
      unfold Agenda.run
      cases waiting : agenda.work with
      | nil => exact ⟨agenda.entries, rfl, waiting ▸ running⟩
      | cons item rest =>
          obtain ⟨after, expands, runningAfter, gained⟩ := running.step numbered productive measures waiting
          rw [waiting, List.length_cons] at enough
          dsimp only
          rw [expands, ok_bind]
          exact Running.run measures rounds after runningAfter (by omega)

omit numbered productive in
/-- Once nothing waits, everything that belongs to the closure is noted. -/
theorem Running.complete {entries : Entries} (running : Running grammar seed ⟨entries, []⟩) {terminal : KindId}
    (expanded : Expanded grammar (Single seed (Construction.ofGrammar grammar).marker) item terminal) :
    ∃ set, entries.lookup item = some set ∧ set.contains terminal = true := by
  induction expanded with
  | kernel same =>
      obtain ⟨rfl, rfl⟩ := same
      exact running.seeded
  | start _ next produced first ih =>
      obtain ⟨set, found, present⟩ := ih
      obtain ⟨target, targetAt, has⟩ := running.passed _ List.not_mem_nil set _ _ found next produced
      refine ⟨target, targetAt, has _ ?_⟩
      rcases Grammar.firstOf_iff.mp first with arises | ⟨vanishes, rfl⟩
      · exact Or.inl arises
      · exact Or.inr ⟨vanishes, present⟩

end Expanding

end Agenda

section Closures

variable {grammar : Grammar} {seed : Item} (numbered : grammar.Numbered) (productive : grammar.unproductive? = none)

omit numbered in
theorem running_seed (seed : Item) {only : TerminalSet} (made : only.MadeFor (capacityOf grammar))
    (members : ∀ terminal, only.contains terminal = (terminal == (Construction.ofGrammar grammar).marker)) :
    Agenda.Running grammar seed ⟨[(seed, only)], [seed]⟩ := by
  have noted : ∀ item set, List.lookup item [(seed, only)] = some set → item = seed ∧ set = only := by
    intro item set found
    obtain ⟨rfl, rfl⟩ := Prod.mk.inj (List.mem_singleton.mp (mem_of_lookup found))
    exact ⟨rfl, rfl⟩
  have here : List.lookup seed [(seed, only)] = some only := List.lookup_cons_self
  constructor
  · constructor
    · exact List.nodup_singleton _
    · intro item set found
      obtain ⟨_, rfl⟩ := noted item set found
      exact made
    · intro item set found
      obtain ⟨rfl, _⟩ := noted item set found
      exact .kernel (List.mem_singleton_self _)
    · intro item set terminal found present
      obtain ⟨rfl, rfl⟩ := noted item set found
      rw [members, beq_iff_eq] at present
      exact .kernel ⟨rfl, present⟩
  · exact ⟨only, here, by rw [members, beq_self_eq_true]⟩
  · intro item member
    rw [List.mem_singleton.mp member]
    exact ⟨only, here⟩
  · intro item idle set _ _ found
    obtain ⟨rfl, _⟩ := noted item set found
    exact absurd (List.mem_singleton_self _) idle

include numbered productive

/-- The closure of an item does not break off. It has the items of the closure, each of them once, with exactly
the lookaheads that they have in the LR(1) closure. -/
theorem itemClosure_exact (seed : Item) : ∃ closure, itemClosure grammar (.ofGrammar grammar) seed = .ok closure ∧
    (closure.map (·.item)).Nodup ∧
    (∀ item, Closed (.ofGrammar grammar) [seed] item ↔ ∃ closed, closed ∈ closure ∧ closed.item = item) ∧
    ∀ closed, closed ∈ closure → closed.lookahead.MadeFor (capacityOf grammar) ∧
      ∀ terminal, closed.lookahead.contains terminal = true ↔
        Expanded grammar (Single seed (Construction.ofGrammar grammar).marker) closed.item terminal := by
  obtain ⟨known, measures⟩ := exists_measure (Agenda.Fact grammar) grammar.productions.size
    (grammar.terminalCount + 2)
  have marker : (Construction.ofGrammar grammar).marker.index < capacityOf grammar := by
    rw [marker_index numbered]
    exact Nat.lt_succ_self _
  have blank := TerminalSet.madeFor_withCapacity (capacityOf grammar)
  obtain ⟨entries, runs, ended⟩ := Agenda.Running.run numbered productive measures
    (grammar.productions.size * (grammar.terminalCount + 2) + 2) _
    (running_seed seed (blank.add _) (markerSet_contains numbered)) (by rw [List.length_singleton]; omega)
  have noted : ∀ closed : Construction.ClosedItem, closed ∈ entries.map (fun entry => ⟨entry.1, entry.2⟩) ↔
      entries.lookup closed.item = some closed.lookahead := by
    intro closed
    constructor
    · intro member
      obtain ⟨entry, among, rfl⟩ := List.mem_map.mp member
      exact lookup_of_mem ended.sound.distinct among
    · intro found
      exact List.mem_map.mpr ⟨_, mem_of_lookup found, rfl⟩
  refine ⟨entries.map fun entry => ⟨entry.1, entry.2⟩, ?_, ?_, fun item => ⟨fun closed => ?_, ?_⟩, ?_⟩
  · unfold itemClosure
    rw [TerminalSet.insertBelow_eq blank marker, ok_bind]
    dsimp only
    rw [runs]
    rfl
  · rw [List.map_map]
    exact ended.sound.distinct
  · obtain ⟨terminal, expanded⟩ := exists_expanded numbered productive closed
      (Construction.ofGrammar grammar).marker
    obtain ⟨set, found, _⟩ := ended.complete expanded
    exact ⟨⟨item, set⟩, (noted _).mpr found, rfl⟩
  · rintro ⟨closed, member, rfl⟩
    exact ended.sound.closed _ _ ((noted closed).mp member)
  · intro closed member
    have found := (noted closed).mp member
    refine ⟨ended.sound.made _ _ found, fun terminal => ⟨ended.sound.due _ _ terminal found, fun expanded => ?_⟩⟩
    obtain ⟨set, again, present⟩ := ended.complete expanded
    cases found.symm.trans again
    exact present

/-- It is the closure that lookaheads are computed from, if no production begins with the item. -/
theorem mem_itemClosure (inner : ∀ id, seed ∉ (Rules.ofGrammar grammar).startsOf id) :
    ∃ closure, itemClosure grammar (.ofGrammar grammar) seed = .ok closure ∧ (closure.map (·.item)).Nodup ∧
      ∀ closed, closed ∈ closure ↔ closed ∈ (Construction.ofGrammar grammar).closure seed := by
  obtain ⟨closure, answers, distinct, whole, exactly⟩ := itemClosure_exact numbered productive seed
  have agree : ∀ closed other, closed ∈ closure → other ∈ (Construction.ofGrammar grammar).closure seed →
      closed.item = other.item → closed = other := by
    rintro ⟨item, lookahead⟩ ⟨_, otherLookahead⟩ here there rfl
    obtain ⟨made, members⟩ := exactly _ here
    have slots : lookahead.slots = slotsOf grammar := made
    have same : lookahead = otherLookahead := by
      apply TerminalSet.eq_of_contains (slots ▸ slotsOf_le numbered)
      · rw [slots, (Construction.closure_sound numbered productive there).1]
      · intro terminal
        rw [Bool.eq_iff_iff, members, Construction.closure_exact numbered productive inner there]
    rw [same]
  refine ⟨closure, answers, distinct, fun closed => ⟨fun member => ?_, fun member => ?_⟩⟩
  · obtain ⟨terminal, expanded⟩ := exists_expanded numbered productive ((whole _).mpr ⟨closed, member, rfl⟩)
      (Construction.ofGrammar grammar).marker
    obtain ⟨other, among, same, _⟩ := Construction.closure_complete numbered productive expanded
    rwa [agree closed other member among same.symm]
  · obtain ⟨other, among, same⟩ := (whole closed.item).mp (closed_of_mem_constructionClosure
      (Rules.ofGrammar_consistent grammar) (List.mem_singleton_self seed) member)
    rwa [← agree other closed among member same]

end Closures

end Guarded

end IncrementalParsing.Lalr
