import IncrementalParsing.Proofs.Parsing.Recall

/-!
What a stack foresees. A stack whose elements recall the text knows the token after each of them, as far down as
there is no error: it is the one that the lexer reads there in the mode that the element leaves behind. So the
topmost elements without an error are told again by a machine without an old tree, provided that repetitions lie
on top of each other only where they are joined at once.
-/

namespace IncrementalParsing

open Green

/-! ### Where repetitions lie on top of each other -/

/-- No two repetitions of a kind lead to a state. -/
def Table.Apart (table : Table) (state : StateId) : Prop :=
  ∀ kind, table.isRepeat kind = true → ¬ table.Joint kind state

/-- Where two repetitions lie on top of each other nothing is done but to join them. -/
def Table.JoinsFirst (table : Table) : Prop :=
  ∀ kind joint terminal, table.isRepeat kind = true → table.Joint kind joint → table.isTerminal terminal = true →
    table.action joint terminal = .error ∨ table.JoinsOn joint terminal

section Tables

variable {table : Table} (first : table.JoinsFirst) {state : StateId} {terminal : KindId}
  (isTerminal : table.isTerminal terminal = true)

include first isTerminal

theorem Table.JoinsFirst.apart_of_shift {target : StateId} (shifts : table.action state terminal = .shift target) :
    table.Apart state := by
  intro kind repeats joint
  rcases first kind state terminal repeats joint isTerminal with none | ⟨id, _, acts, _⟩
  · cases shifts.symm.trans none
  · cases shifts.symm.trans acts

/-- Where something else is reduced no two repetitions lie on top of each other. -/
theorem Table.JoinsFirst.apart_of_reduce {id : ProductionId} {production : ProductionInfo}
    (reduces : table.action state terminal = .reduce id) (found : table.production id = .ok production)
    (other : production.kind ≠ .repeatJoin) : table.Apart state := by
  intro kind repeats joint
  rcases first kind state terminal repeats joint isTerminal with none | ⟨_, _, acts, known, joins⟩
  · cases reduces.symm.trans none
  · cases reduces.symm.trans acts
    cases found.symm.trans known
    exact other joins

end Tables

theorem Table.Numbered.not_isTerminal_of_repeat {table : Table} {kind : KindId}
    (repeats : table.isRepeat kind = true) : table.isTerminal kind = false := by
  have above := of_decide_eq_true (Bool.and_eq_true_iff.mp repeats).1
  refine decide_eq_false ?_
  omega

theorem Table.goto_of_successor {table : Table} {state target : StateId} {kind : KindId}
    (nonterminal : table.isTerminal kind = false) (goes : table.successor state kind = some target) :
    table.goto state kind = some target := by
  unfold Table.successor at goes
  rw [if_neg (by rw [nonterminal]; exact Bool.false_ne_true)] at goes
  exact goes

/-! ### Known stacks -/

structure StackEntry.Loose (job : Job) (entry : StackEntry) (below : ParseStack) (bases : List Node) : Prop where
  led : ∃ under, job.table.goto under entry.element.kind = some below.state
  strung : job.Strung entry.element.kind below.state entry.offset bases
  joins : ∀ first, bases.head? = some first → job.Joins below.state (entry.offset, first)
  clean : entry.element.hasError = false

/-- The repetitions of a rope stand in a row: the first one has led to the state of the entry, or they are all
still to be joined. -/
def StackEntry.Lined (job : Job) (entry : StackEntry) (below : ParseStack) (bases : List Node) : Prop :=
  job.Strung entry.element.kind entry.state entry.offset bases ∨ entry.Loose job below bases

/-- What is known of an entry on a stack: its element recalls the text, and it was begun where it lies. -/
structure StackEntry.Known (job : Job) (entry : StackEntry) (below : ParseStack) : Prop where
  recalls : job.Recalls ⟨entry.offset, entry.element⟩
  erroneous : entry.extra = true → entry.element.hasError = true
  apart : entry.extra = false → job.table.Apart below.state
  begun : entry.extra = false → ∀ node : Node, entry.element = node.element → node.info.preState = below.state
  lined : entry.extra = false → ∀ node : Node, entry.element = node.element → 0 < node.height →
    entry.Lined job below (ropeBases node.element)

inductive ParseStack.Known (job : Job) : ParseStack → Prop
  | empty : Known job []
  | entry {entry : StackEntry} {below : ParseStack} : Known job below → entry.Known job below →
      Known job (entry :: below)

/-- A stack leads to a token ahead. After each entry, as far down as there is no error, the lexer reads what lies
above it. -/
def ParseStack.Expects (job : Job) : Green.Token → ParseStack → Prop
  | _, [] => True
  | ahead, entry :: below => entry.extra = false → job.Lexes entry.stop (entry.modeAfter job.table) ahead ∧
      (entry.element.hasError = false → entry.element.isFragile = false ∧
        Expects job (before ahead entry.element.tokens) below)

/-- A token is due after a stack in the mode that the element on top leaves behind, and in the same one after each
element below it as far down as there are no tokens and no error. -/
def ParseStack.Dues (table : Table) (mode : LexMode) : ParseStack → Prop
  | [] => True
  | entry :: below => entry.extra = false → entry.modeAfter table = mode ∧
      (entry.element.hasError = false → entry.element.tokens = [] → Dues table mode below)

namespace ParseStack

variable {job : Job}

theorem Dues.clean {table : Table} {mode : LexMode} : ∀ (top : List StackEntry) {below : ParseStack},
    Dues table mode (top ++ below) → (∀ entry, entry ∈ top → entry.extra = false ∧ entry.element.hasError = false) →
    tokens top = [] → Dues table mode below
  | [], _, dues, _, _ => dues
  | entry :: rest, _, dues, each, empty => by
      rw [tokens_cons] at empty
      obtain ⟨others, here⟩ := List.append_eq_nil_iff.mp empty
      obtain ⟨plain, clean⟩ := each entry List.mem_cons_self
      exact Dues.clean rest ((dues plain).2 clean here) (fun other member => each other (List.mem_cons_of_mem _ member))
        others

theorem Dues.dueAfter {table : Table} {mode : LexMode} : ∀ (top : List StackEntry) {below : ParseStack},
    Dues table mode (top ++ below) → (∀ entry, entry ∈ top → entry.extra = false ∧ entry.element.hasError = false) →
    tokens top ≠ [] → ∀ first, ParseStack.dueAfter table first top = mode
  | [], _, _, _, some_, _ => absurd tokens_nil some_
  | entry :: rest, _, dues, each, some_, first => by
      obtain ⟨plain, clean⟩ := each entry List.mem_cons_self
      by_cases here : entry.element.tokens = []
      · rw [tokens_cons, here, List.append_nil] at some_
        rw [dueAfter_of_empty here]
        exact Dues.dueAfter rest ((dues plain).2 clean here)
          (fun other member => each other (List.mem_cons_of_mem _ member)) some_ first
      · rw [dueAfter_of_ne_nil here]
        exact (dues plain).1

theorem Known.tail {entry : StackEntry} {below : ParseStack} (known : Known job (entry :: below)) :
    Known job below := by
  cases known with
  | entry tail _ => exact tail

theorem Known.here {entry : StackEntry} {below : ParseStack} (known : Known job (entry :: below)) :
    entry.Known job below := by
  cases known with
  | entry _ here => exact here

theorem Known.lower : ∀ (top : List StackEntry) {below : ParseStack}, Known job (top ++ below) → Known job below
  | [], _, known => known
  | _ :: rest, _, known => known.tail.lower rest

theorem Known.core {stack : ParseStack} (known : Known job stack) : Known job (stack.dropWhile (·.extra)) :=
  Known.lower (stack.takeWhile (·.extra)) (by rw [List.takeWhile_append_dropWhile]; exact known)

theorem Known.recalls : ∀ {stack : ParseStack}, Known job stack →
    ∀ entry, entry ∈ stack → job.Recalls ⟨entry.offset, entry.element⟩
  | _ :: _, known, other, member => by
      rcases List.mem_cons.mp member with rfl | later
      · exact known.here.recalls
      · exact known.tail.recalls other later

theorem Known.erroneous : ∀ {stack : ParseStack}, Known job stack →
    ∀ entry, entry ∈ stack → entry.extra = true → entry.element.hasError = true
  | _ :: _, known, other, member => by
      rcases List.mem_cons.mp member with rfl | later
      · exact known.here.erroneous
      · exact known.tail.erroneous other later

theorem Known.contents {table : Table} : ∀ (top : List StackEntry) {below : ParseStack}, Follows table (top ++ below) →
    Known job (top ++ below) → job.RecallsAll (stop below) (contents top.reverse)
  | [], _, _, _ => Job.recallsAll_nil
  | top :: rest, below, follows, known => by
      have offset : top.offset = stop below + totalLength rest :=
        follows.rests.offset_eq.trans (follows.tail.stop_append rest below)
      rw [List.reverse_cons, contents_append, Job.recallsAll_append, lengthOf_contents, totalLength_reverse,
        ← offset, contents_cons, Job.recallsAll_cons]
      exact ⟨known.tail.contents rest follows.tail, known.here.recalls, Job.recallsAll_nil⟩

theorem Expects.alike : ∀ {stack : ParseStack} {ahead other : Green.Token}, Expects job ahead stack →
    ahead.bare = other.bare → ahead.textLength + ahead.lookahead ≤ other.textLength + other.lookahead →
    Expects job other stack
  | [], _, _, _, _, _ => trivial
  | entry :: below, ahead, other, expects, same, further => by
      intro plain
      obtain ⟨⟨token, lexed, seen, bound⟩, deeper⟩ := expects plain
      refine ⟨⟨token, lexed, seen.trans same, by omega⟩, fun clean => ?_⟩
      obtain ⟨solid, rest⟩ := deeper clean
      refine ⟨solid, ?_⟩
      cases tokens : entry.element.tokens with
      | nil =>
          rw [tokens] at rest
          exact rest.alike same further
      | cons first others =>
          rw [tokens] at rest
          exact rest

theorem Expects.clean : ∀ (top : List StackEntry) {below : ParseStack} {ahead : Green.Token},
    Expects job ahead (top ++ below) →
    (∀ entry, entry ∈ top → entry.extra = false ∧ entry.element.hasError = false) →
    (∀ entry, entry ∈ top → entry.element.isFragile = false) ∧ Expects job (before ahead (tokens top)) below
  | [], _, _, expects, _ => ⟨fun _ none => absurd none List.not_mem_nil, by rw [tokens_nil]; exact expects⟩
  | entry :: rest, below, ahead, expects, each => by
      obtain ⟨plain, clean⟩ := each entry List.mem_cons_self
      obtain ⟨solid, deeper⟩ := (expects plain).2 clean
      obtain ⟨others, last⟩ := Expects.clean rest deeper fun other member => each other (List.mem_cons_of_mem _ member)
      refine ⟨fun other member => ?_, by rw [tokens_cons, before_append]; exact last⟩
      rcases List.mem_cons.mp member with rfl | later
      · exact solid
      · exact others other later

end ParseStack

/-! ### Telling the top of a stack again -/

theorem Table.shift_of_successor {table : Table} {state target : StateId} {kind : KindId}
    (isTerminal : table.isTerminal kind = true) (goes : table.successor state kind = some target) :
    table.action state kind = .shift target := by
  unfold Table.successor at goes
  rw [if_pos isTerminal] at goes
  split at goes
  · rename_i shifts
    cases goes
    exact shifts
  · cases goes

theorem lengthOf_contributions {table : Table} : ∀ {entries : List StackEntry}, ParseStack.Sound table entries →
    lengthOf (entries.flatMap (fun entry => spliced table none entry.element)) = totalLength entries
  | [], _ => rfl
  | entry :: rest, sound => by
      rw [List.flatMap_cons, lengthOf_append, lengthOf_spliced (sound entry List.mem_cons_self),
        lengthOf_contributions sound.tail, totalLength_cons]

section Telling

variable {job : Job} {items : StateId → Lalr.Item → Prop} (chart : job.table.Chart items) (sound : job.Sound)

include chart sound

/-- An intact node on a stack is told again, unless two repetitions lie on top of each other there. -/
theorem StackEntry.Known.foretells {entry : StackEntry} {below : ParseStack} (known : entry.Known job below)
    (rests : entry.RestsOn job.table below) (elementSound : entry.element.Sound job.table)
    (plain : entry.extra = false) (apart : job.table.Apart entry.state) {node : Node}
    (isNode : entry.element = node.element) (intact : node.Intact) :
    ∃ next, job.Foretells entry.offset node entry.state next := by
  have recalls := known.recalls
  have pushed := rests.pushed plain
  have begun := known.begun plain node isNode
  have lined := known.lined plain node isNode
  rw [isNode] at recalls pushed elementSound
  obtain ⟨accounts, _⟩ := Job.recalls_node.mp recalls
  rcases Nat.eq_zero_or_pos node.height with ordinary | positive
  · obtain ⟨target, next, foretells⟩ := accounts.holds ordinary intact
    have goes := foretells.goes
    rw [begun] at goes
    cases pushed.symm.trans (Table.successor_of_goto goes)
    exact ⟨next, foretells⟩
  · have repeats := accounts.repeats.mpr positive
    have goes : job.table.goto below.state node.kind = some entry.state :=
      Table.goto_of_successor (Table.Numbered.not_isTerminal_of_repeat repeats) pushed
    have numbered : job.table.Numbered := sound.table
    have tells := (accounts.paired positive).tells (numbered.ne_error_of_repeat repeats)
    rcases lined positive with strung | loose
    · rw [isNode] at strung
      exact strung.foretells chart sound repeats ⟨elementSound, positive⟩ tells rfl (by rw [begun]; exact goes) intact
    · obtain ⟨under, led⟩ := loose.led
      rw [isNode] at led
      exact absurd ⟨under, below.state, led, goes⟩ (apart node.kind repeats)

/-- An intact entry without a token on a stack is derived from nothing, unless two repetitions lie on top of each
other there. -/
theorem StackEntry.Known.blank {entry : StackEntry} {below : ParseStack} (known : entry.Known job below)
    (rests : entry.RestsOn job.table below) (elementSound : entry.element.Sound job.table)
    (plain : entry.extra = false) (apart : job.table.Apart entry.state) (clean : entry.element.hasError = false)
    (solid : entry.element.isFragile = false) (empty : entry.element.tokens = []) :
    job.table.Blank entry.element.kind := by
  cases shape : entry.element with
  | token leaf =>
      rw [shape] at empty
      cases empty
  | node head children =>
      have isNode : entry.element = (Node.mk head children).element := shape
      rw [isNode] at clean solid empty
      obtain ⟨_, foretells⟩ := known.foretells chart sound rests elementSound plain apart isNode ⟨clean, solid⟩
      exact foretells.blank empty

/-- Entries without an error on top of a stack that hold no tokens are derived from nothing. -/
theorem ParseStack.Expects.blank : ∀ (top : List StackEntry) {below : ParseStack} {ahead : Green.Token},
    Follows job.table (top ++ below) → Sound job.table (top ++ below) → Known job (top ++ below) →
    Expects job ahead (top ++ below) →
    (∀ entry, entry ∈ top → entry.extra = false ∧ entry.element.hasError = false) →
    job.table.Apart (state (top ++ below)) → tokens top = [] →
    ∀ entry, entry ∈ top → job.table.Blank entry.element.kind
  | [], _, _, _, _, _, _, _, _, _ => fun _ none => absurd none List.not_mem_nil
  | entry :: rest, below, ahead, follows, stackSound, known, expects, each, apart, empty => by
      obtain ⟨plain, clean⟩ := each entry List.mem_cons_self
      obtain ⟨solid, expectsRest⟩ := (expects plain).2 clean
      rw [tokens_cons] at empty
      obtain ⟨others, here⟩ := List.append_eq_nil_iff.mp empty
      intro other member
      rcases List.mem_cons.mp member with rfl | later
      · exact known.here.blank chart sound follows.rests (stackSound other List.mem_cons_self) plain apart clean solid
          here
      · exact Expects.blank rest follows.tail stackSound.tail known.tail expectsRest
          (fun other member => each other (List.mem_cons_of_mem _ member)) (known.here.apart plain) others other later

theorem ParseStack.Expects.retells (reports : job.Reports) : ∀ (top : List StackEntry) {below : ParseStack}
    {ahead : Green.Token} {stop : Nat}, Follows job.table (top ++ below) → Sound job.table (top ++ below) →
    Known job (top ++ below) → Expects job ahead (top ++ below) →
    (∀ entry, entry ∈ top → entry.extra = false ∧ entry.element.hasError = false) →
    job.table.Apart (state (top ++ below)) → ParseStack.stop (top ++ below) ≤ job.text.size →
    Within stop below.stop (top.reverse.flatMap (fun entry => spliced job.table none entry.element)) →
    ParseStack.stop (top ++ below) + ahead.textLength + ahead.lookahead ≤ stop →
    job.Retells ahead top below.state below.stop stop
  | [], below, ahead, stop, _, _, _, _, _, _, _, _, _ => .nil ahead below.state below.stop stop
  | entry :: rest, below, ahead, stop, follows, stackSound, known, expects, each, apart, inside, within, bound => by
      obtain ⟨plain, clean⟩ := each entry List.mem_cons_self
      obtain ⟨lexes, deeper⟩ := expects plain
      obtain ⟨solid, expectsRest⟩ := deeper clean
      have rests := follows.rests
      have elementSound : entry.element.Sound job.table := stackSound entry List.mem_cons_self
      have restSound : Sound job.table rest.reverse := fun other member =>
        stackSound other (List.mem_cons_of_mem _ (List.mem_append_left _ (List.mem_reverse.mp member)))
      have stopRest : ParseStack.stop (rest ++ below) = below.stop + totalLength rest :=
        follows.tail.stop_append rest below
      have offset : entry.offset = below.stop + totalLength rest := rests.offset_eq.trans stopRest
      rw [List.reverse_cons, List.flatMap_append, List.flatMap_singleton, within_append,
        lengthOf_contributions restSound, totalLength_reverse, ← offset] at within
      obtain ⟨withinRest, withinHere⟩ := within
      change entry.offset + entry.element.textLength + ahead.textLength + ahead.lookahead ≤ stop at bound
      change entry.offset + entry.element.textLength ≤ job.text.size at inside
      have stateRest : state (rest ++ below) = stateOver below.state rest := state_append rest below
      have later : job.Retells (before ahead entry.element.tokens) rest below.state below.stop stop := by
        refine Expects.retells reports rest follows.tail (stackSound.tail) known.tail expectsRest
          (fun other member => each other (List.mem_cons_of_mem _ member)) (known.here.apart plain)
          (by omega) withinRest ?_
        have length := lengthOfTokens_tokens elementSound
        have reached := withinHere.reach_le (everywhere_spliced elementSound)
        rw [tokensOf_spliced] at reached
        cases tokens : entry.element.tokens with
        | nil =>
            rw [tokens, lengthOfTokens_nil] at length
            rw [before_nil]
            omega
        | cons first others =>
            rw [tokens] at reached
            have head : entry.offset + first.textLength + first.lookahead ≤ reach entry.offset (first :: others) :=
              reach_head_le rfl entry.offset
            rw [before_cons]
            omega
      change job.Retells ahead ([entry] ++ rest) below.state below.stop stop
      refine Job.Retells.append ?_ ?_ fun other member => (each other (List.mem_cons_of_mem _ member)).1
      · rw [tokens_cons, tokens_nil, List.nil_append]
        exact later
      · obtain ⟨token, lexed, seen, examined⟩ := lexes
        change token.examinedEnd ≤
          entry.offset + entry.element.textLength + ahead.textLength + ahead.lookahead at examined
        rw [← offset, ← stateRest]
        have pushed := rests.pushed plain
        obtain ⟨entryState, element, extra, place⟩ := entry
        change extra = false at plain
        subst plain
        cases element with
        | token leaf =>
            have terminal : job.table.isTerminal leaf.kind = true := elementSound.here.2.1
            exact (Job.Retells.shift sound reports (Table.shift_of_successor terminal pushed) inside lexed
              (by omega) place).alike seen.symm
        | node head children =>
            have isNode : Element.node head children = (Node.mk head children).element := rfl
            obtain ⟨next, foretells⟩ := known.here.foretells chart sound rests elementSound rfl apart isNode
              ⟨clean, solid⟩
            have begun : head.info.preState = ParseStack.state (rest ++ below) :=
              known.here.begun rfl ⟨head, children⟩ rfl
            cases foretells.lexed.symm.trans lexed
            rw [← begun]
            exact (foretells.retells stop withinHere (by omega)).alike seen.symm

end Telling

end IncrementalParsing
