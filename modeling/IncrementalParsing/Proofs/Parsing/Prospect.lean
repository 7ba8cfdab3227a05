import IncrementalParsing.Proofs.Lexing.Trivia
import IncrementalParsing.Proofs.Parsing.Anticipation
import IncrementalParsing.Proofs.Parsing.Cheapest
import IncrementalParsing.Proofs.Parsing.Grammatical
import IncrementalParsing.Proofs.Parsing.Heeding

/-!
Machines with an old tree. What such a machine has on its stack recalls the text, whether it was read or comes
from a tree of another text, and its lookahead is what the lexer would answer. So the tree that it returns
recalls the text as well, and can serve for the next text in its turn.
-/

namespace IncrementalParsing

open Green

/-! ### Old elements -/

section First

variable {job : Job}

theorem Job.Recalls.lexes_first : ∀ (element : Element) {offset : Nat} {first : Green.Token}
    {rest : List Green.Token}, job.Recalls ⟨offset, element⟩ → element.Sound job.table →
    element.tokens = first :: rest → job.Lexes offset first.lexMode first := by
  refine Element.induct ?_ ?_
  · intro leaf offset first rest recalls _ tokens
    cases tokens
    exact Job.recalls_token.mp recalls
  · intro head children ih offset first rest recalls sound tokens
    have inside := recalls.inside
    have each := sound.inside
    change tokensOf children = _ at tokens
    change job.RecallsAll offset children at inside
    clear sound recalls
    induction children generalizing offset with
    | nil => cases tokens
    | cons child others later =>
        obtain ⟨here, behind⟩ := Job.recallsAll_cons.mp inside
        have childSound := each child List.mem_cons_self
        cases shape : child.element.tokens with
        | cons leaf leaves =>
            have same : leaf = first := by
              rw [tokensOf_cons, shape] at tokens
              exact (List.cons.inj tokens).1
            rw [← same]
            exact ih child List.mem_cons_self here childSound shape
        | nil =>
            have empty := lengthOfTokens_tokens childSound
            rw [shape, lengthOfTokens_nil] at empty
            rw [← empty, Nat.add_zero] at behind
            rw [tokensOf_cons, shape, List.nil_append] at tokens
            exact later (fun other member => ih other (List.mem_cons_of_mem _ member))
              (fun other member => each other (List.mem_cons_of_mem _ member)) tokens behind

end First

/-- A cursor over a tree that recalls another text, of which a change has made this one. -/
structure ReuseCursor.Recalls (prior job : Job) (cursor : ReuseCursor) : Prop where
  fits : cursor.Fits prior.table prior.text.size job.text.size
  describes : cursor.change.Describes prior.text job.text
  pending : ∀ place, place ∈ cursor.pending → prior.Recalls place

section Cursors

variable {prior job : Job} {cursor : ReuseCursor}

theorem ReuseCursor.seek_recalls (change : Change) (target : Nat) (pending : List OldElement)
    (recalls : ∀ place, place ∈ pending → prior.Recalls place) :
    ∀ place, place ∈ (seek change target pending).2 → prior.Recalls place := by
  fun_induction seek change target pending with
  | case1 => exact recalls
  | case2 old rest behind ih => exact ih fun other member => recalls other (List.mem_cons_of_mem _ member)
  | case3 old rest reached beyond => exact recalls
  | case4 old rest reached within found => exact recalls
  | case5 old rest reached within missed leaf shape => exact recalls
  | case6 old rest reached within missed head children shape ih =>
      refine ih fun other member => ?_
      rcases List.mem_append.mp member with inside | others
      · have here : prior.Recalls ⟨old.start, old.element⟩ := recalls old List.mem_cons_self
        rw [shape] at here
        exact here.inside other inside
      · exact recalls other (List.mem_cons_of_mem _ others)

theorem ReuseCursor.Recalls.descend (recalls : cursor.Recalls prior job) : cursor.descend.Recalls prior job := by
  refine ⟨descend_fits recalls.fits, ?_, ?_⟩
  · have describes := recalls.describes
    unfold ReuseCursor.descend
    split
    · exact describes
    · exact describes
  · unfold ReuseCursor.descend
    split
    · rename_i start head first others rest shape
      have each := recalls.pending
      rw [shape] at each
      intro place member
      rcases List.mem_append.mp member with inside | behind
      · exact (each _ List.mem_cons_self).inside place inside
      · exact each place (List.mem_cons_of_mem _ behind)
    · exact recalls.pending

variable (sound : job.Sound) (reports : job.Reports) (priorReports : prior.Reports)
  (language : job.language = prior.language)

include sound reports priorReports language

theorem ReuseCursor.Recalls.candidate (recalls : cursor.Recalls prior job) {position : Nat}
    (begins : position ≤ job.text.size) : (cursor.candidate position).2.Recalls prior job ∧
      ∀ element, (cursor.candidate position).1 = some element → job.Recalls ⟨position, element⟩ ∧
        element.hasError = false ∧ element.isFragile = false := by
  have priorSound : prior.Sound := by
    change prior.language.Sound
    rw [← language]
    exact sound
  have offered := candidate_fits recalls.fits position
  refine ⟨⟨offered.1, ?_, ?_⟩, ?_⟩
  · unfold ReuseCursor.candidate
    split
    · exact recalls.describes
    · exact recalls.describes
  · unfold ReuseCursor.candidate
    split
    · exact recalls.pending
    · exact seek_recalls _ _ _ recalls.pending
  · intro element found
    obtain ⟨elementSound, positive, _⟩ := offered.2 element found
    unfold ReuseCursor.candidate at found
    split at found
    · cases found
    · rename_i target place
      obtain ⟨_, offers⟩ := seek_fits cursor.change target cursor.pending recalls.fits.pending
      obtain ⟨reusable, fits, head⟩ := offers element found
      have reusable := OldElement.isReusable_iff.mp reusable
      have before : prior.Recalls ⟨target, element⟩ :=
        seek_recalls _ _ _ recalls.pending _ (List.mem_of_head? head)
      refine ⟨?_, reusable.clean, reusable.solid⟩
      refine before.elsewhere priorSound priorReports language reports element elementSound fits.stop_le begins ?_
      intro distance within
      have same := reusable.agree recalls.fits.change recalls.describes place distance (by
        dsimp only
        omega)
      exact same.symm

end Cursors

/-! ### Lookaheads -/

/-- A lookahead is what the lexer answers, or an intact element of which it answers the first token. -/
def Lookahead.Foreseen (job : Job) (position : Nat) : Lookahead → Prop
  | .lexed token => job.lex position token.lexMode = .ok token
  | .reused element mode => job.Recalls ⟨position, element⟩ ∧ element.hasError = false ∧
      element.isFragile = false ∧ ∃ first rest, element.tokens = first :: rest ∧ job.Lexes position mode first

/-- What a machine with an old tree knows: its stack and its lookahead, and what it can take from the tree. -/
structure Machine.Foresees (prior job : Job) (machine : Machine) : Prop where
  known : machine.stack.Known job
  expects : ∀ fresh, job.lex machine.position (machine.dueMode job.table) = .ok fresh →
    machine.stack.Expects job (fresh.toGreen 0)
  dues : machine.stack.Dues job.table (machine.dueMode job.table)
  pending : ∀ lookahead, machine.pending = some lookahead →
    machine.mode = some lookahead.lexMode ∧ lookahead.Foreseen job machine.position
  reuse : ∀ cursor, machine.reuse = some cursor → cursor.Recalls prior job

theorem Lookahead.kind_of_tokens {element : Element} {first : Green.Token} {rest : List Green.Token}
    (tokens : element.tokens = first :: rest) (mode : LexMode) :
    (Lookahead.reused element mode).kind = first.kind := by
  change ((element.firstToken?.map (·.kind)).getD .error) = first.kind
  rw [Element.firstToken?_eq, tokens]
  rfl

theorem Lookahead.Foreseen.stands {job : Job} {position : Nat} {lookahead : Lookahead}
    (foreseen : lookahead.Foreseen job position) : ∃ fresh, job.lex position lookahead.lexMode = .ok fresh ∧
      fresh.kind = lookahead.kind ∧ fresh.examinedEnd ≤ lookahead.examinedEnd position := by
  cases lookahead with
  | lexed token => exact ⟨token, foreseen, rfl, Nat.le_refl _⟩
  | reused element mode =>
      obtain ⟨_, _, _, first, rest, tokens, fresh, lexed, seen, within⟩ := foreseen
      refine ⟨fresh, lexed, ?_, ?_⟩
      · rw [Lookahead.kind_of_tokens tokens]
        exact (LexedToken.bare_eq_iff.mp seen).1
      · unfold Lookahead.examinedEnd
        dsimp only
        rw [Element.firstToken?_eq, tokens]
        exact within

namespace Machine

section Looking

variable {prior job : Job} {machine : Machine}

theorem Foresees.descend (foresees : machine.Foresees prior job) : machine.descend.Foresees prior job := by
  refine ⟨foresees.known, foresees.expects, foresees.dues, foresees.pending, ?_⟩
  intro cursor here
  obtain ⟨before, found, rfl⟩ := Option.map_eq_some_iff.mp here
  exact (foresees.reuse before found).descend

variable (accepted : job.language.Accepted) (reports : job.Reports) (priorReports : prior.Reports)
  (language : job.language = prior.language)

include accepted reports priorReports language

theorem Foresees.offer (fits : machine.Fits job) (foresees : machine.Foresees prior job) :
    machine.offer.2.Foresees prior job ∧ ∀ element, machine.offer.1 = some element →
      job.Recalls ⟨machine.position, element⟩ ∧ element.hasError = false ∧ element.isFragile = false := by
  unfold Machine.offer
  split
  · exact ⟨foresees, fun _ none => by cases none⟩
  · rename_i cursor here
    obtain ⟨kept, found⟩ := (foresees.reuse cursor here).candidate accepted.sound reports priorReports language
      fits.inside
    refine ⟨⟨foresees.known, foresees.expects, foresees.dues, foresees.pending, ?_⟩, found⟩
    intro other same
    cases same
    exact kept

theorem Foresees.lookahead (fits : machine.Fits job) (foresees : machine.Foresees prior job) {lookahead : Lookahead}
    {next : Machine} (done : machine.lookahead job = .ok (lookahead, next)) :
    next.Foresees prior job ∧ next.mode = some lookahead.lexMode ∧
      machine.dueMode job.table = lookahead.lexMode ∧ lookahead.Foreseen job machine.position := by
  have sound := accepted.sound
  let asking : Machine := { machine with mode := some (machine.dueMode job.table) }
  have askingFits : asking.Fits job :=
    ⟨fits.follows, fits.sound, fits.stop_eq, fits.inside, fits.pending, fits.reuse⟩
  have asks (idle : machine.pending = none) : asking.Foresees prior job :=
    ⟨foresees.known, foresees.expects, foresees.dues, (fun _ waiting => by cases idle.symm.trans waiting),
      foresees.reuse⟩
  have mode : asking.offer.2.mode = some (machine.dueMode job.table) := by
    unfold Machine.offer
    split <;> rfl
  cases lookahead_sees done with
  | waiting here =>
      obtain ⟨mode, foreseen⟩ := foresees.pending lookahead here
      refine ⟨⟨foresees.known, foresees.expects, foresees.dues, (fun _ none => by cases none), foresees.reuse⟩, mode,
        ?_, foreseen⟩
      unfold dueMode
      rw [mode]
      rfl
  | @offered element first idle here begins repeats =>
      obtain ⟨kept, offers⟩ := (asks idle).offer accepted reports priorReports language askingFits
      obtain ⟨_, _, _, _, proper⟩ := offer_fits askingFits idle
      rw [Element.firstToken?_eq] at begins
      obtain ⟨rest, tokens⟩ := List.head?_eq_some_iff.mp begins
      obtain ⟨recalls, clean, solid⟩ := offers element here
      have leaf := recalls.lexes_first element (proper element here).1 tokens
      refine ⟨kept, mode, rfl, recalls, clean, solid, first, rest, tokens, ?_⟩
      rcases repeats with same | ⟨token, lexed, confirmed⟩
      · exact same ▸ leaf
      · unfold confirms at confirmed
        simp only [Bool.and_eq_true, beq_iff_eq, decide_eq_true_eq] at confirmed
        obtain ⟨⟨kind, length⟩, near⟩ := confirmed
        obtain ⟨before, lexedBefore, seen, _⟩ := leaf
        obtain ⟨kindToo, leading, _⟩ := LexedToken.bare_eq_iff.mp seen
        have trivia := accepted.leading_eq (Job.next_of_lex lexed) (Job.next_of_lex lexedBefore)
          (kind.trans kindToo.symm)
        exact ⟨token, lexed, LexedToken.bare_eq_iff.mpr ⟨kind, trivia.trans leading, length⟩, near⟩
  | @lexed token idle lexed =>
      obtain ⟨kept, _⟩ := (asks idle).offer accepted reports priorReports language askingFits
      have due : machine.dueMode job.table = token.lexMode := (Job.lex_fits sound fits.inside lexed).mode_eq.symm
      refine ⟨kept, by rw [mode, due]; rfl, due, ?_⟩
      change job.lex machine.position token.lexMode = .ok token
      rw [← due]
      exact lexed

end Looking

/-! ### Steps -/

structure Considers (prior job : Job) (machine : Machine) (lookahead : Lookahead) : Prop where
  fits : machine.Fits job
  foresees : machine.Foresees prior job
  idle : machine.pending = none
  mode : machine.mode = some lookahead.lexMode
  proper : lookahead.Fits job machine.position
  foreseen : lookahead.Foreseen job machine.position

theorem Foresees.considers {prior job : Job} {machine : Machine} (accepted : job.language.Accepted)
    (reports : job.Reports) (priorReports : prior.Reports) (language : job.language = prior.language)
    (fits : machine.Fits job) (foresees : machine.Foresees prior job) {lookahead : Lookahead} {next : Machine}
    (done : machine.lookahead job = .ok (lookahead, next)) : next.Considers prior job lookahead := by
  have looks := lookahead_fits job accepted.sound fits done
  obtain ⟨kept, mode, _, foreseen⟩ := foresees.lookahead accepted reports priorReports language fits done
  exact ⟨looks.fits, kept, looks.idle, mode, looks.lookahead, looks.position_eq ▸ foreseen⟩

theorem reduce_as {job : Job} {machine : Machine} (sound : job.Sound) (declared : job.table.Declared)
    (fits : machine.Fits job) {lookahead : Lookahead} (token : LexedToken) (kind : token.kind = lookahead.kind)
    (mode : token.lexMode = lookahead.lexMode) (examined : token.examinedEnd = lookahead.examinedEnd machine.position)
    {id : ProductionId} (acts : job.table.action machine.stack.state lookahead.kind = .reduce id) {next : Machine}
    (done : machine.reduce job id lookahead = .ok next) : ∃ production taken below target node,
      machine.Reduces job token production taken below target node ∧ next = { machine with
        stack := (machine.reduced token below target node).stack
        pending := some lookahead
        nextSerial := machine.nextSerial + 1 } := by
  obtain ⟨production, stack, found, reduced, rfl⟩ := reduce_ok.mp done
  have again : (machine.decidesOn token).reduce job id (.lexed token) = .ok { machine.decidesOn token with
      stack
      pending := some (.lexed token)
      nextSerial := machine.nextSerial + 1 } := by
    refine reduce_ok.mpr ⟨production, stack, found, ?_, rfl⟩
    rw [← mode, ← examined] at reduced
    exact reduced
  obtain ⟨production, taken, below, target, node, reduces, same⟩ :=
    reduce_reduces sound declared fits (kind ▸ acts) again
  exact ⟨production, taken, below, target, node, reduces, by rw [← same]⟩

section Steps

variable {prior job : Job} {machine : Machine} {lookahead : Lookahead} {items : StateId → Lalr.Item → Prop}
  (chart : job.table.Chart items) (accepted : job.language.Accepted) (first : job.table.JoinsFirst)
  (reports : job.Reports) (considers : machine.Considers prior job lookahead)

include accepted considers

theorem Considers.expects : ∃ fresh, job.lex machine.position lookahead.lexMode = .ok fresh ∧
    fresh.kind = lookahead.kind ∧ fresh.lexMode = lookahead.lexMode ∧
    fresh.examinedEnd ≤ lookahead.examinedEnd machine.position ∧ machine.stack.Expects job (fresh.toGreen 0) := by
  obtain ⟨fresh, lexed, kind, further⟩ := considers.foreseen.stands
  refine ⟨fresh, lexed, kind, (Job.lex_fits accepted.sound considers.fits.inside lexed).mode_eq, further,
    considers.foresees.expects fresh ?_⟩
  unfold dueMode
  rw [considers.mode]
  exact lexed

include chart first reports

theorem Considers.reduce {id : ProductionId} {next : Machine}
    (acts : job.table.action machine.stack.state lookahead.kind = .reduce id)
    (done : machine.reduce job id lookahead = .ok next) : next.Foresees prior job := by
  have sound := accepted.sound
  obtain ⟨fresh, lexed, kind, mode, further, expects⟩ := considers.expects accepted
  let token : LexedToken := { fresh with examinedEnd := lookahead.examinedEnd machine.position }
  obtain ⟨production, taken, below, target, node, reduces, rfl⟩ :=
    reduce_as sound accepted.declared considers.fits token kind mode rfl acts done
  have isTerminal : job.table.isTerminal token.kind = true := by
    change job.table.isTerminal fresh.kind = true
    rw [kind]
    exact considers.proper.terminal sound
  have stands : token.StandsFor job machine.position fresh := ⟨mode.symm ▸ lexed, rfl, further⟩
  have due : machine.dueMode job.table = lookahead.lexMode := by
    unfold dueMode
    rw [considers.mode]
    rfl
  have dues : machine.stack.Dues job.table token.lexMode := by
    rw [show token.lexMode = lookahead.lexMode from mode, ← due]
    exact considers.foresees.dues
  refine ⟨?_, ?_, ?_, ?_, considers.foresees.reuse⟩
  · exact reduces.known_reduced chart sound reports first considers.fits isTerminal considers.foresees.known stands
      expects dues
  · intro other lexedToo
    change job.lex machine.position (machine.mode.getD _) = _ at lexedToo
    rw [considers.mode] at lexedToo
    cases lexed.symm.trans lexedToo
    exact reduces.expects_reduced chart sound reports first considers.fits isTerminal considers.foresees.known stands
      expects dues
  · have after := reduces.dues_reduced chart sound reports first considers.fits isTerminal considers.foresees.known
      stands expects dues
    rw [show token.lexMode = machine.dueMode job.table from mode.trans due.symm] at after
    unfold dueMode at after ⊢
    rw [considers.mode] at after ⊢
    exact after
  · intro other same
    cases same
    exact ⟨considers.mode, considers.foreseen⟩

omit chart reports in
theorem Considers.apart {target : StateId}
    (acts : job.table.action machine.stack.state lookahead.kind = .shift target) :
    job.table.Apart machine.stack.state :=
  first.apart_of_shift (considers.proper.terminal accepted.sound) acts

omit chart first in
/-- After an element has been pushed that begins with the token ahead, whatever is read behind it is expected. -/
theorem Considers.pushes {element : Element} {target : StateId} {leaf : Green.Token} {rest : List Green.Token}
    (tokens : element.tokens = leaf :: rest) (lexes : job.Lexes machine.position lookahead.lexMode leaf)
    (solid : element.isFragile = false) (known : (machine.stack.push target element).Known job) {next : Machine}
    (stack : next.stack = machine.stack.push target element)
    (position : next.position = machine.position + element.textLength) (inside : next.position ≤ job.text.size)
    (due : next.dueMode job.table = StackEntry.modeAfter job.table ⟨target, element, false, machine.stack.stop⟩)
    (pending : next.pending = none) (reuse : next.reuse = machine.reuse) : next.Foresees prior job := by
  have sound := accepted.sound
  refine ⟨by rw [stack]; exact known, fun other lexed => ?_, ?_,
    fun _ waiting => (by cases pending.symm.trans waiting), by rw [reuse]; exact considers.foresees.reuse⟩
  swap
  · rw [stack, due]
    exact fun _ => ⟨rfl, fun _ empty => by rw [tokens] at empty; cases empty⟩
  have behind := Job.Lexes.of_lex sound reports inside lexed 0
  rw [due, position, ← considers.fits.stop_eq] at behind
  rw [stack]
  refine .push behind solid ?_
  rw [tokens, before_cons]
  obtain ⟨fresh, lexedFresh, _, _, _, expects⟩ := considers.expects accepted
  obtain ⟨token, lexedToken, seen, examined⟩ := lexes
  cases lexedFresh.symm.trans lexedToken
  have ends := (Job.lex_fits sound considers.fits.inside lexedFresh).stop_eq
  have reaches := Job.stop_le_of_lex reports considers.fits.inside lexedFresh
  refine expects.alike seen ?_
  change fresh.length + fresh.lookahead ≤ _
  unfold LexedToken.lookahead
  omega

omit chart in
theorem Considers.shift {token : LexedToken} (same : lookahead = .lexed token) {target : StateId}
    (acts : job.table.action machine.stack.state token.kind = .shift target)
    (after : (machine.shiftToken target token).Fits job) :
    (machine.shiftToken target token).Foresees prior job := by
  subst same
  have sound := accepted.sound
  have lexed : job.lex machine.position token.lexMode = .ok token := considers.foreseen
  have lexes := Job.Lexes.of_lex sound reports considers.fits.inside lexed machine.nextSerial
  have known : (machine.stack.push target (.token (token.toGreen machine.nextSerial))).Known job := by
    refine considers.foresees.known.push (Job.recalls_token.mpr ?_) (considers.apart accepted first acts)
      (fun _ impossible => by cases impossible) (fun _ impossible => by cases impossible)
    rw [considers.fits.stop_eq]
    exact lexes
  exact considers.pushes accepted reports rfl lexes rfl known rfl
    (Job.lex_fits sound considers.fits.inside lexed).stop_eq after.inside rfl considers.idle rfl

omit chart in
theorem Considers.shiftReused {leaf : Green.Token} {mode : LexMode} (same : lookahead = .reused (.token leaf) mode)
    {target : StateId} (acts : job.table.action machine.stack.state leaf.kind = .shift target)
    (after : (machine.shiftReused target leaf).Fits job) :
    (machine.shiftReused target leaf).Foresees prior job := by
  subst same
  obtain ⟨recalls, _, solid, first_, rest, tokens, lexes⟩ := considers.foreseen
  cases tokens
  have known : (machine.stack.push target (.token leaf)).Known job := by
    refine considers.foresees.known.push (considers.fits.stop_eq ▸ recalls)
      (considers.apart accepted first acts)
      (fun _ impossible => by cases impossible) (fun _ impossible => by cases impossible)
  exact considers.pushes accepted reports rfl lexes rfl known rfl rfl after.inside rfl considers.idle rfl

omit chart in
theorem Considers.push {node : Node} {mode : LexMode} (same : lookahead = .reused node.element mode)
    {state target : StateId} (acts : job.table.action machine.stack.state lookahead.kind = .shift state)
    (begun : node.info.preState = machine.stack.state)
    (goes : job.table.goto machine.stack.state node.kind = some target) {next : Machine}
    (stack : next.stack = machine.stack.push target node.element)
    (position : next.position = machine.position + node.textLength) (inside : next.position ≤ job.text.size)
    (due : next.mode = some node.info.nextLexMode) (pending : next.pending = none)
    (reuse : next.reuse = machine.reuse) : next.Foresees prior job := by
  subst same
  obtain ⟨recalls, clean, solid, leaf, rest, tokens, lexes⟩ := considers.foreseen
  have known : (machine.stack.push target node.element).Known job := by
    rw [← considers.fits.stop_eq] at recalls
    refine considers.foresees.known.push recalls (considers.apart accepted first acts) (fun other isNode => ?_)
      fun other isNode positive => ?_
    · cases Node.eq_of_element isNode
      exact begun
    · cases Node.eq_of_element isNode
      exact recalls.lined accepted.sound ⟨clean, solid⟩ begun goes positive
  refine considers.pushes accepted reports tokens lexes solid known stack position inside ?_ pending reuse
  unfold dueMode
  rw [due]
  rfl

omit chart first reports in
/-- A token of the old tree that cannot be shifted is read. -/
theorem Considers.lex {leaf : Green.Token} {mode : LexMode} (same : lookahead = .reused (.token leaf) mode)
    {token : LexedToken} (lexed : job.lex machine.position mode = .ok token) :
    Foresees prior job { machine with pending := some (.lexed token) } := by
  subst same
  have due := (Job.lex_fits accepted.sound considers.fits.inside lexed).mode_eq
  refine ⟨considers.foresees.known, considers.foresees.expects, considers.foresees.dues, ?_, considers.foresees.reuse⟩
  intro other waiting
  cases waiting
  exact ⟨considers.mode.trans (congrArg some due.symm), by rw [← due] at lexed; exact lexed⟩

end Steps

end Machine

end IncrementalParsing
