import IncrementalParsing.Proofs.Green.Erased
import IncrementalParsing.Proofs.Lexing.Reports
import IncrementalParsing.Proofs.Parsing.Places
import IncrementalParsing.Proofs.Parsing.Unaided
import Mathlib.Logic.Relation

/-!
Parsing a stretch of text again. What lies on top of a stack without an error can be built once more, at
another place of another text and on another stack in the same state, wherever that text has the same
bytes as far as the tokens on top and the lookahead report them. A machine does so by shifts and
reductions alone, in step with the machine that has built it first.
-/

namespace IncrementalParsing

open Green

/-! ### The same token elsewhere -/

def Job.on (job : Job) (against : Array UInt8) : Job := { job with text := against }

/-- The extents of what is examined can be written with 32 bits, wherever in the text and in whatever
mode a token is read. -/
def Job.Reports (job : Job) : Prop :=
  ∀ position mode, position ≤ job.text.size → job.language.lexer.Reports job.text position mode

namespace Job

variable {job : Job} {against : Array UInt8} {token : LexedToken} {mode : LexMode}

theorem stop_le_of_lex (reports : job.Reports) {position : Nat} (inside : position ≤ job.text.size)
    (lexed : job.lex position mode = .ok token) : token.stop ≤ token.examinedEnd := by
  rw [(reports position mode inside).lex_eq] at lexed
  exact Lexer.stop_le_of_read lexed

theorem lex_elsewhere (sound : job.Sound) (reports : job.Reports) (reportsOn : (job.on against).Reports)
    (start count : Nat) {base stop : Nat} (inside : start + count ≤ job.text.size) (begins : base ≤ against.size)
    (lexed : job.lex (start + count) mode = .ok token)
    (agree : Cursor.Agree job.text against start base stop) (bound : token.examinedEnd ≤ stop) :
    (job.on against).lex (base + count) mode = .ok (token.movedTo (base + count)) := by
  have fits := job.lex_fits sound inside lexed
  have reach := stop_le_of_lex reports inside lexed
  have size : base + count ≤ against.size := by
    have startEq := fits.start_eq
    have stopEq := fits.stop_eq
    exact agree.inside (by omega) inside begins
  rw [(reports _ _ inside).lex_eq] at lexed
  rw [(reportsOn _ _ size).lex_eq]
  exact Lexer.read_locally sound.lexer.scanner inside size lexed ((agree.shorten bound).advance count)

end Job

theorem LexedToken.erase_movedTo {token : LexedToken} (position serial other : Nat)
    (ordered : token.start ≤ token.stop) (reaches : token.stop ≤ token.examinedEnd) :
    (Element.token ((token.movedTo position).toGreen serial)).erase =
      (Element.token (token.toGreen other)).erase := by
  have length : (token.movedTo position).length = token.length := by
    unfold LexedToken.length LexedToken.movedTo
    dsimp only
    omega
  have lookahead : (token.movedTo position).lookahead = token.lookahead := by
    unfold LexedToken.lookahead LexedToken.movedTo
    dsimp only
    omega
  rw [Element.erase, Element.erase]
  unfold LexedToken.toGreen
  rw [length, lookahead]
  rfl

/-! ### Copies -/

def ParseStack.tokens (top : List StackEntry) : List Green.Token := tokensOf (contents top.reverse)

namespace ParseStack

@[simp] theorem tokens_nil : tokens [] = [] := by
  simp [tokens, tokensOf]

@[simp] theorem tokens_cons (entry : StackEntry) (rest : List StackEntry) :
    tokens (entry :: rest) = tokens rest ++ entry.element.tokens := by
  simp [tokens, tokensOf_append, tokensOf]

theorem tokens_append (top rest : List StackEntry) : tokens (top ++ rest) = tokens rest ++ tokens top := by
  simp [tokens]

theorem lengthOf_tokens {table : Table} : ∀ {top : List StackEntry}, Sound table top →
    lengthOfTokens (tokens top) = totalLength top
  | [], _ => by simp
  | entry :: rest, sound => by
      rw [tokens_cons, lengthOfTokens_append, lengthOf_tokens sound.tail,
        lengthOfTokens_tokens (sound entry List.mem_cons_self), totalLength_cons, Nat.add_comm]

/-- Entries that repeat others on another stack: in the same states the same elements but for their
serial numbers. None of them is an extra. -/
inductive Copied (base : ParseStack) : List StackEntry → List StackEntry → Prop
  | nil : Copied base [] []
  | cons {entry : StackEntry} {top copy : List StackEntry} {element : Element} : Copied base top copy →
      element.erase = entry.element.erase →
      Copied base (entry :: top) (⟨entry.state, element, false, stop (copy ++ base)⟩ :: copy)

namespace Copied

variable {base below : ParseStack} {top copy : List StackEntry}

theorem state_eq (copied : Copied base top copy) (same : state base = state below) :
    state (copy ++ base) = state (top ++ below) := by
  cases copied with
  | nil => exact same
  | cons _ _ => rfl

theorem stop_eq (copied : Copied base top copy) : stop (copy ++ base) = base.stop + totalLength top := by
  induction copied with
  | nil => rfl
  | @cons entry top copy element _ same ih =>
      have length : element.textLength = entry.element.textLength := by
        rw [← Element.textLength_erase element, same, Element.textLength_erase]
      change stop (copy ++ base) + element.textLength = _
      rw [ih, length, totalLength_cons]
      omega

theorem plain (copied : Copied base top copy) : ∀ entry, entry ∈ copy → entry.extra = false := by
  induction copied with
  | nil => exact fun _ none => absurd none List.not_mem_nil
  | cons _ _ ih =>
      intro entry member
      rcases List.mem_cons.mp member with first | rest
      · rw [first]
      · exact ih entry rest

theorem split {mid : List StackEntry} : ∀ {popped copy : List StackEntry}, Copied base (popped ++ mid) copy →
    (∀ entry, entry ∈ popped → entry.extra = false) →
    ∃ first rest, copy = first ++ rest ∧ Copied base mid rest ∧
      first.map StackEntry.erase = popped.map StackEntry.erase
  | [], copy, copied, _ => ⟨[], copy, rfl, copied, rfl⟩
  | entry :: popped, _, .cons copied same, plain => by
      obtain ⟨first, rest, shape, restCopied, erased⟩ :=
        copied.split (fun other member => plain other (List.mem_cons_of_mem _ member))
      refine ⟨_ :: first, rest, by rw [shape]; rfl, restCopied, ?_⟩
      rw [List.map_cons, List.map_cons, erased]
      unfold StackEntry.erase
      rw [same, plain entry List.mem_cons_self]

end Copied

theorem popEntries_plain (rest : ParseStack) : ∀ (popped taken : List StackEntry),
    (∀ entry, entry ∈ popped → entry.extra = false) →
    popEntries popped.length taken (popped ++ rest) = .ok (popped.reverse ++ taken, rest)
  | [], taken, _ => by
      cases rest with
      | nil => simp [popEntries]
      | cons entry below => simp [popEntries]
  | entry :: popped, taken, plain => by
      have others := popEntries_plain rest popped (entry :: taken)
        (fun other member => plain other (List.mem_cons_of_mem _ member))
      rw [List.cons_append, List.length_cons, popEntries]
      rw [plain entry List.mem_cons_self, if_neg Bool.false_ne_true, others]
      simp

def Clear (stack : ParseStack) : Prop := ∀ top, stack.head? = some top → top.extra = false

theorem Clear.takeWhile {stack : ParseStack} (clear : stack.Clear) : stack.takeWhile (·.extra) = [] := by
  cases stack with
  | nil => rfl
  | cons top below => simp [clear top rfl]

theorem Clear.dropWhile {stack : ParseStack} (clear : stack.Clear) : stack.dropWhile (·.extra) = stack := by
  cases stack with
  | nil => rfl
  | cons top below => simp [clear top rfl]

theorem Clear.of_takeWhile {stack : ParseStack} (none : stack.takeWhile (·.extra) = []) : stack.Clear := by
  intro top head
  cases stack with
  | nil => cases head
  | cons first below =>
      cases head
      cases extra : top.extra with
      | false => rfl
      | true => simp [extra] at none

theorem Copied.clear {base : ParseStack} {top copy : List StackEntry} (copied : Copied base top copy)
    (open_ : top = [] → base.Clear) : Clear (copy ++ base) := by
  cases copied with
  | nil => exact open_ rfl
  | cons _ _ =>
      intro entry head
      cases head
      rfl

/-- With no extra on top, a reduction takes off what the production counts. -/
theorem reduce_plain {table : Table} {popped : List StackEntry} {below : ParseStack}
    (clear : Clear (popped ++ below)) (plain : ∀ entry, entry ∈ popped → entry.extra = false)
    {production : ProductionInfo} (counted : popped.length = production.length) {next : StateId}
    (goes : table.goto below.state production.lhs = some next) {serial examinedEnd : Nat} {mode : LexMode} {node : Node}
    (built : buildNode table serial production popped.reverse
      (reductionOrigin table (popped ++ below) below examinedEnd mode) = .ok node) :
    ParseStack.reduce (popped ++ below) table serial production examinedEnd mode =
      .ok (below.push next node.element) := by
  refine reduce_ok.mpr ⟨popped.reverse, below, next, node, ?_, goes, built, ?_⟩
  · have pops := popEntries_plain below popped [] plain
    rw [List.append_nil] at pops
    rw [clear.dropWhile, ← counted]
    exact pops
  · rw [clear.takeWhile]
    rfl

theorem reductionOrigin_of_clear (table : Table) {stack other rest otherRest : ParseStack} (clear : stack.Clear)
    (otherClear : other.Clear) (state : otherRest.state = rest.state) {examinedEnd otherEnd : Nat}
    (decides : otherEnd - otherRest.stop = examinedEnd - rest.stop) (mode : LexMode) :
    reductionOrigin table other otherRest otherEnd mode = reductionOrigin table stack rest examinedEnd mode := by
  unfold reductionOrigin
  rw [state, decides, clear.takeWhile, otherClear.takeWhile]

end ParseStack

theorem buildNode_of_erase {table : Table} {entries others : List StackEntry}
    (erased : others.map StackEntry.erase = entries.map StackEntry.erase) {serial : Nat}
    {production : ProductionInfo} {origin : Origin} {node : Node}
    (built : buildNode table serial production entries.reverse origin = .ok node) (other : Nat) :
    ∃ rebuilt, buildNode table other production others.reverse origin = .ok rebuilt ∧ rebuilt.erase = node.erase := by
  have before := buildNode_erase table serial production entries.reverse origin
  have after := buildNode_erase table other production others.reverse origin
  rw [List.map_reverse, erased, ← List.map_reverse, ← before, built] at after
  cases done : buildNode table other production others.reverse origin with
  | error fault =>
      rw [done] at after
      cases after
  | ok rebuilt =>
      rw [done] at after
      exact ⟨rebuilt, rfl, Except.ok.inj after⟩

/-! ### Replaying -/

namespace Machine

def upon (base : ParseStack) (mode : LexMode) (serial : Nat) : Machine :=
  ⟨base, base.stop, some mode, none, none, serial⟩

/-- A machine that has built copies of some entries on a stack and looks ahead to a token that was first
read elsewhere. -/
structure Repeats (job : Job) (token : LexedToken) (top : List StackEntry) (base : ParseStack)
    (machine : Machine) : Prop where
  reuse : machine.reuse = none
  stack : ∃ copy, ParseStack.Copied base top copy ∧ machine.stack = copy ++ base
  position : machine.position = base.stop + totalLength top
  looks : machine.LooksTo job (token.movedTo machine.position)

end Machine

def LexedToken.leading? (token : LexedToken) : List Green.Token → KindId × LexMode
  | [] => (token.kind, token.lexMode)
  | first :: _ => (first.kind, first.lexMode)

/-- A stack on which a stretch that begins with a terminal can be parsed as if nothing lay on it: there
is no extra on top that a reduction to an empty node could get under. -/
def ParseStack.Opens (table : Table) (base : ParseStack) (kind : KindId) : Prop :=
  base.Clear ∨ ∃ target, table.action base.state kind = .shift target

/-- Where a reduction is due on the token, what was built on such a stack has no extra on top. -/
theorem ParseStack.Copied.clear_of_opens {table : Table} {base below : ParseStack} {top copy : List StackEntry}
    (copied : Copied base top copy) {token : LexedToken} (same : base.state = below.state)
    (opens : base.Opens table (token.leading? (ParseStack.tokens top)).1) {id : ProductionId}
    (acts : table.action (ParseStack.state (top ++ below)) token.kind = .reduce id) :
    ParseStack.Clear (copy ++ base) := by
  refine copied.clear fun empty => ?_
  rw [empty] at opens acts
  rcases opens with clear | ⟨target, shifts⟩
  · exact clear
  · change table.action base.state (token.leading? (ParseStack.tokens [])).1 = _ at shifts
    rw [ParseStack.tokens_nil, same] at shifts
    exact absurd (shifts.symm.trans acts) (fun impossible => nomatch impossible)

/-- What lies on top of a stack, with the lookahead after it, can be built again on every stack in the
same state and on every text that has the same bytes. -/
def Job.Replays (job : Job) (token : LexedToken) (top : List StackEntry) (below : ParseStack) : Prop :=
  ∀ (against : Array UInt8) (base : ParseStack) (serial : Nat), (job.on against).Reports →
    base.stop ≤ against.size → base.state = below.state →
    base.Opens job.table (token.leading? (ParseStack.tokens top)).1 →
    Cursor.Agree job.text against below.stop base.stop
      (max (reach below.stop (ParseStack.tokens top)) token.examinedEnd) →
    ∃ final, Relation.ReflTransGen (Machine.Advances (job.on against))
        (.upon base (token.leading? (ParseStack.tokens top)).2 serial) final ∧
      final.Repeats (job.on against) token top base

section Replaying

variable {job : Job} {token : LexedToken} {top mid : List StackEntry} {below : ParseStack}
  (sound : job.Sound) (reports : job.Reports)

include sound reports

theorem Job.Replays.nil (inside : below.stop ≤ job.text.size)
    (lexed : job.lex below.stop token.lexMode = .ok token) : job.Replays token [] below := by
  intro against base serial reportsOn begins same opens agree
  refine ⟨_, .refl, rfl, ⟨[], .nil, rfl⟩, rfl, ?_⟩
  rw [ParseStack.tokens_nil]
  exact .of_idle rfl rfl rfl (Job.lex_elsewhere sound reports reportsOn _ 0 inside begins lexed agree
    (Nat.le_max_right _ _))

theorem Job.Replays.shift (replays : job.Replays token top below) (topSound : ParseStack.Sound job.table top)
    (lexed : job.lex (below.stop + totalLength top) token.lexMode = .ok token)
    (inside : below.stop + totalLength top ≤ job.text.size) {target : StateId}
    (acts : job.table.action (ParseStack.state (top ++ below)) token.kind = .shift target) {next : LexedToken}
    (nextLexed : job.lex token.stop next.lexMode = .ok next) (due : job.table.lexMode target = next.lexMode)
    (serial offset : Nat) :
    job.Replays next (⟨target, .token (token.toGreen serial), false, offset⟩ :: top) below := by
  intro against base serial' reportsOn begins same opens agree
  have fits := job.lex_fits sound inside lexed
  have starts := fits.start_eq
  have stopEq := fits.stop_eq
  have reaches := Job.stop_le_of_lex reports inside lexed
  have tokensEq : ParseStack.tokens (⟨target, .token (token.toGreen serial), false, offset⟩ :: top) =
      ParseStack.tokens top ++ [token.toGreen serial] := ParseStack.tokens_cons _ _
  have leading : next.leading? (ParseStack.tokens top ++ [token.toGreen serial]) =
      token.leading? (ParseStack.tokens top) := by
    cases ParseStack.tokens top with
    | nil => rfl
    | cons first rest => rfl
  have total := ParseStack.lengthOf_tokens topSound
  rw [tokensEq, leading] at opens ⊢
  rw [tokensEq, reach_append, total] at agree
  have last : token.examinedEnd ≤ reach (below.stop + totalLength top) [token.toGreen serial] := by
    refine Nat.le_trans ?_ (Nat.le_max_left _ _)
    change token.examinedEnd ≤ below.stop + totalLength top + token.length +
      (max token.examinedEnd token.stop - token.stop)
    omega
  obtain ⟨final, steps, repeats⟩ := replays against base serial' reportsOn begins same opens
    (agree.shorten (by omega))
  obtain ⟨copy, copied, stackEq⟩ := repeats.stack
  have actsAgain : (job.on against).table.action (final.decidesOn (token.movedTo final.position)).stack.state
      (token.movedTo final.position).kind = .shift target := by
    change job.table.action final.stack.state token.kind = _
    rw [stackEq, copied.state_eq same]
    exact acts
  have stopAgain : (token.movedTo final.position).stop = base.stop + (totalLength top + token.length) := by
    change final.position + (token.stop - token.start) = _
    rw [repeats.position, Nat.add_assoc]
    rfl
  refine ⟨_, steps.tail ⟨Machine.step_shift repeats.looks.lookahead actsAgain, _, _, repeats.looks.lookahead,
    Or.inl ⟨_, actsAgain⟩⟩, ?_⟩
  refine ⟨repeats.reuse, ⟨_, copied.cons (LexedToken.erase_movedTo final.position final.nextSerial serial
    (by omega) reaches), ?_⟩, ?_, ?_⟩
  · change (final.stack.push target _) = _
    rw [stackEq]
    rfl
  · change (token.movedTo final.position).stop = _
    rw [stopAgain, totalLength_cons]
    change _ = base.stop + (token.length + totalLength top)
    omega
  · have alone : ((final.decidesOn (token.movedTo final.position)).shiftToken target
        (token.movedTo final.position)).reuse = none := repeats.reuse
    refine .of_idle alone rfl due ?_
    change (job.on against).lex (token.movedTo final.position).stop next.lexMode =
      .ok (next.movedTo (token.movedTo final.position).stop)
    rw [stopAgain]
    refine Job.lex_elsewhere sound reports reportsOn below.stop _ ?_ begins ?_ agree
      (Nat.le_max_right _ _)
    · have within := fits.stop_le
      omega
    · rw [← Nat.add_assoc, ← stopEq]
      exact nextLexed

theorem Job.Replays.reduce {popped : List StackEntry} (replays : job.Replays token (popped ++ mid) below)
    (plain : ∀ entry, entry ∈ popped → entry.extra = false)
    (clear : ParseStack.Clear (popped ++ mid ++ below))
    (lexed : job.lex (below.stop + totalLength (popped ++ mid)) token.lexMode = .ok token)
    (inside : below.stop + totalLength (popped ++ mid) ≤ job.text.size)
    (stopMid : ParseStack.stop (mid ++ below) = below.stop + totalLength mid) {id : ProductionId}
    (acts : job.table.action (ParseStack.state (popped ++ mid ++ below)) token.kind = .reduce id)
    {production : ProductionInfo} (found : job.table.production id = .ok production)
    (counted : popped.length = production.length) {next : StateId}
    (goes : job.table.goto (ParseStack.state (mid ++ below)) production.lhs = some next) {origin : Origin}
    (originIs : ParseStack.reductionOrigin job.table (popped ++ mid ++ below) (mid ++ below)
      token.examinedEnd token.lexMode = origin) {serial : Nat} {node : Node}
    (built : buildNode job.table serial production popped.reverse origin = .ok node)
    (assembled : Assembled production popped.reverse origin node)
    (length : node.textLength = totalLength popped) (offset : Nat) :
    job.Replays token (⟨next, node.element, false, offset⟩ :: mid) below := by
  intro against base serial' reportsOn begins same opens agree
  have fits := job.lex_fits sound inside lexed
  have starts := fits.start_eq
  have stopEq := fits.stop_eq
  have reaches := Job.stop_le_of_lex reports inside lexed
  have tokensEq : ParseStack.tokens (⟨next, node.element, false, offset⟩ :: mid) =
      ParseStack.tokens (popped ++ mid) := by
    rw [ParseStack.tokens_cons, ParseStack.tokens_append]
    exact congrArg _ assembled.tokens_eq
  rw [tokensEq] at opens agree ⊢
  obtain ⟨final, steps, repeats⟩ := replays against base serial' reportsOn begins same opens agree
  obtain ⟨copy, copied, stackEq⟩ := repeats.stack
  obtain ⟨first, rest, shape, restCopied, erased⟩ := copied.split plain
  have firstPlain : ∀ entry, entry ∈ first → entry.extra = false :=
    fun entry member => copied.plain entry (by rw [shape]; exact List.mem_append_left _ member)
  have actsAgain : (job.on against).table.action (final.decidesOn (token.movedTo final.position)).stack.state
      (token.movedTo final.position).kind = .reduce id := by
    change job.table.action final.stack.state token.kind = _
    rw [stackEq, copied.state_eq same]
    exact acts
  have clearAgain : ParseStack.Clear (first ++ (rest ++ base)) := by
    rw [← List.append_assoc, ← shape]
    exact copied.clear_of_opens same opens acts
  have restState : ParseStack.state (rest ++ base) = ParseStack.state (mid ++ below) :=
    restCopied.state_eq same
  have counts : first.length = production.length := by
    have lengths := congrArg List.length erased
    rw [List.length_map, List.length_map] at lengths
    rw [lengths, counted]
  have decides : (token.movedTo final.position).examinedEnd - ParseStack.stop (rest ++ base) =
      token.examinedEnd - ParseStack.stop (mid ++ below) := by
    change final.position + (token.examinedEnd - token.start) - _ = _
    rw [repeats.position, restCopied.stop_eq, stopMid]
    rw [totalLength_append] at starts stopEq ⊢
    omega
  have originEq : ParseStack.reductionOrigin job.table (first ++ (rest ++ base)) (rest ++ base)
      (token.movedTo final.position).examinedEnd token.lexMode = origin :=
    (ParseStack.reductionOrigin_of_clear job.table clear clearAgain restState decides _).trans originIs
  obtain ⟨rebuilt, rebuiltOk, rebuiltErased⟩ := buildNode_of_erase erased built final.nextSerial
  have reducedStack : ParseStack.reduce final.stack job.table final.nextSerial production
      (token.movedTo final.position).examinedEnd token.lexMode =
        .ok (ParseStack.push (rest ++ base) next rebuilt.element) := by
    rw [stackEq, shape, List.append_assoc]
    exact ParseStack.reduce_plain clearAgain firstPlain counts (restState ▸ goes) (originEq ▸ rebuiltOk)
  have reduces : (final.decidesOn (token.movedTo final.position)).reduce (job.on against) id
      (.lexed (token.movedTo final.position)) = .ok { final with
        stack := ParseStack.push (rest ++ base) next rebuilt.element
        mode := some token.lexMode
        pending := some (.lexed (token.movedTo final.position))
        nextSerial := final.nextSerial + 1 } :=
    Machine.reduce_ok.mpr ⟨production, _, found, reducedStack, rfl⟩
  refine ⟨_, steps.tail ⟨Machine.step_reduce repeats.looks.lookahead actsAgain reduces, _, _,
    repeats.looks.lookahead, Or.inr ⟨_, actsAgain⟩⟩, ?_⟩
  refine ⟨repeats.reuse, ⟨_, restCopied.cons ?_, rfl⟩, ?_, ?_⟩
  · exact (Node.erase_element rebuilt).trans ((congrArg Node.element rebuiltErased).trans
      (Node.erase_element node).symm)
  · change final.position = _
    rw [repeats.position, totalLength_append, totalLength_cons]
    change _ = base.stop + (node.textLength + _)
    rw [length]
  · exact .of_pending rfl rfl repeats.looks.lexed

end Replaying

end IncrementalParsing
