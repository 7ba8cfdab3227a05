import IncrementalParsing.Parsing.Recovery
import IncrementalParsing.Proofs.Parsing.Accepted
import IncrementalParsing.Proofs.Parsing.Reduction
import IncrementalParsing.Proofs.Parsing.Reuse

/-!
What recovery does to a stack. The tokens that are skipped follow one another from the position of the
machine on, and the token to go on with follows them. What is popped and what is skipped ends up in
one error node, so the stack ends where the last skipped token ends, and the error node does not lie
on another one.
-/

namespace IncrementalParsing

open Green

/-- A token fits where it was asked for, in the mode that it says. -/
abbrev LexedToken.FitsAt (table : Table) (text : Array UInt8) (position : Nat) (token : LexedToken) : Prop :=
  token.Fits table text position token.lexMode

namespace LexedToken

variable {table : Table} {text : Array UInt8} {position : Nat} {token : LexedToken}

theorem Fits.at {mode : LexMode} (fits : token.Fits table text position mode) : token.FitsAt table text position := by
  rw [LexedToken.FitsAt, fits.mode_eq]
  exact fits

theorem Fits.stop_eq {mode : LexMode} (fits : token.Fits table text position mode) :
    token.stop = position + token.length := by
  have start := fits.start_eq
  have trivia := fits.textStart_le
  unfold LexedToken.textStart at trivia
  unfold LexedToken.length
  omega

theorem Fits.sound {mode : LexMode} (fits : token.Fits table text position mode)
    (proper : token.kind ≠ .endOfInput) (serial : Nat) :
    (Element.token (token.toGreen serial)).Sound table := by
  refine .token ⟨?_, fits.terminal, proper⟩
  have advances := fits.advances proper
  unfold LexedToken.textStart at advances
  change triviaLength token.leading < token.stop - token.start
  omega

theorem Fits.stop_end {mode : LexMode} (fits : token.Fits table text position mode)
    (ended : token.kind = .endOfInput) : token.stop = text.size := by
  have trivia := fits.ended ended
  have low := fits.textStart_le
  have high := fits.stop_le
  omega

theorem Fits.isEnd {mode : LexMode} (fits : token.Fits table text position mode)
    (ended : token.kind = .endOfInput) (long : token.length ≠ 0) (serial : Nat) :
    (Element.token (token.toGreen serial)).IsEnd := by
  refine ⟨token.toGreen serial, rfl, ended, ?_, Nat.pos_of_ne_zero long⟩
  have trivia := fits.ended ended
  have stop := fits.stop_end ended
  have start := fits.start_eq
  unfold LexedToken.textStart at trivia
  change triviaLength token.leading = token.stop - token.start
  omega

end LexedToken

/-- What a job is known to be: a sound language, whatever the text. -/
abbrev Job.Sound (job : Job) : Prop := job.language.Sound

theorem Job.lex_fits {job : Job} (sound : job.Sound) {position : Nat} {mode : LexMode}
    {token : LexedToken} (inside : position ≤ job.text.size)
    (lexed : job.lex position mode = .ok token) : token.Fits job.table job.text position mode := by
  obtain ⟨read, found, _, _, rfl⟩ := Job.lex_ok.mp lexed
  have fits := Lexer.read_fits sound.lexer inside found
  exact ⟨fits.start_eq, fits.textStart_le, fits.stop_le, fits.ended, fits.advances, fits.terminal,
    fits.mode_eq⟩

/-- Tokens that follow one another, none of them the end of the input. -/
inductive LexedToken.Tile (table : Table) (text : Array UInt8) : Nat → List LexedToken → Nat → Prop
  | nil {position : Nat} : Tile table text position [] position
  | cons {position stop : Nat} {token : LexedToken} {rest : List LexedToken} :
      token.FitsAt table text position → token.kind ≠ .endOfInput →
      Tile table text token.stop rest stop → Tile table text position (token :: rest) stop

namespace LexedToken.Tile

variable {table : Table} {text : Array UInt8} {position stop : Nat} {tokens : List LexedToken}

theorem bounds (tile : Tile table text position tokens stop) :
    position ≤ stop ∧ (position ≤ text.size → stop ≤ text.size) := by
  induction tile with
  | nil => exact ⟨Nat.le_refl _, fun inside => inside⟩
  | cons fits proper _ ih =>
      have advance := fits.stop_eq
      exact ⟨by omega, fun _ => ih.2 fits.stop_le⟩

theorem stop_eq (tile : Tile table text position tokens stop) :
    stop = (tokens.getLast?.map (·.stop)).getD position := by
  induction tile with
  | nil => rfl
  | @cons position stop token rest _ _ tile ih =>
      cases rest with
      | nil =>
          cases tile
          rfl
      | cons next more =>
          rw [ih, List.getLast?_cons_cons]
          cases last : (next :: more).getLast? with
            | none => simp at last
            | some found => rfl

theorem append {token : LexedToken} (tile : Tile table text position tokens stop)
    (fits : token.FitsAt table text stop) (proper : token.kind ≠ .endOfInput) :
    Tile table text position (tokens ++ [token]) token.stop := by
  induction tile with
  | nil => exact .cons fits proper .nil
  | cons first notEnd _ ih => exact .cons first notEnd (ih fits)

theorem take : ∀ (count : Nat) {position : Nat} {tokens : List LexedToken},
    Tile table text position tokens stop → count ≤ tokens.length →
    Tile table text position (tokens.take count)
      (match count with
        | 0 => position
        | before + 1 => (tokens[before]?.map (·.stop)).getD position)
  | 0, _, _, _, _ => .nil
  | 1, _, _, .cons fits proper _, _ => .cons fits proper .nil
  | before + 2, position, _, @LexedToken.Tile.cons _ _ _ _ _ rest fits proper tile, within => by
      have inside : before < rest.length := Nat.lt_of_succ_lt_succ within
      have more := tile.take (before + 1) inside
      dsimp only at more
      rw [List.getElem?_eq_getElem inside] at more
      refine .cons fits proper ?_
      dsimp only
      rw [List.getElem?_cons_succ, List.getElem?_eq_getElem inside]
      exact more

end LexedToken.Tile

namespace Recovery

variable {job : Job} {position : Nat}

def Skips.Fit (job : Job) (position : Nat) (skips : Skips) : Prop :=
  ∃ stop, LexedToken.Tile job.table job.text position skips.tokens.toList stop

theorem Skips.start_fit {lookahead : LexedToken}
    (fits : lookahead.FitsAt job.table job.text position) : (Skips.start lookahead).Fit job position := by
  unfold Skips.start
  split
  · exact ⟨position, .nil⟩
  · rename_i proper
    exact ⟨lookahead.stop, .cons fits proper .nil⟩

theorem Skips.take_fit {skips : Skips} (fit : skips.Fit job position) {count : Nat}
    (within : count ≤ skips.tokens.size) :
    LexedToken.Tile job.table job.text position (skips.tokens.toList.take count)
      (skips.stopAfter position count) := by
  obtain ⟨stop, tile⟩ := fit
  have taken := tile.take count (by simpa using within)
  cases count with
  | zero => exact taken
  | succ before => simpa [Skips.stopAfter] using taken

theorem Skips.grow_fit (sound : job.Sound) {skips grown : Skips} (inside : position ≤ job.text.size)
    (fit : skips.Fit job position) (done : skips.grow job position = .ok grown) :
    grown.Fit job position := by
  unfold Skips.grow at done
  obtain ⟨token, lexed, done⟩ := bind_ok.mp done
  have whole := Skips.take_fit fit (Nat.le_refl _)
  have fits := Job.lex_fits sound (whole.bounds.2 inside) lexed
  rw [List.take_of_length_le (Nat.le_of_eq (by simp))] at whole
  split at done
  · cases pure_ok.mp done
    exact fit
  · rename_i proper
    cases pure_ok.mp done
    refine ⟨token.stop, ?_⟩
    rw [Array.toList_push]
    exact whole.append fits.at proper

/-- A repair skips tokens that follow one another and goes on with the token after them. -/
structure Repair.Fits (job : Job) (position : Nat) (repair : Repair) : Prop where
  skipped : ∃ stop, LexedToken.Tile job.table job.text position repair.skipped stop ∧
    repair.resume.FitsAt job.table job.text stop ∧ job.lex stop repair.resume.lexMode = .ok repair.resume

namespace Search

variable {search : Search}

theorem attempt_fits (sound : search.job.Sound) (inside : search.position ≤ search.job.text.size)
    {skips : Skips} {skipped popped : Nat} {repair : Repair}
    (fit : skips.Fit search.job search.position) (within : skipped ≤ skips.tokens.size)
    (done : search.attempt skips skipped popped = .ok (some repair)) :
    repair.Fits search.job search.position := by
  unfold attempt at done
  obtain ⟨resume, lexed, done⟩ := bind_ok.mp done
  obtain ⟨possible, _, done⟩ := bind_ok.mp done
  have tile := Skips.take_fit fit within
  have fits := Job.lex_fits sound (tile.bounds.2 inside) lexed
  split at done
  · cases pure_ok.mp done
    exact ⟨_, tile, fits.at, by rw [fits.mode_eq]; exact lexed⟩
  · cases pure_ok.mp done

theorem tryPopping_fits (sound : search.job.Sound) (inside : search.position ≤ search.job.text.size)
    {skips : Skips} {cost : Nat} {repair : Repair} (fit : skips.Fit search.job search.position) :
    ∀ (count popped : Nat), search.tryPopping skips cost count popped = .ok (some repair) →
      repair.Fits search.job search.position
  | 0, _, done => by
      unfold tryPopping at done
      cases done
  | count + 1, popped, done => by
      unfold tryPopping at done
      dsimp only at done
      split at done
      · exact tryPopping_fits sound inside fit count (popped + 1) done
      · rename_i allowed
        obtain ⟨attempted, tried, done⟩ := bind_ok.mp done
        cases attempted with
        | some found =>
            cases pure_ok.mp done
            exact attempt_fits sound inside fit (by omega) tried
        | none => exact tryPopping_fits sound inside fit count (popped + 1) done

def known (search : Search) (cost : Nat) (skips : Skips) : Except Fault Skips :=
  if !skips.ended && skips.tokens.size < min cost search.maxSkipped then
    skips.grow search.job search.position
  else .ok skips

theorem tryCosts_succ (count cost : Nat) (skips : Skips) :
    search.tryCosts (count + 1) cost skips = (do
      let known ← search.known cost skips
      match ← search.tryPopping known cost (min cost search.depth + 1) 0 with
      | some repair => return some repair
      | none => search.tryCosts count (cost + 1) known) := by
  rw [tryCosts, known]
  dsimp only
  split <;> rfl

theorem known_fit (sound : search.job.Sound) (inside : search.position ≤ search.job.text.size)
    {cost : Nat} {skips more : Skips} (fit : skips.Fit search.job search.position)
    (done : search.known cost skips = .ok more) : more.Fit search.job search.position := by
  unfold known at done
  split at done
  · exact Skips.grow_fit sound inside fit done
  · cases done
    exact fit

theorem tryCosts_fits (sound : search.job.Sound) (inside : search.position ≤ search.job.text.size)
    {repair : Repair} : ∀ (count cost : Nat) (skips : Skips), skips.Fit search.job search.position →
      search.tryCosts count cost skips = .ok (some repair) → repair.Fits search.job search.position
  | 0, _, _, _, done => by
      unfold tryCosts at done
      cases done
  | count + 1, cost, skips, fit, done => by
      rw [tryCosts_succ] at done
      obtain ⟨more, grown, done⟩ := bind_ok.mp done
      have moreFit := known_fit sound inside fit grown
      obtain ⟨attempted, tried, done⟩ := bind_ok.mp done
      cases attempted with
      | some found =>
          cases pure_ok.mp done
          exact tryPopping_fits sound inside moreFit _ _ tried
      | none => exact tryCosts_fits sound inside count (cost + 1) more moreFit done

end Search

theorem cheapest?_ok {machine : Machine} {lookahead : LexedToken} {found : Option Repair} :
    cheapest? job machine lookahead = .ok found ↔ job.maxSkipped + machine.stack.length < sizeLimit ∧
      (searchFor job machine).tryCosts ((searchFor job machine).maxSkipped + (searchFor job machine).depth) 1
        (.start lookahead) = .ok found := by
  unfold cheapest?
  dsimp only
  split
  · rename_i room
    exact ⟨fun done => ⟨room, done⟩, And.right⟩
  · rename_i crowded
    exact ⟨fun impossible => (nomatch impossible), fun both => absurd both.1 crowded⟩

theorem cheapest?_fits (sound : job.Sound) {machine : Machine} {lookahead : LexedToken} {repair : Repair}
    (inside : machine.position ≤ job.text.size)
    (fits : lookahead.FitsAt job.table job.text machine.position)
    (found : cheapest? job machine lookahead = .ok (some repair)) :
    repair.Fits job machine.position :=
  @Search.tryCosts_fits (searchFor job machine) sound inside _ _ _ _
    (Skips.start_fit fits) (cheapest?_ok.mp found).2

/-! ### Error nodes -/

def lengthOfElements (elements : List Element) : Nat := sumOf (elements.map (·.textLength))

@[simp] theorem lengthOfElements_nil : lengthOfElements [] = 0 := rfl

@[simp] theorem lengthOfElements_cons (element : Element) (rest : List Element) :
    lengthOfElements (element :: rest) = element.textLength + lengthOfElements rest := by
  simp [lengthOfElements]

@[simp] theorem lengthOfElements_append (left right : List Element) :
    lengthOfElements (left ++ right) = lengthOfElements left + lengthOfElements right := by
  simp [lengthOfElements]

theorem lengthOfElements_entries (entries : List StackEntry) :
    lengthOfElements (entries.map (·.element)) = totalLength entries := by
  simp [lengthOfElements, totalLength, Function.comp_def]

theorem leaves_fit {table : Table} {text : Array UInt8} {position stop : Nat} {tokens : List LexedToken}
    (tile : LexedToken.Tile table text position tokens stop) (serial : Nat) :
    position + lengthOfElements (leaves serial tokens) = stop ∧
      ∀ element, element ∈ leaves serial tokens → element.Sound table := by
  induction tile generalizing serial with
  | nil => exact ⟨rfl, fun _ none => absurd none List.not_mem_nil⟩
  | @cons position stop token rest fits proper _ ih =>
      have shape : leaves serial (token :: rest) =
          .token (token.toGreen serial) :: leaves (serial + 1) rest := by
        simp [leaves, List.zipIdx_cons]
      obtain ⟨length, sound⟩ := ih (serial + 1)
      rw [shape]
      constructor
      · rw [lengthOfElements_cons, ← length, fits.stop_eq, ← Nat.add_assoc]
        rfl
      · intro element member
        rcases List.mem_cons.mp member with first | others
        · exact first ▸ fits.sound proper serial
        · exact sound element others

section ErrorNodes

variable {table : Table} (numbered : table.Numbered)

include numbered

theorem hasKind_error : table.HasKind .error := by
  have reserved := numbered.reserved
  have room := numbered.rules_le
  change 1 < table.kinds.size
  omega

theorem errorNode_fits (serial decisionEnd : Nat) {elements : List Element} (preState : StateId)
    (sound : ∀ element, element ∈ elements → element.Sound table) :
    (ParseStack.errorNode table serial elements preState decisionEnd).element.Sound table ∧
      (ParseStack.errorNode table serial elements preState decisionEnd).textLength =
        lengthOfElements elements := by
  constructor
  · refine Node.sound_make (Nat.zero_le _) (hasKind_error numbered) ?_
    intro child member
    obtain ⟨element, among, inside⟩ := List.mem_flatMap.mp member
    exact everywhere_splicedIntoError (sound element among) child inside
  · change lengthOf (elements.flatMap (splicedIntoError table)) = _
    induction elements with
    | nil => rfl
    | cons element rest ih =>
        rw [List.flatMap_cons, lengthOf_append, lengthOfElements_cons,
          lengthOf_splicedIntoError (sound element List.mem_cons_self),
          ih (fun other member => sound other (List.mem_cons_of_mem _ member))]

end ErrorNodes

theorem pushError_fits {job : Job} (sound : job.Sound) (machine : Machine) (elements : List Element)
    (examinedEnd : Nat) (follows : machine.stack.Follows job.table)
    (stackSound : ParseStack.Sound job.table machine.stack)
    (elementsSound : ∀ element, element ∈ elements → element.Sound job.table) :
    (pushError job machine elements examinedEnd).stack.Follows job.table ∧
      ParseStack.Sound job.table (pushError job machine elements examinedEnd).stack ∧
      (pushError job machine elements examinedEnd).stack.stop =
        machine.stack.stop + lengthOfElements elements := by
  have numbered : job.table.Numbered := sound.table
  have pushed : ∀ (all : List Element) (stack : ParseStack) (decisionEnd : Nat),
      stack.Follows job.table → ParseStack.Sound job.table stack →
      (∀ top, stack.head? = some top → top.extra = false) →
      (∀ element, element ∈ all → element.Sound job.table) →
      let node := ParseStack.errorNode job.table machine.nextSerial all stack.state decisionEnd
      (stack.pushExtra node.element).Follows job.table ∧
        ParseStack.Sound job.table (stack.pushExtra node.element) ∧
        (stack.pushExtra node.element).stop = stack.stop + lengthOfElements all := by
    intro all stack decisionEnd stackFollows soundBelow apart allSound
    obtain ⟨nodeSound, length⟩ := errorNode_fits numbered machine.nextSerial decisionEnd
      stack.state allSound
    exact ⟨stackFollows.pushExtra apart, ParseStack.sound_cons nodeSound soundBelow,
      congrArg (stack.stop + ·) length⟩
  unfold pushError
  cases shape : machine.stack with
  | nil =>
      rw [shape] at follows stackSound
      exact pushed elements [] _ follows stackSound (fun _ none => by cases none) elementsSound
  | cons top below =>
      rw [shape] at follows stackSound
      cases extra : top.extra with
      | true =>
          dsimp only
          rw [if_pos extra]
          have apart := follows.rests.apart extra
          obtain ⟨kept, keptSound, ending⟩ := pushed (top.element :: elements) below
            (examinedEnd - ParseStack.stop below) follows.tail stackSound.tail apart
            (fun element member => by
              rcases List.mem_cons.mp member with first | others
              · exact first ▸ stackSound top List.mem_cons_self
              · exact elementsSound element others)
          refine ⟨kept, keptSound, ending.trans ?_⟩
          change _ = top.offset + top.element.textLength + _
          rw [lengthOfElements_cons, follows.rests.offset_eq, Nat.add_assoc]
      | false =>
          dsimp only
          rw [if_neg (by rw [extra]; exact Bool.false_ne_true)]
          refine pushed elements (top :: below) _ follows stackSound ?_ elementsSound
          intro first same
          cases same
          exact extra

end Recovery

end IncrementalParsing
