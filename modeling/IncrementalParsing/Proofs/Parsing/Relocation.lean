import IncrementalParsing.Proofs.Parsing.Repetitions

/-!
What is known of a stretch of text is known of it in every text that has the same bytes. A leaf, a node and a
row of repetitions that were read in one text are moved to a place of another one, where the bytes are the same
as far as was looked for them.
-/

namespace IncrementalParsing

open Green

namespace Green

/-! ### Bounds and places -/

theorem Within.min {stop other : Nat} : ∀ {children : List Child} {offset : Nat}, Within stop offset children →
    Within other offset children → Within (min stop other) offset children
  | [], _, _, _ => trivial
  | _ :: _, _, first, second => ⟨Nat.le_min.mpr ⟨first.1, second.1⟩, first.2.min second.2⟩

theorem Within.move {stop last : Nat} : ∀ {children : List Child} {offset base : Nat},
    base + stop ≤ offset + last → Within stop offset children → Within last base children
  | [], _, _, _, _ => trivial
  | child :: rest, offset, base, moved, within => by
      refine ⟨?_, within.2.move (by omega)⟩
      have here := within.1
      omega

theorem placed_eq_map (offset : Nat) : ∀ (nodes : List Node) (start : Nat), placed (offset + start) nodes =
    (placed start nodes).map (fun place => (offset + place.1, place.2))
  | [], _ => rfl
  | node :: rest, start => by
      rw [placed, placed, List.map_cons, Nat.add_assoc, placed_eq_map offset rest]

end Green

/-! ### Tokens -/

section Moving

variable {job other : Job} (sound : job.Sound) (reports : job.Reports) (language : other.language = job.language)
  (reportsToo : other.Reports)

include sound reports language reportsToo

/-- A token is read again at another place where the bytes are the same as far as was looked. -/
theorem Job.lex_moved {offset base stop : Nat} (count : Nat) {mode : LexMode} {token : LexedToken}
    (inside : offset + count ≤ job.text.size) (begins : base ≤ other.text.size)
    (lexed : job.lex (offset + count) mode = .ok token) (agree : Cursor.Agree job.text other.text offset base stop)
    (bound : token.examinedEnd ≤ stop) :
    other.lex (base + count) mode = .ok (token.movedTo (base + count)) := by
  obtain ⟨ownLanguage, text, maxSkipped, stepLimit⟩ := other
  cases language
  have reportsOn : (job.on text).Reports := fun position mode => reportsToo position mode
  exact Job.lex_elsewhere sound reports reportsOn offset count inside begins lexed agree bound

omit language reportsToo in
theorem Job.moved {position : Nat} {mode : LexMode} {token : LexedToken} (inside : position ≤ job.text.size)
    (lexed : job.lex position mode = .ok token) (base : Nat) :
    (token.movedTo base).bare = token.bare ∧
      (token.movedTo base).examinedEnd + position = token.examinedEnd + base := by
  have fits := job.lex_fits sound inside lexed
  have start := fits.start_eq
  have stop := fits.stop_eq
  have reaches := Job.stop_le_of_lex reports inside lexed
  refine ⟨LexedToken.bare_movedTo base (by omega), ?_⟩
  unfold LexedToken.movedTo
  dsimp only
  omega

theorem Job.Lexes.elsewhere {position base : Nat} {mode : LexMode} {leaf : Green.Token}
    (lexes : job.Lexes position mode leaf) (inside : position ≤ job.text.size) (begins : base ≤ other.text.size)
    (agree : Cursor.Agree job.text other.text position base (position + leaf.textLength + leaf.lookahead)) :
    other.Lexes base mode leaf := by
  obtain ⟨token, lexed, seen, bound⟩ := lexes
  obtain ⟨same, reach⟩ := Job.moved sound reports inside lexed base
  refine ⟨token.movedTo base, ?_, same.trans seen, by omega⟩
  exact Job.lex_moved sound reports language reportsToo 0 inside begins lexed agree bound

/-! ### Nodes -/

/-- The stretch that was examined for a node holds the same bytes at another place of another text. -/
structure Job.Moves (job other : Job) (offset base : Nat) (node : Node) : Prop where
  inside : offset + node.textLength ≤ job.text.size
  begins : base ≤ other.text.size
  agree : Cursor.Agree job.text other.text offset base (offset + node.textLength + node.info.lookahead)

theorem Job.Foretells.elsewhere {offset base : Nat} {node : Node} {target : StateId} {next : LexedToken}
    (foretells : job.Foretells offset node target next) (nodeSound : node.element.Sound job.table)
    (moves : job.Moves other offset base node) :
    other.Foretells base node target (next.movedTo (base + node.textLength)) := by
  obtain ⟨same, reach⟩ := Job.moved sound reports moves.inside foretells.lexed (base + node.textLength)
  have within := foretells.within
  have starts := (job.lex_fits sound moves.inside foretells.lexed).start_eq
  have tableIs : other.table = job.table := congrArg Language.table language
  refine ⟨?_, by omega, ?_, fun empty => tableIs ▸ foretells.blank empty, ?_⟩
  · exact Job.lex_moved sound reports language reportsToo node.textLength moves.inside moves.begins
      foretells.lexed moves.agree within
  · rw [tableIs]
    exact foretells.goes
  · intro stop bounded examined
    rw [tableIs] at bounded
    have reaches := Job.stop_le_of_lex reports moves.inside foretells.lexed
    have stopsAt := (job.lex_fits sound moves.inside foretells.lexed).stop_eq
    have own : Within (offset + node.textLength + node.info.lookahead) offset
        (spliced job.table none node.element) := within_spliced nodeSound none (Nat.le_refl _)
    have back : Within (stop + offset - base) offset (spliced job.table none node.element) :=
      bounded.move (by omega)
    have retells := foretells.retells _ (own.min back) (Nat.le_min.mpr ⟨within, by omega⟩)
    refine (retells.elsewhere language (moves.agree.shorten (Nat.min_le_left _ _)) ?_).alike same
    have le := Nat.min_le_right (offset + node.textLength + node.info.lookahead) (stop + offset - base)
    omega

theorem Job.Holds.elsewhere {offset base : Nat} {node : Node} (holds : job.Holds offset node)
    (nodeSound : node.element.Sound job.table) (moves : job.Moves other offset base node) :
    other.Holds base node := by
  intro intact
  obtain ⟨target, next, foretells⟩ := holds intact
  exact ⟨target, _, foretells.elsewhere sound reports language reportsToo nodeSound moves⟩

theorem Job.Links.elsewhere {offset base : Nat} {left right : Nat × Node}
    (links : job.Links (offset + left.1, left.2) (offset + right.1, right.2))
    (leftHolds : job.Holds (offset + left.1) left.2) (rightHolds : job.Holds (offset + right.1) right.2)
    (leftSound : left.2.element.Sound job.table) (rightSound : right.2.element.Sound job.table)
    (leftMoves : job.Moves other (offset + left.1) (base + left.1) left.2)
    (rightMoves : job.Moves other (offset + right.1) (base + right.1) right.2) :
    other.Links (base + left.1, left.2) (base + right.1, right.2) := by
  intro target joint next after leftIntact rightIntact leftTells rightTells
  obtain ⟨_, found, foretells⟩ := leftHolds leftIntact
  obtain ⟨_, later, foretellsLater⟩ := rightHolds rightIntact
  obtain ⟨-, rfl⟩ := leftTells.unique (foretells.elsewhere sound reports language reportsToo leftSound leftMoves)
  obtain ⟨-, rfl⟩ := rightTells.unique
    (foretellsLater.elsewhere sound reports language reportsToo rightSound rightMoves)
  have seen := links _ _ _ _ leftIntact rightIntact foretells foretellsLater
  have first := (Job.moved sound reports leftMoves.inside foretells.lexed (base + left.1 + left.2.textLength)).1
  have second := (Job.moved sound reports rightMoves.inside foretellsLater.lexed
    (base + right.1 + right.2.textLength)).1
  exact first.trans (seen.trans (before_alike second.symm rfl))

theorem Job.Joins.elsewhere {state : StateId} {offset base : Nat} {place : Nat × Node}
    (joins : job.Joins state (offset + place.1, place.2)) (holds : job.Holds (offset + place.1) place.2)
    (nodeSound : place.2.element.Sound job.table)
    (moves : job.Moves other (offset + place.1) (base + place.1) place.2) :
    other.Joins state (base + place.1, place.2) := by
  intro intact
  obtain ⟨begun, joinsOn⟩ := joins intact
  obtain ⟨found, after, foretells⟩ := holds intact
  have tableIs : other.table = job.table := congrArg Language.table language
  refine ⟨begun, fun joint next foretellsToo => ?_⟩
  obtain ⟨rfl, rfl⟩ := foretellsToo.unique
    (foretells.elsewhere sound reports language reportsToo nodeSound moves)
  rw [tableIs]
  exact joinsOn joint after foretells

theorem Job.Strung.elsewhere {kind : KindId} {state : StateId} {offset base : Nat} {bases : List Node}
    (strung : job.Strung kind state offset bases)
    (each : ∀ place, place ∈ placed 0 bases → place.2.element.Sound job.table ∧
      job.Moves other (offset + place.1) (base + place.1) place.2) : other.Strung kind state base bases := by
  have tableIs : other.table = job.table := congrArg Language.table language
  have held := strung.held
  have linked := strung.linked
  have joins := strung.joins
  have here : placed offset bases = (placed 0 bases).map (fun place => (offset + place.1, place.2)) :=
    placed_eq_map offset bases 0
  have there : placed base bases = (placed 0 bases).map (fun place => (base + place.1, place.2)) :=
    placed_eq_map base bases 0
  rw [here] at held linked joins
  rw [List.isChain_map] at linked
  rw [← List.map_tail] at joins
  have holds : ∀ place, place ∈ placed 0 bases → job.Holds (offset + place.1) place.2 :=
    fun place member => held _ (List.mem_map.mpr ⟨place, member, rfl⟩)
  refine ⟨strung.kinds, ?_, ?_, ?_, ?_⟩
  · rw [there]
    intro place member
    obtain ⟨origin, among, rfl⟩ := List.mem_map.mp member
    obtain ⟨baseSound, moves⟩ := each origin among
    exact (holds origin among).elsewhere sound reports language reportsToo baseSound moves
  · rw [there, List.isChain_map]
    refine linked.imp_of_mem_imp fun left right leftMember rightMember links => ?_
    obtain ⟨leftSound, leftMoves⟩ := each left leftMember
    obtain ⟨rightSound, rightMoves⟩ := each right rightMember
    exact links.elsewhere sound reports language reportsToo (holds left leftMember) (holds right rightMember)
      leftSound rightSound leftMoves rightMoves
  · rw [there, ← List.map_tail]
    intro place member
    obtain ⟨origin, among, rfl⟩ := List.mem_map.mp member
    have inRow := List.mem_of_mem_tail among
    obtain ⟨baseSound, moves⟩ := each origin inRow
    exact (joins _ (List.mem_map.mpr ⟨origin, among, rfl⟩)).elsewhere sound reports language reportsToo
      (holds origin inRow) baseSound moves
  · rw [tableIs]
    exact strung.apart

end Moving

end IncrementalParsing
