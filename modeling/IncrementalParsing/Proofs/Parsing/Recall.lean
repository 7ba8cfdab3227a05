import IncrementalParsing.Proofs.Parsing.Offered
import IncrementalParsing.Proofs.Parsing.Relocation

/-!
What a tree recalls of the text that it was made from. Every leaf in it is what the lexer reads at its place,
every intact node is built again from where it was begun, and the repetitions of a rope are joined one after
the other. All of this is said of elements in their places, and goes with them to every text that has the same
bytes there.
-/

namespace IncrementalParsing

open Green

/-! ### Single elements -/

def Job.Begins (job : Job) (state : StateId) (place : Nat × Node) : Prop :=
  place.2.Intact → job.table.goto place.2.info.preState place.2.kind = some state ∨ job.Joins state place

/-- Repetitions in a row that a rope can hold, with a state to which one of them leads. -/
def Job.Row (job : Job) (kind : KindId) (offset : Nat) (bases : List Node) : Prop :=
  ∃ state, (∃ below, job.table.goto below kind = some state) ∧ job.Strung kind state offset bases ∧
    ∀ first, bases.head? = some first → job.Begins state (offset, first)

structure Job.Accounts (job : Job) (offset : Nat) (node : Node) : Prop where
  repeats : job.table.isRepeat node.kind = true ↔ 0 < node.height
  holds : node.height = 0 → job.Holds offset node
  paired : 0 < node.height → Rope.Paired node.kind node
  row : 0 < node.height → job.Row node.kind offset (ropeBases node.element)

def Job.Knows (job : Job) : OldElement → Prop
  | ⟨start, .token leaf⟩ => job.Lexes start leaf.lexMode leaf
  | ⟨start, .node head children⟩ => job.Accounts start ⟨head, children⟩

def Job.Recalls (job : Job) (place : OldElement) : Prop := ∀ inner, place.Below inner → job.Knows inner

def Job.RecallsAll (job : Job) (offset : Nat) (children : List Child) : Prop :=
  ∀ place, place ∈ OldElement.ofChildren offset children → job.Recalls place

section Lists

variable {job : Job}

theorem Job.recalls_token {offset : Nat} {leaf : Green.Token} :
    job.Recalls ⟨offset, .token leaf⟩ ↔ job.Lexes offset leaf.lexMode leaf := by
  refine ⟨fun recalls => recalls _ (.refl _), fun lexes inner below => ?_⟩
  rcases below.cases_head with rfl | ⟨child, member, _⟩
  · exact lexes
  · exact absurd member List.not_mem_nil

theorem Job.recalls_node {offset : Nat} {node : Node} :
    job.Recalls ⟨offset, node.element⟩ ↔ job.Accounts offset node ∧ job.RecallsAll offset node.children := by
  constructor
  · intro recalls
    refine ⟨recalls _ (.refl _), fun place member inner below => recalls inner ?_⟩
    exact (OldElement.Below.child (.refl _) member).trans below
  · rintro ⟨accounts, inside⟩ inner below
    rcases below.cases_head with rfl | ⟨child, member, rest⟩
    · exact accounts
    · exact inside child member inner rest

theorem Job.Recalls.inside {offset : Nat} {element : Element} (recalls : job.Recalls ⟨offset, element⟩) :
    job.RecallsAll offset element.children := by
  cases element with
  | token leaf => exact fun place member => absurd member List.not_mem_nil
  | node head children =>
      have here : job.Recalls ⟨offset, (Node.mk head children).element⟩ := recalls
      exact (Job.recalls_node.mp here).2

theorem Job.recallsAll_nil {offset : Nat} : job.RecallsAll offset [] :=
  fun _ none => absurd none List.not_mem_nil

theorem Job.recallsAll_cons {offset : Nat} {child : Child} {rest : List Child} :
    job.RecallsAll offset (child :: rest) ↔
      job.Recalls ⟨offset, child.element⟩ ∧ job.RecallsAll (offset + child.element.textLength) rest := by
  unfold Job.RecallsAll
  rw [OldElement.ofChildren, List.forall_mem_cons]

theorem Job.recallsAll_append {right : List Child} : ∀ {left : List Child} {offset : Nat},
    job.RecallsAll offset (left ++ right) ↔
      job.RecallsAll offset left ∧ job.RecallsAll (offset + lengthOf left) right
  | [], offset => by simp [Job.recallsAll_nil]
  | child :: rest, offset => by
      rw [List.cons_append, Job.recallsAll_cons, Job.recallsAll_cons, Job.recallsAll_append, lengthOf_cons, and_assoc,
        ← Nat.add_assoc offset]

theorem Job.recallsAll_relabel (label : Child → Option FieldId) : ∀ {children : List Child} {offset : Nat},
    job.RecallsAll offset (children.map (fun child => ⟨label child, child.element⟩)) ↔
      job.RecallsAll offset children
  | [], _ => Iff.rfl
  | child :: rest, offset => by
      rw [List.map_cons, Job.recallsAll_cons, Job.recallsAll_cons, Job.recallsAll_relabel label]

/-! ### Children -/

variable {table : Table}

theorem Job.Recalls.spliced {offset : Nat} {element : Element} (recalls : job.Recalls ⟨offset, element⟩)
    (field : Option FieldId) : job.RecallsAll offset (spliced table field element) := by
  have alone : job.RecallsAll offset [⟨field, element⟩] := Job.recallsAll_cons.mpr ⟨recalls, Job.recallsAll_nil⟩
  cases element with
  | token leaf => exact alone
  | node head children =>
      unfold IncrementalParsing.spliced
      dsimp only
      split
      · exact (Job.recallsAll_relabel (fun child => child.field.or field)).mpr recalls.inside
      · exact alone

theorem Job.Recalls.splicedIntoError {offset : Nat} {element : Element} (recalls : job.Recalls ⟨offset, element⟩) :
    job.RecallsAll offset (splicedIntoError table element) := by
  unfold IncrementalParsing.splicedIntoError
  split
  · exact (Job.recallsAll_relabel (fun _ => none)).mpr recalls.inside
  · exact recalls.spliced none

theorem Job.recallsAll_productionChildren : ∀ (fields : List (Option FieldId)) (entries : List StackEntry)
    (offset : Nat), ParseStack.Sound table entries → job.RecallsAll offset (contents entries) →
    job.RecallsAll offset (productionChildren table fields entries)
  | _, [], _, _, _ => Job.recallsAll_nil
  | fields, entry :: rest, offset, sound, recalls => by
      obtain ⟨here, others⟩ := Job.recallsAll_cons.mp recalls
      have length : ∀ field, lengthOf (IncrementalParsing.spliced table field entry.element) =
          entry.element.textLength := fun _ => lengthOf_spliced (sound entry List.mem_cons_self)
      have later := fun fields => Job.recallsAll_productionChildren fields rest _ sound.tail others
      rw [productionChildren]
      split
      · rw [Job.recallsAll_append, length]
        exact ⟨here.spliced _, later _⟩
      · rw [Job.recallsAll_append, length]
        exact ⟨here.spliced _, later _⟩

theorem Job.recallsAll_errorChildren : ∀ (elements : List Element) (offset : Nat),
    (∀ element, element ∈ elements → element.Sound table) → job.RecallsAll offset (loose elements) →
    job.RecallsAll offset (elements.flatMap (IncrementalParsing.splicedIntoError table))
  | [], _, _, _ => Job.recallsAll_nil
  | element :: rest, offset, sound, recalls => by
      obtain ⟨here, others⟩ := Job.recallsAll_cons.mp recalls
      rw [List.flatMap_cons, Job.recallsAll_append, lengthOf_splicedIntoError (sound element List.mem_cons_self)]
      exact ⟨here.splicedIntoError, Job.recallsAll_errorChildren rest _
        (fun other among => sound other (List.mem_cons_of_mem _ among)) others⟩

theorem Table.Numbered.ne_error_of_repeat (numbered : table.Numbered) {kind : KindId}
    (repeats : table.isRepeat kind = true) : kind ≠ .error := by
  rintro rfl
  have above := of_decide_eq_true (Bool.and_eq_true_iff.mp repeats).1
  have reserved := numbered.reserved
  have positive := numbered.rules_pos
  change table.terminalCount + table.ruleCount ≤ 1 at above
  omega

theorem exists_mem_ofChildren : ∀ (offset : Nat) (children : List Child) (child : Child), child ∈ children →
    ∃ place, place ∈ OldElement.ofChildren offset children ∧ place.element = child.element
  | offset, first :: rest, child, member => by
      rcases List.mem_cons.mp member with rfl | others
      · exact ⟨_, List.mem_cons_self, rfl⟩
      · obtain ⟨place, among, same⟩ := exists_mem_ofChildren _ rest child others
        exact ⟨place, List.mem_cons_of_mem _ among, same⟩

theorem Job.Recalls.ropeNamed (numbered : job.table.Numbered) : ∀ (element : Element) {offset : Nat},
    job.Recalls ⟨offset, element⟩ → element.Everywhere Element.RopeNamed := by
  refine Element.induct (fun leaf _ _ => .token trivial) ?_
  intro head children ih offset recalls
  have here : job.Recalls ⟨offset, (Node.mk head children).element⟩ := recalls
  obtain ⟨accounts, inside⟩ := Job.recalls_node.mp here
  refine .node (fun rope => numbered.ne_error_of_repeat (accounts.repeats.mpr (Nat.pos_of_ne_zero rope))) ?_
  intro child member
  obtain ⟨place, among, same⟩ := exists_mem_ofChildren offset children child member
  obtain ⟨start, element⟩ := place
  cases same
  exact ih child member (inside _ among)

end Lists

/-! ### Ropes -/

section Ropes

variable {job : Job} {table : Table}

theorem Job.Row.left {kind : KindId} {offset : Nat} {lefts rights : List Node}
    (row : job.Row kind offset (lefts ++ rights))
    (some_ : lefts ≠ []) : job.Row kind offset lefts := by
  obtain ⟨state, led, strung, begins⟩ := row
  refine ⟨state, led, strung.left, fun first head => begins first ?_⟩
  rw [List.head?_append_of_ne_nil lefts some_]
  exact head

theorem Job.Row.right {kind : KindId} {offset : Nat} {lefts rights : List Node}
    (row : job.Row kind offset (lefts ++ rights))
    (some_ : lefts ≠ []) : job.Row kind (offset + lengthOfNodes lefts) rights := by
  obtain ⟨state, led, strung, _⟩ := row
  refine ⟨state, led, strung.right, fun first head _ => Or.inr ?_⟩
  cases rights with
  | nil => cases head
  | cons other rest =>
      cases head
      exact strung.joins_right some_ _ List.mem_cons_self

theorem Green.Rope.Paired.kind_eq {kind : KindId} {rope : Node} (paired : Rope.Paired kind rope)
    (bases : ∀ base, base ∈ ropeBases rope.element → base.kind = kind) : rope.kind = kind := by
  cases paired with
  | base low =>
      refine bases rope ?_
      rw [ropeBases_base (Nat.le_of_eq low)]
      exact List.mem_singleton_self rope
  | pair => rfl

theorem Green.Node.Halved.ofChildren_eq {node left right : Node} (halved : node.Halved left right) (offset : Nat) :
    OldElement.ofChildren offset node.children =
      [⟨offset, left.element⟩, ⟨offset + left.textLength, right.element⟩] := by
  rw [halved.children_eq]
  rfl

theorem Job.Recalls.bases {rope : Node} (isRope : rope.IsRope table) : ∀ {offset : Nat},
    job.Recalls ⟨offset, rope.element⟩ →
    ∀ place, place ∈ placed offset (ropeBases rope.element) → job.Recalls ⟨place.1, place.2.element⟩ := by
  refine Node.IsRope.induct
    (motive := fun node => ∀ {offset : Nat}, job.Recalls ⟨offset, node.element⟩ →
      ∀ place, place ∈ placed offset (ropeBases node.element) → job.Recalls ⟨place.1, place.2.element⟩)
    ?_ ?_ rope.height (Nat.le_refl _) isRope
  · intro node _ low offset recalls place member
    rw [ropeBases_base low] at member
    cases List.mem_singleton.mp member
    exact recalls
  · intro node left right _ halved leftRope _ ofLeft ofRight offset recalls place member
    have inside := recalls.inside
    unfold Job.RecallsAll at inside
    rw [show node.element.children = node.children from rfl, halved.ofChildren_eq] at inside
    rw [halved.bases_eq, placed_append, ← leftRope.textLength_eq] at member
    rcases List.mem_append.mp member with first | second
    · exact ofLeft (inside _ List.mem_cons_self) place first
    · exact ofRight (inside _ (List.mem_cons_of_mem _ List.mem_cons_self)) place second

theorem Job.recalls_rope {kind : KindId} (repeats : job.table.isRepeat kind = true) {rope : Node}
    (isRope : rope.IsRope table) : ∀ {offset : Nat}, Rope.Paired kind rope →
    job.Row kind offset (ropeBases rope.element) →
    (∀ place, place ∈ placed offset (ropeBases rope.element) → job.Recalls ⟨place.1, place.2.element⟩) →
    job.Recalls ⟨offset, rope.element⟩ := by
  refine Node.IsRope.induct
    (motive := fun node => ∀ {offset : Nat}, Rope.Paired kind node → job.Row kind offset (ropeBases node.element) →
      (∀ place, place ∈ placed offset (ropeBases node.element) → job.Recalls ⟨place.1, place.2.element⟩) →
      job.Recalls ⟨offset, node.element⟩)
    ?_ ?_ rope.height (Nat.le_refl _) isRope
  · intro node _ low offset _ _ each
    rw [ropeBases_base low] at each
    exact each (offset, node) List.mem_cons_self
  · intro node left right whole halved leftRope rightRope ofLeft ofRight offset paired row each
    obtain ⟨leftPaired, rightPaired⟩ := paired.halves halved.splits
    have kindIs : node.kind = kind := paired.kind_eq fun base member => by
      obtain ⟨_, _, strung, _⟩ := row
      exact (strung.kinds base member).1
    have own := row
    rw [halved.bases_eq] at row each
    rw [placed_append] at each
    refine Job.recalls_node.mpr ⟨⟨⟨fun _ => whole.height_pos, fun _ => kindIs.symm ▸ repeats⟩, fun low => ?_,
      fun _ => kindIs.symm ▸ paired, fun _ => kindIs.symm ▸ own⟩, ?_⟩
    · exact absurd low (Nat.ne_of_gt whole.height_pos)
    · unfold Job.RecallsAll
      rw [halved.ofChildren_eq]
      intro place member
      rcases List.mem_cons.mp member with rfl | second
      · exact ofLeft leftPaired (row.left leftRope.bases_ne_nil) fun place member =>
          each place (List.mem_append_left _ member)
      · cases List.mem_singleton.mp second
        rw [leftRope.textLength_eq]
        exact ofRight rightPaired (row.right leftRope.bases_ne_nil) fun place member =>
          each place (List.mem_append_right _ member)

theorem Green.Node.IsRope.base_sound {rope : Node} (isRope : rope.IsRope table) :
    ∀ base, base ∈ ropeBases rope.element → base.element.Sound table := by
  refine Node.IsRope.induct (motive := fun node => ∀ base, base ∈ ropeBases node.element → base.element.Sound table)
    ?_ ?_ rope.height (Nat.le_refl _) isRope
  · intro node whole low base member
    rw [ropeBases_base low] at member
    cases List.mem_singleton.mp member
    exact whole.sound
  · intro node left right _ halved _ _ ofLeft ofRight base member
    rw [halved.bases_eq] at member
    rcases List.mem_append.mp member with first | second
    · exact ofLeft base first
    · exact ofRight base second

theorem Green.le_of_mem_placed : ∀ {nodes : List Node} {offset : Nat} {place : Nat × Node},
    place ∈ placed offset nodes → place.1 + place.2.textLength ≤ offset + lengthOfNodes nodes
  | node :: rest, offset, place, member => by
      rw [lengthOfNodes_cons]
      rcases List.mem_cons.mp member with rfl | later
      · dsimp only
        omega
      · have le := le_of_mem_placed later
        omega

end Ropes

/-! ### The same text elsewhere -/

section Moving

variable {job other : Job} (sound : job.Sound) (reports : job.Reports) (language : other.language = job.language)
  (reportsToo : other.Reports)

include sound reports language reportsToo

theorem Job.Row.elsewhere {kind : KindId} {offset base : Nat} {bases : List Node} (row : job.Row kind offset bases)
    (each : ∀ place, place ∈ placed 0 bases → place.2.element.Sound job.table ∧
      job.Moves other (offset + place.1) (base + place.1) place.2) : other.Row kind base bases := by
  obtain ⟨state, led, strung, begins⟩ := row
  have tableIs : other.table = job.table := congrArg Language.table language
  refine ⟨state, by rw [tableIs]; exact led, strung.elsewhere sound reports language reportsToo each,
    fun first head intact => ?_⟩
  obtain ⟨firstSound, moves⟩ : first.element.Sound job.table ∧ job.Moves other offset base first := by
    cases bases with
    | nil => cases head
    | cons lone rest =>
        cases head
        exact each (0, first) List.mem_cons_self
  have held : job.Holds offset first := by
    cases bases with
    | nil => cases head
    | cons lone rest =>
        cases head
        exact strung.held (offset, first) List.mem_cons_self
  rcases begins first head intact with goes | joins
  · rw [tableIs]
    exact Or.inl goes
  · have moved : other.Joins state (base + (0, first).1, (0, first).2) :=
      Job.Joins.elsewhere sound reports language reportsToo joins held firstSound moves
    exact Or.inr moved

theorem Job.Accounts.elsewhere {offset base : Nat} {node : Node} (accounts : job.Accounts offset node)
    (nodeSound : node.element.Sound job.table) (moves : job.Moves other offset base node) :
    other.Accounts base node := by
  have tableIs : other.table = job.table := congrArg Language.table language
  refine ⟨by rw [tableIs]; exact accounts.repeats,
    fun ordinary => (accounts.holds ordinary).elsewhere sound reports language reportsToo nodeSound moves,
    accounts.paired, fun positive => (accounts.row positive).elsewhere sound reports language reportsToo ?_⟩
  intro place member
  have isRope : node.IsRope job.table := ⟨nodeSound, positive⟩
  have numbered : job.table.Numbered := sound.table
  have tells := (accounts.paired positive).tells (numbered.ne_error_of_repeat (accounts.repeats.mpr positive))
  have there : (offset + place.1, place.2) ∈ placed offset (ropeBases node.element) := by
    rw [show placed offset (ropeBases node.element) = _ from placed_eq_map offset _ 0]
    exact List.mem_map.mpr ⟨place, member, rfl⟩
  have ends := le_of_mem_placed member
  have within := tells.within there
  have inside := moves.inside
  rw [isRope.textLength_eq] at inside
  dsimp only at within
  have begins : base + place.1 ≤ other.text.size := moves.agree.inside (by omega) (by omega) moves.begins
  exact ⟨isRope.base_sound _ (exists_mem_placed member), by omega, begins,
    (moves.agree.shorten within).advance place.1⟩

/-- What an element recalls of one text it recalls of another one that has the same bytes as far as was looked
for the element. -/
theorem Job.Recalls.elsewhere : ∀ (element : Element) {offset base : Nat}, job.Recalls ⟨offset, element⟩ →
    element.Sound job.table → offset + element.textLength ≤ job.text.size → base ≤ other.text.size →
    Cursor.Agree job.text other.text offset base (offset + element.textLength + element.lookahead) →
    other.Recalls ⟨base, element⟩ := by
  refine Element.induct ?_ ?_
  · intro leaf offset base recalls _ inside begins agree
    have within : offset ≤ job.text.size := Nat.le_trans (Nat.le_add_right _ _) inside
    exact Job.recalls_token.mpr ((Job.recalls_token.mp recalls).elsewhere sound reports language reportsToo within
      begins agree)
  · intro head children ih offset base recalls whole inside begins agree
    have here : job.Recalls ⟨offset, (Node.mk head children).element⟩ := recalls
    obtain ⟨accounts, all⟩ := Job.recalls_node.mp here
    have each : ∀ (children : List Child), (∀ child, child ∈ children → ∀ {offset base : Nat},
          job.Recalls ⟨offset, child.element⟩ → child.element.Sound job.table →
          offset + child.element.textLength ≤ job.text.size → base ≤ other.text.size →
          Cursor.Agree job.text other.text offset base (offset + child.element.textLength + child.element.lookahead) →
          other.Recalls ⟨base, child.element⟩) →
        (∀ child, child ∈ children → child.element.Sound job.table) → ∀ {offset base stop : Nat},
        job.RecallsAll offset children → Within stop offset children →
        offset + lengthOf children ≤ job.text.size → base ≤ other.text.size →
        Cursor.Agree job.text other.text offset base stop → other.RecallsAll base children := by
      intro children
      induction children with
      | nil => exact fun _ _ _ _ _ _ _ _ _ _ => Job.recallsAll_nil
      | cons child rest later =>
          intro moves sounds offset base stop recalls within inside begins agree
          obtain ⟨first, others⟩ := Job.recallsAll_cons.mp recalls
          obtain ⟨reached, further⟩ := within
          rw [lengthOf_cons] at inside
          refine Job.recallsAll_cons.mpr ⟨moves child List.mem_cons_self first (sounds child List.mem_cons_self)
            (by omega) begins (agree.shorten reached), ?_⟩
          exact later (fun other member => moves other (List.mem_cons_of_mem _ member))
            (fun other member => sounds other (List.mem_cons_of_mem _ member)) others further (by omega)
            (agree.inside (by omega) (by omega) begins) (agree.advance _)
    have made : (Node.mk head children).IsMade := whole.here.1
    have length : head.textLength = lengthOf children := made.textLength
    have moved : other.Recalls ⟨base, (Node.mk head children).element⟩ := Job.recalls_node.mpr
      ⟨accounts.elsewhere sound reports language reportsToo whole ⟨inside, begins, agree⟩,
        each children ih whole.inside all (made.within offset) (by rw [← length]; exact inside) begins agree⟩
    exact moved

end Moving

end IncrementalParsing
