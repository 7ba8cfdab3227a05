import IncrementalParsing.Green.Sketch
import IncrementalParsing.Proofs.Green.Balance

/-!
Metadata of ropes. A rope that is joined of bases, in whatever order they are joined, tells of its bases what
a single node around them would tell: where it begins and ends, how far was looked past its end, and whether
there is an error or a fragile element in it. Rotations regroup the bases and change nothing of that, so only
the height of a rope depends on how it was joined. Ropes can be joined as long as what was looked at for their
bases ends at offsets.
-/

namespace IncrementalParsing.Green

/-- Ropes that are joined of some bases, one pair of ropes after another, by joins of one kind. -/
inductive Rope.Joins (kind : KindId) : List Node → Node → Prop
  | base {node : Node} : node.height = 1 → Joins kind [node] node
  | join {lefts rights : List Node} {left right node : Node} : Joins kind lefts left →
      Joins kind rights right → checkedJoin kind left.element right.element = .ok node →
      Joins kind (lefts ++ rights) node

def Rope.endOf (ropes : List Node) (count : Nat) : Nat := sumOf ((ropes.take count).map (·.textLength))

def Rope.leading? (ropes : List Node) : Option Node :=
  (ropes.find? (fun rope => decide (0 < rope.textLength))).or ropes.head?

/-- What was looked at for each of some ropes ends at an offset, when they follow one another from offset zero on. -/
def Rope.Extents (ropes : List Node) : Prop :=
  ∀ (index : Nat) (rope : Node), ropes[index]? = some rope →
    Rope.endOf ropes (index + 1) + rope.info.lookahead < offsetLimit

/-- What the metadata of a rope says about its bases. The bytes that were examined past its end are those
that were examined for one of the bases, as far as they lie there. -/
structure Rope.TellsOf (bases : List Node) (node : Node) : Prop where
  textLength : node.textLength = Rope.endOf bases bases.length
  preState : bases.head?.map (·.info.preState) = some node.info.preState
  firstLexMode : (Rope.leading? bases).map (·.info.firstLexMode) = some node.info.firstLexMode
  nextLexMode : bases.getLast?.map (·.info.nextLexMode) = some node.info.nextLexMode
  lookahead_le : ∀ (index : Nat) (base : Node), bases[index]? = some base →
    Rope.endOf bases (index + 1) + base.info.lookahead ≤ Rope.endOf bases bases.length + node.info.lookahead
  lookahead_eq : node.info.lookahead = 0 ∨ ∃ (index : Nat) (base : Node), bases[index]? = some base ∧
    Rope.endOf bases bases.length + node.info.lookahead = Rope.endOf bases (index + 1) + base.info.lookahead
  hasError : node.info.hasError = bases.any (·.info.hasError)
  fragile : node.info.fragile = bases.any (·.info.fragile)

namespace Rope

/-! ### Ends -/

theorem endOf_cons (first : Node) (rest : List Node) (count : Nat) :
    endOf (first :: rest) (count + 1) = first.textLength + endOf rest count := by
  unfold endOf
  rw [List.take_succ_cons, List.map_cons, sumOf_cons]

theorem endOf_append_left {lefts : List Node} (rights : List Node) {count : Nat} (inside : count ≤ lefts.length) :
    endOf (lefts ++ rights) count = endOf lefts count := by
  unfold endOf
  rw [List.take_append_of_le_length inside]

theorem endOf_append_right (lefts rights : List Node) (count : Nat) :
    endOf (lefts ++ rights) (lefts.length + count) = endOf lefts lefts.length + endOf rights count := by
  unfold endOf
  rw [List.take_length_add_append, List.take_length, List.map_append, sumOf_append]

theorem endOf_append (lefts rights : List Node) :
    endOf (lefts ++ rights) (lefts ++ rights).length = endOf lefts lefts.length + endOf rights rights.length := by
  rw [List.length_append]
  exact endOf_append_right lefts rights rights.length

theorem find?_text_cons (first : Node) (rest : List Node) :
    (first :: rest).find? (fun rope => decide (0 < rope.textLength)) =
      if 0 < first.textLength then some first else rest.find? (fun rope => decide (0 < rope.textLength)) := by
  rw [List.find?_cons]
  by_cases positive : 0 < first.textLength <;> simp [positive]

theorem endOf_eq_zero_iff (ropes : List Node) :
    endOf ropes ropes.length = 0 ↔ ropes.find? (fun rope => decide (0 < rope.textLength)) = none := by
  induction ropes with
  | nil => exact ⟨fun _ => rfl, fun _ => rfl⟩
  | cons first rest ih =>
      rw [List.length_cons, endOf_cons, Nat.add_eq_zero_iff, ih]
      rw [find?_text_cons]
      by_cases empty : first.textLength = 0
      · rw [if_neg (by omega)]
        exact and_iff_right empty
      · rw [if_pos (by omega)]
        exact ⟨fun both => absurd both.1 empty, fun impossible => nomatch impossible⟩

/-! ### Pairs -/

theorem firstModeOf?_cons (child : Child) (rest : List Child) : firstModeOf? (child :: rest) =
    if 0 < child.element.textLength then some child.element.firstLexMode else firstModeOf? rest := by
  unfold firstModeOf?
  rw [List.find?_cons]
  by_cases positive : 0 < child.element.textLength <;> simp [positive]

section Pairs

variable (kind : KindId) (left right : Node)

theorem textLength_pair : (pair kind left right).textLength = left.textLength + right.textLength := rfl

theorem lookahead_pair : (pair kind left right).info.lookahead =
    max (left.textLength + left.info.lookahead)
      (left.textLength + right.textLength + right.info.lookahead) - (left.textLength + right.textLength) := by
  change examinedEnd 0 0 [⟨none, left.element⟩, ⟨none, right.element⟩] - (left.textLength + right.textLength) = _
  simp only [examinedEnd, Nat.zero_max, Nat.zero_add]
  rfl

theorem firstLexMode_pair : (pair kind left right).info.firstLexMode =
    if left.textLength = 0 ∧ 0 < right.textLength then right.info.firstLexMode else left.info.firstLexMode := by
  change (firstModeOf? [⟨none, left.element⟩, ⟨none, right.element⟩]).getD left.info.firstLexMode = _
  rw [firstModeOf?_cons, firstModeOf?_cons]
  change (if 0 < left.textLength then some left.info.firstLexMode else
    if 0 < right.textLength then some right.info.firstLexMode else none).getD left.info.firstLexMode = _
  by_cases empty : left.textLength = 0
  · by_cases positive : 0 < right.textLength
    · rw [if_neg (by omega), if_pos positive, if_pos ⟨empty, positive⟩, Option.getD_some]
    · rw [if_neg (by omega), if_neg positive, if_neg (fun both => positive both.2), Option.getD_none]
  · rw [if_pos (by omega), if_neg (fun both => empty both.1), Option.getD_some]

theorem hasError_pair {kind : KindId} (other : kind ≠ .error) :
    (pair kind left right).info.hasError = (left.info.hasError || right.info.hasError) := by
  change (kind == .error || (left.info.hasError || (right.info.hasError || false))) = _
  rw [beq_eq_false_iff_ne.mpr other, Bool.false_or, Bool.or_false]

theorem fragile_pair :
    (pair kind left right).info.fragile = (left.info.fragile || right.info.fragile) := by
  change (false || (left.info.fragile || (right.info.fragile || false))) = _
  rw [Bool.false_or, Bool.or_false]

end Pairs

/-! ### What ropes tell -/

theorem TellsOf.ne_nil {bases : List Node} {node : Node} (tells : TellsOf bases node) : bases ≠ [] := by
  rintro rfl
  exact nomatch tells.preState

theorem leading?_singleton (rope : Node) : leading? [rope] = some rope := by
  unfold leading?
  rw [find?_text_cons]
  split <;> rfl

theorem tellsOf_base (node : Node) : TellsOf [node] node where
  textLength := rfl
  preState := rfl
  firstLexMode := by rw [leading?_singleton, Option.map_some]
  nextLexMode := rfl
  lookahead_le := by
    intro index base found
    cases index with
    | zero =>
        cases found
        exact Nat.le_refl _
    | succ index => cases found
  lookahead_eq := Or.inr ⟨0, node, rfl, rfl⟩
  hasError := (Bool.or_false _).symm
  fragile := (Bool.or_false _).symm

section Halves

variable {lefts rights : List Node} {left right : Node}

theorem leading?_append (some_left : lefts ≠ []) : leading? (lefts ++ rights) =
    if endOf lefts lefts.length = 0 ∧ 0 < endOf rights rights.length then leading? rights else leading? lefts := by
  unfold leading?
  rw [List.find?_append, List.head?_append_of_ne_nil _ some_left]
  by_cases empty : endOf lefts lefts.length = 0
  · rw [(endOf_eq_zero_iff lefts).mp empty, Option.none_or]
    by_cases positive : 0 < endOf rights rights.length
    · rw [if_pos ⟨empty, positive⟩]
      obtain ⟨first, found⟩ := Option.ne_none_iff_exists'.mp
        (fun missing => Nat.ne_of_gt positive ((endOf_eq_zero_iff rights).mpr missing))
      rw [found]
      rfl
    · rw [if_neg (fun both => positive both.2), (endOf_eq_zero_iff rights).mp (Nat.eq_zero_of_not_pos positive)]
  · rw [if_neg (fun both => empty both.1)]
    obtain ⟨first, found⟩ :=
      Option.ne_none_iff_exists'.mp (fun missing => empty ((endOf_eq_zero_iff lefts).mpr missing))
    rw [found]
    rfl

theorem TellsOf.pair {kind : KindId} (other : kind ≠ .error) (ofLeft : TellsOf lefts left)
    (ofRight : TellsOf rights right) : TellsOf (lefts ++ rights) (Rope.pair kind left right) where
  textLength := by rw [endOf_append, textLength_pair, ofLeft.textLength, ofRight.textLength]
  preState := by
    rw [List.head?_append_of_ne_nil _ ofLeft.ne_nil, ofLeft.preState]
    rfl
  firstLexMode := by
    rw [leading?_append ofLeft.ne_nil, firstLexMode_pair, ofLeft.textLength, ofRight.textLength]
    split
    · exact ofRight.firstLexMode
    · exact ofLeft.firstLexMode
  nextLexMode := by
    rw [List.getLast?_append_of_ne_nil _ ofRight.ne_nil, ofRight.nextLexMode]
    rfl
  lookahead_le := by
    intro index base found
    rw [endOf_append, lookahead_pair, ofLeft.textLength, ofRight.textLength]
    rcases Nat.lt_or_ge index lefts.length with inside | beyond
    · rw [List.getElem?_append_left inside] at found
      have bound := ofLeft.lookahead_le index base found
      rw [endOf_append_left rights (show index + 1 ≤ lefts.length from inside)]
      omega
    · obtain ⟨place, rfl⟩ := Nat.exists_eq_add_of_le beyond
      rw [List.getElem?_append_right beyond, Nat.add_sub_cancel_left] at found
      have bound := ofRight.lookahead_le place base found
      rw [Nat.add_assoc, endOf_append_right]
      omega
  lookahead_eq := by
    rw [endOf_append, lookahead_pair, ofLeft.textLength, ofRight.textLength]
    by_cases covered : left.info.lookahead ≤ endOf rights rights.length + right.info.lookahead
    · rcases ofRight.lookahead_eq with nothing | ⟨place, base, found, reaches⟩
      · left
        omega
      · refine Or.inr ⟨lefts.length + place, base, ?_, ?_⟩
        · rw [List.getElem?_append_right (Nat.le_add_right _ _), Nat.add_sub_cancel_left, found]
        · rw [Nat.add_assoc lefts.length, endOf_append_right]
          omega
    · rcases ofLeft.lookahead_eq with nothing | ⟨index, base, found, reaches⟩
      · omega
      · have inside := (List.getElem?_eq_some_iff.mp found).1
        refine Or.inr ⟨index, base, ?_, ?_⟩
        · rw [List.getElem?_append_left inside, found]
        · rw [endOf_append_left rights (show index + 1 ≤ lefts.length from inside)]
          omega
  hasError := by rw [hasError_pair left right other, List.any_append, ofLeft.hasError, ofRight.hasError]
  fragile := by rw [fragile_pair, List.any_append, ofLeft.fragile, ofRight.fragile]

end Halves

/-! ### Joins -/

inductive Paired (kind : KindId) : Node → Prop
  | base {node : Node} : node.height = 1 → Paired kind node
  | pair {left right : Node} : Paired kind left → Paired kind right → Paired kind (Rope.pair kind left right)

theorem Paired.height_pos {kind : KindId} {node : Node} (paired : Paired kind node) : 0 < node.height := by
  cases paired with
  | base height => exact height ▸ Nat.zero_lt_one
  | pair _ _ => exact height_pair_pos _ _ _

theorem Paired.halves {kind : KindId} {node left right : Node} (paired : Paired kind node)
    (splits : node.Splits left right) : Paired kind left ∧ Paired kind right := by
  cases paired with
  | base height => exact absurd splits.high (by omega)
  | pair leftPaired rightPaired =>
      cases splits.halves.symm.trans (halves?_pair _ _ _)
      exact ⟨leftPaired, rightPaired⟩

theorem Assembled.paired {kind : KindId} {left right node : Node} (ofLeft : Paired kind left)
    (ofRight : Paired kind right) (assembled : Assembled kind left right node) : Paired kind node := by
  induction assembled with
  | left => exact ofLeft
  | right => exact ofRight
  | first _ splits ih => exact (ih.halves splits).1
  | second _ splits ih => exact (ih.halves splits).2
  | pair _ _ _ _ firstIh secondIh => exact .pair firstIh secondIh

theorem Paired.tells {kind : KindId} (other : kind ≠ .error) {node : Node} (paired : Paired kind node) :
    TellsOf (ropeBases node.element) node := by
  induction paired with
  | @base node height =>
      rw [ropeBases_base (Nat.le_of_eq height)]
      exact tellsOf_base node
  | pair leftPaired _ ofLeft ofRight =>
      rw [ropeBases_pair leftPaired.height_pos]
      exact ofLeft.pair other ofRight

theorem checkedJoin_ok {kind : KindId} {left right node : Node} :
    checkedJoin kind left.element right.element = .ok node ↔
      offsetsFit 0 [⟨none, left.element⟩, ⟨none, right.element⟩] = true ∧ Rope.join kind left right = .ok node := by
  change (if _ then Rope.join kind left right else _) = _ ↔ _
  split
  · rename_i fits
    exact (and_iff_right fits).symm
  · rename_i beyond
    exact ⟨fun impossible => (nomatch impossible), fun both => absurd both.1 beyond⟩

theorem Joins.paired {kind : KindId} {bases : List Node} {node : Node} (joins : Joins kind bases node) :
    node.Balanced ∧ Paired kind node ∧ ropeBases node.element = bases := by
  induction joins with
  | base height => exact ⟨.base height, .base height, ropeBases_base (Nat.le_of_eq height)⟩
  | join _ _ joined ofLeft ofRight =>
      obtain ⟨leftBalanced, leftPaired, leftBases⟩ := ofLeft
      obtain ⟨rightBalanced, rightPaired, rightBases⟩ := ofRight
      obtain ⟨node, made, concatenates, _⟩ := exists_join kind leftBalanced rightBalanced
      cases made.symm.trans (checkedJoin_ok.mp joined).2
      refine ⟨concatenates.assembled.balanced leftBalanced rightBalanced,
        concatenates.assembled.paired leftPaired rightPaired, ?_⟩
      rw [concatenates.bases, leftBases, rightBases]

theorem TellsOf.unique {bases : List Node} {node other : Node} (tells : TellsOf bases node)
    (tellsToo : TellsOf bases other) :
    other.textLength = node.textLength ∧
      { other.info with ropeHeight := node.info.ropeHeight } = node.info := by
  have preState := Option.some.inj (tellsToo.preState.symm.trans tells.preState)
  have firstLexMode := Option.some.inj (tellsToo.firstLexMode.symm.trans tells.firstLexMode)
  have nextLexMode := Option.some.inj (tellsToo.nextLexMode.symm.trans tells.nextLexMode)
  have hasError := tellsToo.hasError.trans tells.hasError.symm
  have fragile := tellsToo.fragile.trans tells.fragile.symm
  have lookahead : other.info.lookahead = node.info.lookahead := by
    apply Nat.le_antisymm
    · rcases tellsToo.lookahead_eq with nothing | ⟨index, base, found, reaches⟩
      · omega
      · have bound := tells.lookahead_le index base found
        omega
    · rcases tells.lookahead_eq with nothing | ⟨index, base, found, reaches⟩
      · omega
      · have bound := tellsToo.lookahead_le index base found
        omega
  refine ⟨tellsToo.textLength.trans tells.textLength.symm, ?_⟩
  dsimp only
  rw [preState, firstLexMode, nextLexMode, lookahead, hasError, fragile]

theorem Joins.tells {kind : KindId} (other : kind ≠ .error) {bases : List Node} {node : Node}
    (joins : Joins kind bases node) : TellsOf bases node := by
  obtain ⟨_, paired, sameBases⟩ := joins.paired
  rw [← sameBases]
  exact paired.tells other

section Extents

variable {lefts rights : List Node} {left right : Node}

theorem TellsOf.extents_iff {bases : List Node} {node : Node} (tells : TellsOf bases node) :
    Extents bases ↔ node.textLength + node.info.lookahead < offsetLimit := by
  rw [tells.textLength]
  constructor
  · intro extents
    rcases tells.lookahead_eq with nothing | ⟨index, base, found, reaches⟩
    · have positive := List.length_pos_iff.mpr tells.ne_nil
      have last := extents (bases.length - 1) _ (List.getElem?_eq_getElem (by omega))
      rw [Nat.sub_add_cancel positive] at last
      omega
    · rw [reaches]
      exact extents index base found
  · intro fits index base found
    exact Nat.lt_of_le_of_lt (tells.lookahead_le index base found) fits

theorem extents_append : Extents (lefts ++ rights) ↔ Extents lefts ∧ ∀ (index : Nat) (rope : Node),
    rights[index]? = some rope →
      endOf lefts lefts.length + endOf rights (index + 1) + rope.info.lookahead < offsetLimit := by
  constructor
  · refine fun extents => ⟨fun index rope found => ?_, fun index rope found => ?_⟩
    · have inside := (List.getElem?_eq_some_iff.mp found).1
      have fits := extents index rope (by rw [List.getElem?_append_left inside, found])
      rwa [endOf_append_left rights (show index + 1 ≤ lefts.length from inside)] at fits
    · have fits := extents (lefts.length + index) rope
        (by rw [List.getElem?_append_right (Nat.le_add_right _ _), Nat.add_sub_cancel_left, found])
      rwa [Nat.add_assoc, endOf_append_right] at fits
  · rintro ⟨ofLeft, ofRight⟩ index rope found
    rcases Nat.lt_or_ge index lefts.length with inside | beyond
    · rw [List.getElem?_append_left inside] at found
      rw [endOf_append_left rights (show index + 1 ≤ lefts.length from inside)]
      exact ofLeft index rope found
    · obtain ⟨place, rfl⟩ := Nat.exists_eq_add_of_le beyond
      rw [List.getElem?_append_right beyond, Nat.add_sub_cancel_left] at found
      rw [Nat.add_assoc, endOf_append_right]
      exact ofRight place rope found

/-- The offsets in a join fit when what was looked at for the bases ends at offsets. -/
theorem offsetsFit_iff (ofLeft : TellsOf lefts left) (ofRight : TellsOf rights right) :
    offsetsFit 0 [⟨none, left.element⟩, ⟨none, right.element⟩] = true ↔ Extents (lefts ++ rights) := by
  have both : offsetsFit 0 [⟨none, left.element⟩, ⟨none, right.element⟩] = true ↔
      left.textLength + left.info.lookahead < offsetLimit ∧
        left.textLength + right.textLength + right.info.lookahead < offsetLimit := by
    change (decide (0 + left.textLength + left.info.lookahead < offsetLimit) &&
      (decide (0 + left.textLength + right.textLength + right.info.lookahead < offsetLimit) && true)) = true ↔ _
    rw [Nat.zero_add, Bool.and_true, Bool.and_eq_true, decide_eq_true_eq, decide_eq_true_eq]
  rw [both, extents_append, ofLeft.extents_iff]
  refine and_congr_right fun _ => ?_
  rw [ofLeft.textLength, ofRight.textLength]
  constructor
  · intro fits index rope found
    have bound := ofRight.lookahead_le index rope found
    omega
  · intro extents
    rcases ofRight.lookahead_eq with nothing | ⟨index, base, found, reaches⟩
    · have positive := List.length_pos_iff.mpr ofRight.ne_nil
      have last := extents (rights.length - 1) _ (List.getElem?_eq_getElem (by omega))
      rw [Nat.sub_add_cancel positive] at last
      omega
    · have bound := extents index base found
      omega

end Extents

/-- A rope that was joined of bases tells of them what a node around them would tell, in whatever order they
were joined; so ropes of the same bases agree on all metadata but their heights. Two ropes can be joined if and
only if what was looked at for their bases ends at offsets. -/
theorem metadata_of_bases {kind : KindId} (other : kind ≠ .error) :
    (∀ bases node, Joins kind bases node → TellsOf bases node ∧
      ∀ rope, Joins kind bases rope → rope.textLength = node.textLength ∧
        { rope.info with ropeHeight := node.info.ropeHeight } = node.info) ∧
    ∀ lefts rights left right, Joins kind lefts left → Joins kind rights right →
      ((∃ node, checkedJoin kind left.element right.element = .ok node) ↔ Extents (lefts ++ rights)) := by
  refine ⟨fun bases node joins => ⟨joins.tells other, fun rope joined => ?_⟩, ?_⟩
  · exact (joins.tells other).unique (joined.tells other)
  · intro lefts rights left right ofLeft ofRight
    rw [← offsetsFit_iff (ofLeft.tells other) (ofRight.tells other)]
    constructor
    · rintro ⟨node, joined⟩
      exact (checkedJoin_ok.mp joined).1
    · intro fits
      obtain ⟨node, made, _⟩ := exists_join kind ofLeft.paired.1 ofRight.paired.1
      exact ⟨node, checkedJoin_ok.mpr ⟨fits, made⟩⟩

end Rope

/-! Three bases, the first of which is empty, joined from the left and from the right. -/

namespace Regrouped

def piece (state length lookahead : Nat) : Node :=
  Rope.base ⟨20⟩ [⟨none, .token ⟨0, ⟨5⟩, [], length, .ofIndex state, lookahead⟩⟩]
    { Origin.blank with preState := .ofIndex state }

def fromLeft : Node := Rope.pair ⟨20⟩ (Rope.pair ⟨20⟩ (piece 1 0 9) (piece 2 3 4)) (piece 3 2 1)

def fromRight : Node := Rope.pair ⟨20⟩ (piece 1 0 9) (Rope.pair ⟨20⟩ (piece 2 3 4) (piece 3 2 1))

theorem joins_fromLeft : Rope.Joins ⟨20⟩ [piece 1 0 9, piece 2 3 4, piece 3 2 1] fromLeft :=
  .join (.join (.base rfl) (.base rfl) rfl) (.base rfl) rfl

theorem joins_fromRight : Rope.Joins ⟨20⟩ [piece 1 0 9, piece 2 3 4, piece 3 2 1] fromRight :=
  .join (.base rfl) (.join (.base rfl) (.base rfl) rfl) rfl

end Regrouped

theorem Rope.metadata_of_bases_regrouped :
    (⟨20⟩ : KindId) ≠ .error ∧
    Rope.TellsOf [Regrouped.piece 1 0 9, Regrouped.piece 2 3 4, Regrouped.piece 3 2 1] Regrouped.fromLeft ∧
    Regrouped.fromLeft.info.lookahead = 4 ∧
    { Regrouped.fromRight.info with ropeHeight := Regrouped.fromLeft.info.ropeHeight } = Regrouped.fromLeft.info := by
  have other : (⟨20⟩ : KindId) ≠ .error := by decide
  obtain ⟨tells, agrees⟩ := (Rope.metadata_of_bases other).1 _ _ Regrouped.joins_fromLeft
  exact ⟨other, tells, rfl, (agrees _ Regrouped.joins_fromRight).2⟩

namespace Regrouped

/-- A base of one byte, past whose end as much was examined as an offset can tell. -/
def overlong : Node := piece 1 1 (offsetLimit - 2)

end Regrouped

/-- Two such bases cannot be joined. A rope of both would have the lookahead of the second. -/
theorem Rope.join_overreaches :
    Rope.Joins ⟨20⟩ [Regrouped.overlong] Regrouped.overlong ∧
      checkedJoin ⟨20⟩ Regrouped.overlong.element Regrouped.overlong.element = .error .arithmeticOverflow ∧
      Rope.TellsOf [Regrouped.overlong, Regrouped.overlong]
        (Rope.pair ⟨20⟩ Regrouped.overlong Regrouped.overlong) ∧
      (Rope.pair ⟨20⟩ Regrouped.overlong Regrouped.overlong).info.lookahead = offsetLimit - 2 :=
  ⟨.base rfl, rfl, (Rope.tellsOf_base _).pair (by decide) (Rope.tellsOf_base _), rfl⟩

end IncrementalParsing.Green
