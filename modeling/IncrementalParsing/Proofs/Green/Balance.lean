import Mathlib.Data.Nat.Fib.Basic
import Mathlib.Data.Nat.Log
import IncrementalParsing.Green.Rope
import IncrementalParsing.Proofs.Outcome

/-!
Balance of ropes. A balanced rope is a base, or a node of exactly two balanced ropes whose heights differ by
at most one. Joining balanced ropes of any heights succeeds and gives a balanced rope of the same bases, which
is at most one higher than the higher of the two. A balanced rope of some height has at least a Fibonacci
number of bases, so its height is logarithmic in their number.
-/

namespace IncrementalParsing.Green

mutual

/-- The bases of a rope from left to right. -/
def ropeBases : Element → List Node
  | .token _ => []
  | .node head children =>
      if head.info.ropeHeight ≤ 1 then [⟨head, children⟩] else ropeBasesOf children

def ropeBasesOf : List Child → List Node
  | [] => []
  | ⟨_, element⟩ :: rest => ropeBases element ++ ropeBasesOf rest

end

/-- A node of exactly two ropes of close heights, which is one higher than the higher of them. -/
structure Node.Splits (node left right : Node) : Prop where
  halves : node.halves? = some (left, right)
  left_pos : 0 < left.height
  right_pos : 0 < right.height
  left_le : left.height ≤ right.height + 1
  right_le : right.height ≤ left.height + 1
  height_eq : node.height = max left.height right.height + 1

/-- Well-formed ropes: bases with any children, and nodes of two well-formed ropes of close heights. -/
inductive Node.Balanced : Node → Prop
  | base {node : Node} : node.height = 1 → Balanced node
  | join {node left right : Node} : node.Splits left right → Balanced left → Balanced right → Balanced node

def Node.LeansLeft (node : Node) : Prop :=
  ∃ high low, node.Splits high low ∧ low.height < high.height

def Node.LeansRight (node : Node) : Prop :=
  ∃ low high, node.Splits low high ∧ low.height < high.height

/-! ### Pairs -/

@[simp] theorem height_pair (kind : KindId) (left right : Node) :
    (Rope.pair kind left right).height = max left.height right.height + 1 := rfl

@[simp] theorem kind_pair (kind : KindId) (left right : Node) :
    (Rope.pair kind left right).kind = kind := rfl

theorem halves?_pair (kind : KindId) (left right : Node) :
    (Rope.pair kind left right).halves? = some (left, right) := rfl

theorem halves_pair (kind : KindId) (left right : Node) :
    (Rope.pair kind left right).halves = .ok (left, right) := rfl

theorem height_pair_pos (kind : KindId) (left right : Node) : 0 < (Rope.pair kind left right).height :=
  Nat.succ_pos _

theorem ropeBases_pair {kind : KindId} {left right : Node} (positive : 0 < left.height) :
    ropeBases (Rope.pair kind left right).element = ropeBases left.element ++ ropeBases right.element := by
  have high : ¬ max left.height right.height + 1 ≤ 1 := by omega
  change (if max left.height right.height + 1 ≤ 1 then _ else _) = _
  rw [if_neg high]
  change ropeBasesOf [⟨none, left.element⟩, ⟨none, right.element⟩] = _
  rw [ropeBasesOf, ropeBasesOf, ropeBasesOf, List.append_nil]

theorem ropeBases_base {node : Node} (low : node.height ≤ 1) : ropeBases node.element = [node] := by
  change (if node.head.info.ropeHeight ≤ 1 then [node] else ropeBasesOf node.children) = [node]
  exact if_pos low

theorem splits_pair {kind : KindId} {left right : Node} (leftPos : 0 < left.height)
    (rightPos : 0 < right.height) (leftLe : left.height ≤ right.height + 1)
    (rightLe : right.height ≤ left.height + 1) : (Rope.pair kind left right).Splits left right :=
  ⟨halves?_pair kind left right, leftPos, rightPos, leftLe, rightLe, height_pair kind left right⟩

namespace Node.Splits

variable {node left right : Node} (splits : node.Splits left right)

include splits

theorem children_eq : ∃ leftField rightField,
    node.children = [⟨leftField, left.element⟩, ⟨rightField, right.element⟩] := by
  have halves := splits.halves
  unfold Node.halves? at halves
  split at halves
  · rename_i leftField leftHead leftChildren rightField rightHead rightChildren shape
    cases halves
    exact ⟨leftField, rightField, shape⟩
  · cases halves

theorem bases_eq : ropeBases node.element = ropeBases left.element ++ ropeBases right.element := by
  obtain ⟨leftField, rightField, shape⟩ := splits.children_eq
  have height := splits.height_eq
  have positive := splits.left_pos
  have high : ¬ node.head.info.ropeHeight ≤ 1 := by
    change ¬ node.height ≤ 1
    omega
  change (if node.head.info.ropeHeight ≤ 1 then [node] else ropeBasesOf node.children) = _
  rw [if_neg high, shape, ropeBasesOf, ropeBasesOf, ropeBasesOf, List.append_nil]

theorem high : 1 < node.height := by
  have height := splits.height_eq
  have positive := splits.left_pos
  omega

theorem halves_eq : node.halves = .ok (left, right) := by
  unfold Node.halves
  rw [splits.halves]

theorem rotateLeft {kind : KindId} (first : Node) :
    Rope.rotateLeft kind (Rope.pair kind first node) =
      .ok (Rope.pair kind (Rope.pair kind first left) right) := by
  unfold Rope.rotateLeft
  rw [halves_pair, ok_bind]
  dsimp only
  rw [splits.halves_eq]
  rfl

theorem rotateRight {kind : KindId} (third : Node) :
    Rope.rotateRight kind (Rope.pair kind node third) =
      .ok (Rope.pair kind left (Rope.pair kind right third)) := by
  unfold Rope.rotateRight
  rw [halves_pair, ok_bind]
  dsimp only
  rw [splits.halves_eq]
  rfl

end Node.Splits

namespace Node.Balanced

theorem height_pos {node : Node} (balanced : node.Balanced) : 0 < node.height := by
  cases balanced with
  | base height => exact height ▸ Nat.zero_lt_one
  | join splits _ _ => exact Nat.lt_of_succ_lt splits.high

theorem halves {node left right : Node} (balanced : node.Balanced) (splits : node.Splits left right) :
    left.Balanced ∧ right.Balanced := by
  cases balanced with
  | base height => exact absurd splits.high (by omega)
  | join other leftBalanced rightBalanced =>
      cases splits.halves.symm.trans other.halves
      exact ⟨leftBalanced, rightBalanced⟩

theorem split {node : Node} (balanced : node.Balanced) (high : 1 < node.height) :
    ∃ left right, node.Splits left right := by
  cases balanced with
  | base height => omega
  | @join _ left right splits _ _ => exact ⟨left, right, splits⟩

end Node.Balanced

/-! ### What is put together from two ropes -/

/-- Ropes that are put together from parts of two ropes: halves of what there is, and pairs of close
heights. -/
inductive Rope.Assembled (kind : KindId) (left right : Node) : Node → Prop
  | left : Assembled kind left right left
  | right : Assembled kind left right right
  | first {whole first second : Node} : Assembled kind left right whole → whole.Splits first second →
      Assembled kind left right first
  | second {whole first second : Node} : Assembled kind left right whole → whole.Splits first second →
      Assembled kind left right second
  | pair {first second : Node} : Assembled kind left right first → Assembled kind left right second →
      first.height ≤ second.height + 1 → second.height ≤ first.height + 1 →
      Assembled kind left right (Rope.pair kind first second)

theorem Rope.Assembled.trans {kind : KindId} {left right first second node : Node}
    (ofFirst : Assembled kind left right first) (ofSecond : Assembled kind left right second)
    (assembled : Assembled kind first second node) : Assembled kind left right node := by
  induction assembled with
  | left => exact ofFirst
  | right => exact ofSecond
  | first _ splits ih => exact .first ih splits
  | second _ splits ih => exact .second ih splits
  | pair _ _ leftLe rightLe firstIh secondIh => exact .pair firstIh secondIh leftLe rightLe

theorem Rope.Assembled.balanced {kind : KindId} {left right node : Node} (leftBalanced : left.Balanced)
    (rightBalanced : right.Balanced) (assembled : Assembled kind left right node) : node.Balanced := by
  induction assembled with
  | left => exact leftBalanced
  | right => exact rightBalanced
  | first _ splits ih => exact (ih.halves splits).1
  | second _ splits ih => exact (ih.halves splits).2
  | pair _ _ leftLe rightLe firstIh secondIh =>
      exact .join (splits_pair firstIh.height_pos secondIh.height_pos leftLe rightLe) firstIh secondIh

/-- What a join of two ropes is: it is put together from parts of them, and has the bases of the one followed
by those of the other. -/
structure Rope.Concatenates (kind : KindId) (left right node : Node) : Prop where
  assembled : Rope.Assembled kind left right node
  kind_eq : node.kind = kind
  bases : ropeBases node.element = ropeBases left.element ++ ropeBases right.element

/-! ### Joins -/

section Joins

variable {kind : KindId}

/-- Joining to the right end of a higher rope. When the rope becomes higher, its right half is the higher
one, which is why a single rotation is enough. -/
private theorem joinRight_concatenates : ∀ (size : Nat) {left right : Node}, left.height ≤ size →
    left.Balanced → right.Balanced → right.height + 1 < left.height →
    ∃ node, Rope.joinRight kind left right = .ok node ∧ Rope.Concatenates kind left right node ∧
      (node.height = left.height ∨ node.height = left.height + 1 ∧ node.LeansRight)
  | 0, left, right, bound, _, _, higher => by omega
  | size + 1, left, right, bound, leftBalanced, rightBalanced, higher => by
      obtain ⟨outer, inner, splits⟩ := leftBalanced.split (by omega)
      obtain ⟨outerBalanced, innerBalanced⟩ := leftBalanced.halves splits
      have height := splits.height_eq
      have outerLe := splits.left_le
      have innerLe := splits.right_le
      have outerPos := splits.left_pos
      have innerPos := splits.right_pos
      have rightPos := rightBalanced.height_pos
      have ofOuter : Rope.Assembled kind left right outer := .first .left splits
      have ofInner : Rope.Assembled kind left right inner := .second .left splits
      unfold Rope.joinRight
      split
      · rename_i impossible
        cases splits.halves.symm.trans impossible
      · rename_i foundOuter foundInner found
        cases splits.halves.symm.trans found
        split
        · rename_i close
          have ofJoined := Rope.Assembled.pair ofInner .right close (by omega)
          dsimp only
          split
          · rename_i balanced
            rw [height_pair] at balanced
            have within : outer.height ≤ (Rope.pair kind inner right).height + 1 := by
              rw [height_pair]
              omega
            refine ⟨_, rfl, ⟨.pair ofOuter ofJoined within balanced, rfl, ?_⟩, ?_⟩
            · rw [ropeBases_pair outerPos, ropeBases_pair innerPos, splits.bases_eq, List.append_assoc]
            · rw [height_pair, height_pair]
              rcases Nat.lt_or_ge outer.height (inner.height + 1) with grown | kept
              · refine Or.inr ⟨by omega, outer, _, splits_pair outerPos (height_pair_pos _ _ _) within balanced, ?_⟩
                rw [height_pair]
                omega
              · exact Or.inl (by omega)
          · rename_i unbalanced
            rw [height_pair] at unbalanced
            -- The inner half is higher than the rope that is appended, so it can be taken apart.
            obtain ⟨first, second, parts⟩ := innerBalanced.split (by omega)
            have partsHeight := parts.height_eq
            have firstLe := parts.left_le
            have secondLe := parts.right_le
            have lowHeight := height_pair kind outer first
            have highHeight := height_pair kind second right
            refine ⟨Rope.pair kind (Rope.pair kind outer first) (Rope.pair kind second right), ?_, ⟨?_, rfl, ?_⟩, ?_⟩
            · rw [parts.rotateRight]
              rfl
            · refine .pair (.pair ofOuter (.first ofInner parts) ?_ ?_)
                  (.pair (.second ofInner parts) .right ?_ ?_) ?_ ?_
              all_goals omega
            · rw [ropeBases_pair (height_pair_pos _ _ _), ropeBases_pair outerPos, ropeBases_pair parts.right_pos,
                splits.bases_eq, parts.bases_eq]
              simp only [List.append_assoc]
            · left
              rw [height_pair]
              omega
        · rename_i far
          obtain ⟨joined, joinedOk, concatenates, joinedHeight⟩ :=
            joinRight_concatenates size (by omega) innerBalanced rightBalanced (by omega)
          have ofJoined := Rope.Assembled.trans ofInner .right concatenates.assembled
          have joinedPos := (ofJoined.balanced leftBalanced rightBalanced).height_pos
          rw [joinedOk]
          change ∃ node, (if joined.height ≤ outer.height + 1 then
            Except.ok (Rope.pair kind outer joined) else
            Rope.rotateLeft kind (Rope.pair kind outer joined)) = .ok node ∧ _
          split
          · rename_i balanced
            refine ⟨_, rfl, ⟨.pair ofOuter ofJoined (by omega) balanced, rfl, ?_⟩, ?_⟩
            · rw [ropeBases_pair outerPos, concatenates.bases, splits.bases_eq, List.append_assoc]
            · rw [height_pair]
              rcases Nat.lt_or_ge (max outer.height inner.height) joined.height with grown | kept
              · exact Or.inr ⟨by omega, outer, joined, splits_pair outerPos joinedPos (by omega) balanced, by omega⟩
              · exact Or.inl (by omega)
          · rename_i unbalanced
            rcases joinedHeight with same | ⟨joinedUp, low, high, parts, less⟩
            · omega
            · have partsHeight := parts.height_eq
              have lowLe := parts.left_le
              have highLe := parts.right_le
              have lowerHeight := height_pair kind outer low
              refine ⟨_, parts.rotateLeft outer, ⟨?_, rfl, ?_⟩, ?_⟩
              · refine .pair (.pair ofOuter (.first ofJoined parts) ?_ ?_) (.second ofJoined parts) ?_ ?_
                all_goals omega
              · rw [ropeBases_pair (height_pair_pos _ _ _), ropeBases_pair outerPos, splits.bases_eq, List.append_assoc,
                  List.append_assoc, ← parts.bases_eq, concatenates.bases]
              · left
                rw [height_pair]
                omega

private theorem joinLeft_concatenates : ∀ (size : Nat) {left right : Node}, right.height ≤ size →
    left.Balanced → right.Balanced → left.height + 1 < right.height →
    ∃ node, Rope.joinLeft kind left right = .ok node ∧ Rope.Concatenates kind left right node ∧
      (node.height = right.height ∨ node.height = right.height + 1 ∧ node.LeansLeft)
  | 0, left, right, bound, _, _, higher => by omega
  | size + 1, left, right, bound, leftBalanced, rightBalanced, higher => by
      obtain ⟨inner, outer, splits⟩ := rightBalanced.split (by omega)
      obtain ⟨innerBalanced, outerBalanced⟩ := rightBalanced.halves splits
      have height := splits.height_eq
      have innerLe := splits.left_le
      have outerLe := splits.right_le
      have innerPos := splits.left_pos
      have outerPos := splits.right_pos
      have leftPos := leftBalanced.height_pos
      have ofInner : Rope.Assembled kind left right inner := .first .right splits
      have ofOuter : Rope.Assembled kind left right outer := .second .right splits
      unfold Rope.joinLeft
      split
      · rename_i impossible
        cases splits.halves.symm.trans impossible
      · rename_i foundInner foundOuter found
        cases splits.halves.symm.trans found
        split
        · rename_i close
          have ofJoined := Rope.Assembled.pair .left ofInner (by omega) close
          dsimp only
          split
          · rename_i balanced
            rw [height_pair] at balanced
            have within : outer.height ≤ (Rope.pair kind left inner).height + 1 := by
              rw [height_pair]
              omega
            refine ⟨_, rfl, ⟨.pair ofJoined ofOuter balanced within, rfl, ?_⟩, ?_⟩
            · rw [ropeBases_pair (height_pair_pos _ _ _), ropeBases_pair leftPos, splits.bases_eq, List.append_assoc]
            · rw [height_pair, height_pair]
              rcases Nat.lt_or_ge outer.height (inner.height + 1) with grown | kept
              · refine Or.inr ⟨by omega, _, outer, splits_pair (height_pair_pos _ _ _) outerPos balanced within, ?_⟩
                rw [height_pair]
                omega
              · exact Or.inl (by omega)
          · rename_i unbalanced
            rw [height_pair] at unbalanced
            obtain ⟨first, second, parts⟩ := innerBalanced.split (by omega)
            have partsHeight := parts.height_eq
            have firstLe := parts.left_le
            have secondLe := parts.right_le
            have turned : Rope.rotateLeft kind (Rope.pair kind left inner) = _ := parts.rotateLeft left
            have lowHeight := height_pair kind left first
            have highHeight := height_pair kind second outer
            refine ⟨Rope.pair kind (Rope.pair kind left first) (Rope.pair kind second outer), ?_, ⟨?_, rfl, ?_⟩, ?_⟩
            · rw [turned]
              rfl
            · refine .pair (.pair .left (.first ofInner parts) ?_ ?_)
                  (.pair (.second ofInner parts) ofOuter ?_ ?_) ?_ ?_
              all_goals omega
            · rw [ropeBases_pair (height_pair_pos _ _ _), ropeBases_pair leftPos, ropeBases_pair parts.right_pos,
                splits.bases_eq, parts.bases_eq]
              simp only [List.append_assoc]
            · left
              rw [height_pair]
              omega
        · rename_i far
          obtain ⟨joined, joinedOk, concatenates, joinedHeight⟩ :=
            joinLeft_concatenates size (by omega) leftBalanced innerBalanced (by omega)
          have ofJoined := Rope.Assembled.trans .left ofInner concatenates.assembled
          have joinedPos := (ofJoined.balanced leftBalanced rightBalanced).height_pos
          have near : inner.height ≤ joined.height ∧ joined.height ≤ inner.height + 1 := by
            rcases joinedHeight with same | ⟨joinedUp, _⟩ <;> omega
          rw [joinedOk]
          change ∃ node, (if joined.height ≤ outer.height + 1 then
            Except.ok (Rope.pair kind joined outer) else
            Rope.rotateRight kind (Rope.pair kind joined outer)) = .ok node ∧ _
          split
          · rename_i balanced
            refine ⟨_, rfl, ⟨.pair ofJoined ofOuter balanced (by omega), rfl, ?_⟩, ?_⟩
            · rw [ropeBases_pair joinedPos, concatenates.bases, splits.bases_eq, List.append_assoc]
            · rw [height_pair]
              rcases Nat.lt_or_ge (max inner.height outer.height) joined.height with grown | kept
              · exact Or.inr ⟨by omega, joined, outer, splits_pair joinedPos outerPos balanced (by omega), by omega⟩
              · exact Or.inl (by omega)
          · rename_i unbalanced
            rcases joinedHeight with same | ⟨joinedUp, high, low, parts, less⟩
            · omega
            · have partsHeight := parts.height_eq
              have highLe := parts.left_le
              have lowLe := parts.right_le
              have lowerHeight := height_pair kind low outer
              refine ⟨_, parts.rotateRight outer, ⟨?_, rfl, ?_⟩, ?_⟩
              · refine .pair (.first ofJoined parts) (.pair (.second ofJoined parts) ofOuter ?_ ?_) ?_ ?_
                all_goals omega
              · rw [ropeBases_pair parts.left_pos, ropeBases_pair parts.right_pos, splits.bases_eq,
                  ← List.append_assoc, ← List.append_assoc, ← parts.bases_eq, concatenates.bases]
              · left
                rw [height_pair]
                omega

variable (kind) in
theorem exists_join {left right : Node} (leftBalanced : left.Balanced) (rightBalanced : right.Balanced) :
    ∃ node, Rope.join kind left right = .ok node ∧ Rope.Concatenates kind left right node ∧
      (node.height = max left.height right.height ∨ node.height = max left.height right.height + 1) := by
  unfold Rope.join
  split
  · rename_i higher
    obtain ⟨node, joined, concatenates, height⟩ :=
      joinRight_concatenates _ (Nat.le_refl _) leftBalanced rightBalanced higher
    refine ⟨node, joined, concatenates, ?_⟩
    rcases height with same | ⟨grown, _⟩ <;> omega
  · split
    · rename_i higher
      obtain ⟨node, joined, concatenates, height⟩ :=
        joinLeft_concatenates _ (Nat.le_refl _) leftBalanced rightBalanced higher
      refine ⟨node, joined, concatenates, ?_⟩
      rcases height with same | ⟨grown, _⟩ <;> omega
    · exact ⟨_, rfl, ⟨.pair .left .right (by omega) (by omega), rfl, ropeBases_pair leftBalanced.height_pos⟩,
        Or.inr rfl⟩

end Joins

/-! ### The number of bases -/

theorem Node.Balanced.fib_le {node : Node} (balanced : node.Balanced) :
    Nat.fib (node.height + 1) ≤ (ropeBases node.element).length := by
  induction balanced with
  | base height =>
      rw [ropeBases_base (Nat.le_of_eq height), height]
      exact Nat.le_refl 1
  | @join node left right splits _ _ leftFib rightFib =>
      have leftLe := splits.left_le
      have rightLe := splits.right_le
      rw [splits.bases_eq, List.length_append, splits.height_eq]
      rcases Nat.le_total left.height right.height with higher | higher
      · have fewer : Nat.fib right.height ≤ Nat.fib (left.height + 1) := Nat.fib_mono rightLe
        rw [Nat.max_eq_right higher, Nat.fib_add_two]
        omega
      · have fewer : Nat.fib left.height ≤ Nat.fib (right.height + 1) := Nat.fib_mono leftLe
        rw [Nat.max_eq_left higher, Nat.fib_add_two]
        omega

/-- Fibonacci numbers double at least every second time. -/
theorem two_pow_le_fib : ∀ number : Nat, 2 ^ (number / 2) ≤ Nat.fib (number + 1)
  | 0 => Nat.le_refl 1
  | 1 => Nat.le_refl 1
  | number + 2 => by
      have smaller := two_pow_le_fib number
      have grows : Nat.fib (number + 1) ≤ Nat.fib (number + 2) := Nat.fib_mono (Nat.le_succ _)
      have next : Nat.fib (number + 2 + 1) = Nat.fib (number + 1) + Nat.fib (number + 2) := Nat.fib_add_two
      have half : (number + 2) / 2 = number / 2 + 1 := by omega
      rw [half, Nat.pow_succ]
      omega

theorem Node.Balanced.height_le_log {node : Node} (balanced : node.Balanced) :
    node.height ≤ 2 * Nat.log 2 (ropeBases node.element).length + 1 := by
  have enough := Nat.le_trans (two_pow_le_fib node.height) balanced.fib_le
  have half := Nat.le_log_of_pow_le Nat.one_lt_two enough
  omega

/-- Joining balanced ropes of any heights gives a balanced rope of their bases in order, which is at most one
higher than the higher of them; and balanced ropes have many bases for their height. -/
theorem Rope.join_concatenates (kind : KindId) {left right : Node} (leftBalanced : left.Balanced)
    (rightBalanced : right.Balanced) :
    (∃ node, Rope.join kind left right = .ok node ∧ node.Balanced ∧
      ropeBases node.element = ropeBases left.element ++ ropeBases right.element ∧
      (node.height = max left.height right.height ∨ node.height = max left.height right.height + 1)) ∧
    ∀ rope : Node, rope.Balanced →
      Nat.fib (rope.height + 1) ≤ (ropeBases rope.element).length ∧
      rope.height ≤ 2 * Nat.log 2 (ropeBases rope.element).length + 1 := by
  obtain ⟨node, joined, concatenates, height⟩ := exists_join kind leftBalanced rightBalanced
  exact ⟨⟨node, joined, concatenates.assembled.balanced leftBalanced rightBalanced, concatenates.bases, height⟩,
    fun _ balanced => ⟨balanced.fib_le, balanced.height_le_log⟩⟩

/-! Four bases, of which three are in a rope that leans to the right. -/

namespace Leaning

def single (index : Nat) : Node :=
  Rope.base ⟨20⟩ [⟨none, .token ⟨index, ⟨5⟩, [], 1, ⟨1⟩, 0⟩⟩] { Origin.blank with preState := .ofIndex index }

def three : Node := Rope.pair ⟨20⟩ (single 0) (Rope.pair ⟨20⟩ (single 1) (single 2))

theorem three_balanced : three.Balanced :=
  .join (splits_pair (by decide) (by decide) (by decide) (by decide)) (.base rfl)
    (.join (splits_pair (by decide) (by decide) (by decide) (by decide)) (.base rfl) (.base rfl))

theorem bases_three : ropeBases three.element = [single 0, single 1, single 2] := rfl

end Leaning

theorem Rope.join_concatenates_leaning :
    Leaning.three.Balanced ∧ (Leaning.single 3).Balanced ∧
    ∃ node, Rope.join ⟨20⟩ Leaning.three (Leaning.single 3) = .ok node ∧ node.Balanced ∧
      ropeBases node.element = [Leaning.single 0, Leaning.single 1, Leaning.single 2, Leaning.single 3] := by
  obtain ⟨⟨node, joined, balanced, bases, _⟩, _⟩ :=
    Rope.join_concatenates ⟨20⟩ Leaning.three_balanced (.base rfl : (Leaning.single 3).Balanced)
  refine ⟨Leaning.three_balanced, .base rfl, node, joined, balanced, ?_⟩
  rw [bases, Leaning.bases_three,
    show ropeBases (Leaning.single 3).element = [Leaning.single 3] from ropeBases_base (Nat.le_refl 1)]
  rfl

end IncrementalParsing.Green
