import IncrementalParsing.Lalr.WordSet
import IncrementalParsing.Proofs.Lalr.TerminalSets
import IncrementalParsing.Proofs.Outcome

/-!
The words of a set as one number. `WordSet.toTerminalSet` puts the words together, the first of them lowest.
Every operation on words is the operation of the same name on the number: both have the same members, give
the same answers and break off alike. Words can have more bits than there are kinds, so they are compared
bit by bit.
-/

namespace IncrementalParsing.TerminalSet

theorem eq_of_testBit {left right : TerminalSet} (slots : left.slots = right.slots)
    (bits : ∀ place, left.bits.testBit place = right.bits.testBit place) : left = right := by
  have same := Nat.eq_of_testBit_eq bits
  cases left
  cases right
  subst slots
  subst same
  rfl

theorem testBit_add (set : TerminalSet) (kind : KindId) (place : Nat) :
    (set.add kind).bits.testBit place =
      (set.bits.testBit place || decide (kind.index = place) && set.fits kind) := by
  unfold add fits
  by_cases inside : kind.index < 64 * set.slots
  · rw [dif_pos inside, Nat.testBit_or, Nat.one_shiftLeft, Nat.testBit_two_pow, decide_eq_true inside,
      Bool.and_true]
  · rw [dif_neg inside, decide_eq_false inside, Bool.and_false, Bool.or_false]

theorem testBit_remove (set : TerminalSet) (kind : KindId) (place : Nat) :
    (set.remove kind).bits.testBit place = (set.bits.testBit place && !decide (kind.index = place)) := by
  unfold remove
  by_cases present : set.bits.testBit kind.index = true
  · rw [dif_pos present, Nat.testBit_xor, Nat.one_shiftLeft, Nat.testBit_two_pow]
    by_cases same : kind.index = place
    · subst same
      rw [present, decide_eq_true rfl]
      rfl
    · rw [decide_eq_false same, Bool.xor_false, Bool.not_false, Bool.and_true]
  · rw [dif_neg present]
    by_cases same : kind.index = place
    · subst same
      rw [eq_false_of_ne_true present, Bool.false_and]
    · rw [decide_eq_false same, Bool.not_false, Bool.and_true]

theorem testBit_union (set other : TerminalSet) (place : Nat) :
    (set.union other).bits.testBit place =
      (set.bits.testBit place || decide (place < 64 * set.slots) && other.bits.testBit place) := by
  have bits : (set.union other).bits = set.bits ||| within set other := rfl
  rw [bits, Nat.testBit_or]
  unfold within
  by_cases fewer : other.slots ≤ set.slots
  · rw [if_pos fewer]
    cases present : other.bits.testBit place with
    | false => rw [Bool.and_false]
    | true =>
        have inside := index_lt_of_testBit other.bits_lt present
        rw [decide_eq_true (show place < 64 * set.slots by omega), Bool.true_and]
  · rw [if_neg fewer, Nat.one_shiftLeft, Nat.testBit_mod_two_pow]

theorem unionGrew_changed (set other : TerminalSet) :
    (set.unionGrew other).2 = true ↔ set.union other ≠ set := by
  constructor
  · intro grew same
    have bits : (set.union other).bits ≠ set.bits := bne_iff_ne.mp grew
    exact bits (congrArg TerminalSet.bits same)
  · intro changed
    apply eq_true_of_ne_false
    intro quiet
    exact changed (union_of_unionGrew_eq_false quiet)

/-- The members are found among the places below any bound of the bits. -/
theorem toList_eq {set : TerminalSet} {bound : Nat} (below : set.bits < 1 <<< bound) :
    set.toList = ((List.range bound).filter set.bits.testBit).map .ofIndex := by
  have none : ∀ start count, set.bits < 1 <<< start →
      (List.range (start + count)).filter set.bits.testBit = (List.range start).filter set.bits.testBit := by
    intro start count low
    have beyond : ((List.range count).map (start + ·)).filter set.bits.testBit = [] := by
      rw [List.filter_eq_nil_iff]
      intro place member present
      obtain ⟨offset, _, rfl⟩ := List.mem_map.mp member
      have inside := index_lt_of_testBit low present
      omega
    rw [List.range_add, List.filter_append, beyond, List.append_nil]
  unfold toList
  have top : set.bits < 1 <<< (set.bits.log2 + 1) := by
    rw [Nat.one_shiftLeft]
    exact Nat.lt_log2_self
  rw [← none (set.bits.log2 + 1) bound top, Nat.add_comm, none bound _ below]

end IncrementalParsing.TerminalSet

namespace IncrementalParsing.WordSet

variable {set other : WordSet} {kind : KindId}

/-! ### The bits of a word -/

theorem toBitVec_single {place : Nat} (small : place < 64) :
    (single place).toBitVec = BitVec.twoPow 64 place := by
  have index : place.toUInt64.toNat = place := by
    rw [Nat.toUInt64_eq, UInt64.toNat_ofNat']
    omega
  -- A machine takes the distance of a shift modulo the width of the word.
  have distance : (place.toUInt64.toBitVec % 64).toNat = place := by
    rw [BitVec.toNat_umod, UInt64.toNat_toBitVec, index]
    exact Nat.mod_eq_of_lt small
  unfold single
  rw [UInt64.toBitVec_shiftLeft, BitVec.shiftLeft_eq', distance, BitVec.twoPow_eq]
  rfl

theorem getLsbD_single {place : Nat} (small : place < 64) (other : Nat) :
    (single place).toBitVec.getLsbD other = decide (place = other) := by
  rw [toBitVec_single small, BitVec.getLsbD_twoPow, decide_eq_true small, Bool.true_and]

theorem test_single (word : UInt64) {place : Nat} (small : place < 64) :
    (word &&& single place != 0) = word.toBitVec.getLsbD place := by
  have masked : (word &&& single place).toBitVec =
      if word.toBitVec.getLsbD place then BitVec.twoPow 64 place else 0#64 := by
    rw [UInt64.toBitVec_and, toBitVec_single small, BitVec.and_twoPow]
  cases present : word.toBitVec.getLsbD place with
  | false =>
      rw [present] at masked
      have zero : word &&& single place = 0 := UInt64.toBitVec_inj.mp masked
      rw [zero, bne_self_eq_false]
  | true =>
      rw [present, if_pos rfl] at masked
      rw [bne_iff_ne]
      intro zero
      have bit := congrArg (·.getLsbD place) masked
      simp only [BitVec.getLsbD_twoPow, zero, UInt64.toBitVec_zero, BitVec.getLsbD_zero, small, decide_true,
        Bool.and_true] at bit
      cases bit

/-! ### The words as a number -/

def number : List UInt64 → Nat
  | [] => 0
  | word :: rest => number rest <<< 64 + word.toNat

theorem toNat_lt_one_shift (word : UInt64) : word.toNat < 1 <<< 64 := by
  rw [Nat.one_shiftLeft]
  exact word.toNat_lt

theorem testBit_shiftLeft_add (rest : Nat) {low : Nat} (small : low < 1 <<< 64) (place : Nat) :
    (rest <<< 64 + low).testBit place =
      if place < 64 then low.testBit place else rest.testBit (place - 64) := by
  rw [Nat.one_shiftLeft] at small
  rw [Nat.shiftLeft_eq, Nat.mul_comm]
  exact Nat.testBit_two_pow_mul_add rest small place

theorem testBit_number : ∀ (words : List UInt64) (place : Nat),
    (number words).testBit place = (words[place / 64]?.getD 0).toBitVec.getLsbD (place % 64)
  | [], place => by simp [number]
  | word :: rest, place => by
      rw [number, testBit_shiftLeft_add _ (toNat_lt_one_shift word)]
      by_cases low : place < 64
      · rw [if_pos low, Nat.div_eq_of_lt low, Nat.mod_eq_of_lt low]
        rfl
      · have index : place / 64 = (place - 64) / 64 + 1 := by omega
        have bit : place % 64 = (place - 64) % 64 := by omega
        rw [if_neg low, testBit_number rest, index, bit, List.getElem?_cons_succ]

theorem number_lt (words : List UInt64) : number words < 1 <<< (64 * words.length) := by
  rw [Nat.one_shiftLeft]
  induction words with
  | nil => decide
  | cons word rest ih =>
      have low := word.toNat_lt
      rw [number, List.length_cons, Nat.mul_succ, Nat.pow_add, Nat.shiftLeft_eq]
      omega

def toTerminalSet (set : WordSet) : TerminalSet :=
  ⟨set.words.size, number set.words.toList, number_lt set.words.toList⟩

theorem testBit_bits (set : WordSet) (place : Nat) : set.toTerminalSet.bits.testBit place =
    (set.words[place / 64]?.getD 0).toBitVec.getLsbD (place % 64) := by
  rw [← Array.getElem?_toList]
  exact testBit_number set.words.toList place

theorem toTerminalSet_inj : set.toTerminalSet = other.toTerminalSet ↔ set = other := by
  constructor
  · intro same
    have sizes : set.words.size = other.words.size := congrArg TerminalSet.slots same
    have words : set.words = other.words := by
      apply Array.ext sizes
      intro index inSet inOther
      apply UInt64.toBitVec_inj.mp
      apply BitVec.eq_of_getLsbD_eq
      intro place small
      have word : (index * 64 + place) / 64 = index := by omega
      have bit : (index * 64 + place) % 64 = place := by omega
      have bits := congrArg (fun number => number.bits.testBit (index * 64 + place)) same
      simp only [testBit_bits, word, bit, Array.getElem?_eq_getElem inSet,
        Array.getElem?_eq_getElem inOther] at bits
      exact bits
    cases set
    cases other
    subst words
    rfl
  · exact congrArg toTerminalSet

theorem toTerminalSet_withCapacity (capacity : Nat) :
    (withCapacity capacity).toTerminalSet = .withCapacity capacity := by
  apply TerminalSet.eq_of_testBit
  · exact Array.size_replicate
  · intro place
    have blank : (TerminalSet.withCapacity capacity).bits.testBit place = false := Nat.zero_testBit place
    rw [testBit_bits, blank]
    unfold withCapacity
    rw [Array.getElem?_replicate]
    split
    · exact BitVec.getLsbD_zero
    · exact BitVec.getLsbD_zero

/-! ### One word -/

theorem contains_toTerminalSet : set.toTerminalSet.contains kind = set.contains kind := by
  unfold TerminalSet.contains contains maskOf wordOf
  rw [testBit_bits]
  cases set.words[kind.index / 64]? with
  | none => simp
  | some word => exact (test_single word (Nat.mod_lt _ (by decide))).symm

theorem fits_toTerminalSet : set.toTerminalSet.fits kind = decide (wordOf kind < set.words.size) := by
  have room : set.toTerminalSet.slots = set.words.size := rfl
  have word : kind.index < 64 * set.words.size ↔ wordOf kind < set.words.size := by
    unfold wordOf
    omega
  unfold TerminalSet.fits
  rw [room]
  exact decide_eq_decide.mpr word

theorem testBit_modify (set : WordSet) (index : Nat) (change : UInt64 → UInt64) (place : Nat) :
    (toTerminalSet ⟨set.words.modify index change⟩).bits.testBit place =
      if index = place / 64 ∧ index < set.words.size then
        (change (set.words[index]?.getD 0)).toBitVec.getLsbD (place % 64)
      else set.toTerminalSet.bits.testBit place := by
  rw [testBit_bits, testBit_bits, Array.getElem?_modify]
  by_cases here : index = place / 64
  · subst here
    by_cases inside : place / 64 < set.words.size
    · rw [if_pos rfl, if_pos ⟨rfl, inside⟩, Array.getElem?_eq_getElem inside]
      rfl
    · rw [if_pos rfl, if_neg (fun both => inside both.2), Array.getElem?_eq_none (Nat.le_of_not_lt inside)]
      rfl
  · rw [if_neg here, if_neg (fun both => here both.1)]

theorem getLsbD_maskOf {place : Nat} (here : wordOf kind = place / 64) :
    (maskOf kind).toBitVec.getLsbD (place % 64) = decide (kind.index = place) := by
  unfold maskOf
  unfold wordOf at here
  rw [getLsbD_single (Nat.mod_lt _ (by decide))]
  have same : kind.index % 64 = place % 64 ↔ kind.index = place := by omega
  exact decide_eq_decide.mpr same

theorem index_ne_of_wordOf_ne {place : Nat} (elsewhere : wordOf kind ≠ place / 64) : kind.index ≠ place :=
  fun same => elsewhere (congrArg (· / 64) same)

theorem toTerminalSet_add : (set.add kind).toTerminalSet = set.toTerminalSet.add kind := by
  apply TerminalSet.eq_of_testBit
  · rw [TerminalSet.slots_add]
    exact Array.size_modify
  · intro place
    rw [TerminalSet.testBit_add, fits_toTerminalSet]
    unfold add
    rw [testBit_modify]
    by_cases here : wordOf kind = place / 64
    · by_cases inside : wordOf kind < set.words.size
      · rw [if_pos ⟨here, inside⟩, UInt64.toBitVec_or, BitVec.getLsbD_or, getLsbD_maskOf here, testBit_bits,
          ← here, decide_eq_true inside, Bool.and_true]
      · rw [if_neg (fun both => inside both.2), decide_eq_false inside, Bool.and_false, Bool.or_false]
    · rw [if_neg (fun both => here both.1), decide_eq_false (index_ne_of_wordOf_ne here), Bool.false_and,
        Bool.or_false]

theorem toTerminalSet_remove : (set.remove kind).toTerminalSet = set.toTerminalSet.remove kind := by
  apply TerminalSet.eq_of_testBit
  · rw [TerminalSet.slots_remove]
    exact Array.size_modify
  · intro place
    rw [TerminalSet.testBit_remove]
    unfold remove
    rw [testBit_modify]
    by_cases here : wordOf kind = place / 64
    · by_cases inside : wordOf kind < set.words.size
      · have bit : place % 64 < 64 := Nat.mod_lt _ (by decide)
        rw [if_pos ⟨here, inside⟩, UInt64.toBitVec_and, UInt64.toBitVec_not, BitVec.getLsbD_and,
          BitVec.getLsbD_not, getLsbD_maskOf here, testBit_bits, ← here, decide_eq_true bit, Bool.true_and]
      · rw [if_neg (fun both => inside both.2), testBit_bits, ← here,
          Array.getElem?_eq_none (Nat.le_of_not_lt inside)]
        simp
    · rw [if_neg (fun both => here both.1), decide_eq_false (index_ne_of_wordOf_ne here), Bool.not_false,
        Bool.and_true]

theorem toTerminalSet_insert : set.toTerminalSet.insert kind =
    (set.insert kind).map fun answer => (answer.1.toTerminalSet, answer.2) := by
  unfold insert TerminalSet.insert
  rw [fits_toTerminalSet, contains_toTerminalSet, ← toTerminalSet_add]
  by_cases inside : wordOf kind < set.words.size
  · have fresh : (!set.contains kind) = (set.words[wordOf kind] &&& maskOf kind == 0) := by
      unfold contains
      rw [Array.getElem?_eq_getElem inside, Option.any_some, bne, Bool.not_not]
    rw [requireAt_of_lt _ _ inside, if_pos (decide_eq_true inside), fresh]
    rfl
  · have beyond : requireAt set.words (wordOf kind) = .error .indexOutOfRange := by
      unfold requireAt
      rw [Array.getElem?_eq_none (Nat.le_of_not_lt inside)]
    rw [beyond, decide_eq_false inside]
    rfl

/-! ### Loops over the words -/

/-- A merge takes the union of the bits, as far as the first list goes. -/
theorem getLsbD_merge : ∀ (words others : List UInt64) (index place : Nat),
    ((merge words others).1[index]?.getD 0).toBitVec.getLsbD place =
      ((words[index]?.getD 0).toBitVec.getLsbD place ||
        decide (index < words.length) && (others[index]?.getD 0).toBitVec.getLsbD place)
  | [], others, index, place => by simp [merge]
  | word :: rest, [], index, place => by simp [merge]
  | word :: rest, other :: others, 0, place => by simp [merge]
  | word :: rest, other :: others, index + 1, place => by
      have tail := getLsbD_merge rest others index place
      simpa [merge] using tail

theorem length_merge : ∀ words others : List UInt64, (merge words others).1.length = words.length
  | [], others => by simp [merge]
  | word :: rest, [] => by simp [merge]
  | word :: rest, other :: others => by simp [merge, length_merge rest others]

theorem merge_changed : ∀ words others : List UInt64,
    (merge words others).2 = true ↔ (merge words others).1 ≠ words
  | [], others => by simp [merge]
  | word :: rest, [] => by simp [merge]
  | word :: rest, other :: others => by
      have tail := merge_changed rest others
      simp only [merge, Bool.or_eq_true, bne_iff_ne, tail, ne_eq, List.cons.injEq]
      exact Classical.not_and_iff_not_or_not.symm

theorem toTerminalSet_union :
    (set.union other).1.toTerminalSet = set.toTerminalSet.union other.toTerminalSet := by
  have words : (set.union other).1.words.toList = (merge set.words.toList other.words.toList).1 := rfl
  apply TerminalSet.eq_of_testBit
  · change (set.union other).1.words.size = set.words.size
    rw [← Array.length_toList, words, length_merge, Array.length_toList]
  · intro place
    have room : set.toTerminalSet.slots = set.words.size := rfl
    have inside : decide (place < 64 * set.words.size) = decide (place / 64 < set.words.size) :=
      decide_eq_decide.mpr (by omega)
    rw [TerminalSet.testBit_union, testBit_bits, testBit_bits, testBit_bits, ← Array.getElem?_toList, words,
      getLsbD_merge, Array.length_toList, room, inside]
    simp only [Array.getElem?_toList]

theorem union_changed : (set.union other).2 = true ↔ (set.union other).1 ≠ set := by
  have same : (set.union other).1 = set ↔ (merge set.words.toList other.words.toList).1 = set.words.toList := by
    cases set with
    | mk words =>
        have built : (union ⟨words⟩ other).1 = ⟨(merge words.toList other.words.toList).1.toArray⟩ := rfl
        rw [built, mk.injEq, ← Array.toList_inj, List.toList_toArray]
  rw [ne_eq, same]
  exact merge_changed set.words.toList other.words.toList

theorem toTerminalSet_unionGrew : set.toTerminalSet.unionGrew other.toTerminalSet =
    ((set.union other).1.toTerminalSet, (set.union other).2) := by
  have grew : (set.toTerminalSet.unionGrew other.toTerminalSet).2 = (set.union other).2 := by
    rw [Bool.eq_iff_iff, TerminalSet.unionGrew_changed, union_changed, ← toTerminalSet_union, ne_eq, ne_eq,
      toTerminalSet_inj]
  rw [toTerminalSet_union, ← grew]
  rfl

theorem and_shiftLeft_add {left right low counterpart : Nat} (small : low < 1 <<< 64)
    (smallToo : counterpart < 1 <<< 64) :
    (left <<< 64 + low) &&& (right <<< 64 + counterpart) = (left &&& right) <<< 64 + (low &&& counterpart) := by
  have both : low &&& counterpart < 1 <<< 64 := Nat.lt_of_le_of_lt Nat.and_le_left small
  apply Nat.eq_of_testBit_eq
  intro place
  rw [Nat.testBit_and, testBit_shiftLeft_add _ small, testBit_shiftLeft_add _ smallToo,
    testBit_shiftLeft_add _ both]
  by_cases first : place < 64
  · rw [if_pos first, if_pos first, if_pos first, Nat.testBit_and]
  · rw [if_neg first, if_neg first, if_neg first, Nat.testBit_and]

theorem intersects_number : ∀ words others : List UInt64,
    (number words &&& number others != 0) =
      (words.zip others).any fun (word, other) => word &&& other != 0
  | [], others => by simp [number]
  | word :: rest, [] => by simp [number]
  | word :: rest, other :: others => by
      have tail := intersects_number rest others
      rw [number, number, and_shiftLeft_add (toNat_lt_one_shift word) (toNat_lt_one_shift other),
        List.zip_cons_cons, List.any_cons, ← tail, ← UInt64.toNat_and]
      rw [Bool.eq_iff_iff, Bool.or_eq_true, bne_iff_ne, bne_iff_ne, bne_iff_ne, ne_eq, ne_eq, ne_eq,
        ← UInt64.toNat_inj, UInt64.toNat_zero]
      omega

theorem intersects_toTerminalSet : set.toTerminalSet.intersects other.toTerminalSet = set.intersects other :=
  intersects_number set.words.toList other.words.toList

theorem isEmpty_number : ∀ words : List UInt64, (number words == 0) = words.all (· == 0)
  | [] => rfl
  | word :: rest => by
      have tail := isEmpty_number rest
      rw [number, List.all_cons, ← tail, Bool.eq_iff_iff, Bool.and_eq_true, beq_iff_eq, beq_iff_eq, beq_iff_eq,
        ← UInt64.toNat_inj, UInt64.toNat_zero]
      omega

theorem isEmpty_toTerminalSet : set.toTerminalSet.isEmpty = set.isEmpty := by
  unfold isEmpty
  rw [← Array.all_toList]
  exact isEmpty_number set.words.toList

/-! ### The members in order -/

theorem kindsOf_eq (word : UInt64) (before : Nat) : kindsOf word before =
    ((List.range 64).filter word.toBitVec.getLsbD).map fun place => .ofIndex (before * 64 + place) := by
  have tests : (List.range 64).filter (fun place => word &&& single place != 0) =
      (List.range 64).filter word.toBitVec.getLsbD := by
    apply List.filter_congr
    intro place member
    exact test_single word (List.mem_range.mp member)
  unfold kindsOf
  rw [tests]

theorem length_kindsOf (word : UInt64) (before : Nat) : (kindsOf word before).length = ones word := by
  unfold ones
  rw [kindsOf_eq, List.length_map, List.countP_eq_length_filter]

theorem flatMap_kindsOf : ∀ (words : List UInt64) (before : Nat),
    (words.zipIdx before).flatMap (fun entry => kindsOf entry.1 entry.2) =
      ((List.range (64 * words.length)).filter (number words).testBit).map
        fun place => .ofIndex (before * 64 + place)
  | [], before => rfl
  | word :: rest, before => by
      have first : (List.range 64).filter (number (word :: rest)).testBit =
          (List.range 64).filter word.toBitVec.getLsbD := by
        apply List.filter_congr
        intro place member
        have low := List.mem_range.mp member
        rw [testBit_number, Nat.div_eq_of_lt low, Nat.mod_eq_of_lt low]
        rfl
      have others : (number (word :: rest)).testBit ∘ (64 + ·) = (number rest).testBit := by
        funext place
        have index : (64 + place) / 64 = place / 64 + 1 := by omega
        have bit : (64 + place) % 64 = place % 64 := by omega
        rw [Function.comp_apply, testBit_number, testBit_number, index, bit, List.getElem?_cons_succ]
      have length : 64 * (word :: rest).length = 64 + 64 * rest.length := by
        rw [List.length_cons]
        omega
      have shifted : ∀ place, before * 64 + (64 + place) = (before + 1) * 64 + place := by omega
      rw [List.zipIdx_cons, List.flatMap_cons, flatMap_kindsOf rest (before + 1), kindsOf_eq, length,
        List.range_add, List.filter_append, List.map_append, first, List.filter_map, others, List.map_map]
      simp only [Function.comp_def, shifted]

theorem size_eq_length (set : WordSet) : set.size = set.toList.length := by
  have counts : ∀ (words : List UInt64) (before : Nat), sumOf (words.map ones) =
      ((words.zipIdx before).flatMap fun entry => kindsOf entry.1 entry.2).length := by
    intro words
    induction words with
    | nil => intro before; rfl
    | cons word rest ih =>
        intro before
        rw [List.map_cons, sumOf_cons, ih (before + 1), List.zipIdx_cons, List.flatMap_cons, List.length_append,
          length_kindsOf]
  exact counts set.words.toList 0

theorem toList_toTerminalSet : set.toTerminalSet.toList = set.toList := by
  have bound : set.toTerminalSet.bits < 1 <<< (64 * set.words.toList.length) := number_lt set.words.toList
  have listed := flatMap_kindsOf set.words.toList 0
  simp only [Nat.zero_mul, Nat.zero_add] at listed
  rw [TerminalSet.toList_eq bound]
  exact listed.symm

theorem size_toTerminalSet : set.toTerminalSet.size = set.size := by
  unfold TerminalSet.size
  rw [toList_toTerminalSet, size_eq_length]

end IncrementalParsing.WordSet
