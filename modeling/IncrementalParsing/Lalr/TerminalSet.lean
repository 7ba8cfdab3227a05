import IncrementalParsing.Kind

/-!
Sets of terminals. A set is made with room for the kinds below some capacity, in slots of 64 kinds,
and is held as one number whose bits are its members. Membership is a bit test, so every operation is
described by what it does to `contains`.
-/

namespace IncrementalParsing

theorem one_shift_pos (place : Nat) : 0 < 1 <<< place := by
  rw [Nat.one_shiftLeft]
  exact Nat.two_pow_pos place

theorem one_shift_lt {place bound : Nat} (below : place < bound) : 1 <<< place < 1 <<< bound := by
  rw [Nat.one_shiftLeft, Nat.one_shiftLeft]
  exact Nat.pow_lt_pow_right (by decide) below

theorem or_lt_one_shift {left right bound : Nat} (leftBelow : left < 1 <<< bound)
    (rightBelow : right < 1 <<< bound) : left ||| right < 1 <<< bound := by
  rw [Nat.one_shiftLeft] at leftBelow rightBelow ⊢
  exact Nat.or_lt_two_pow leftBelow rightBelow

theorem xor_lt_one_shift {left right bound : Nat} (leftBelow : left < 1 <<< bound)
    (rightBelow : right < 1 <<< bound) : left ^^^ right < 1 <<< bound := by
  rw [Nat.one_shiftLeft] at leftBelow rightBelow ⊢
  exact Nat.xor_lt_two_pow leftBelow rightBelow

theorem index_lt_of_testBit {bits place bound : Nat} (below : bits < 1 <<< bound)
    (present : bits.testBit place = true) : place < bound := by
  rw [Nat.one_shiftLeft] at below
  have atLeast := Nat.ge_two_pow_of_testBit present
  exact (Nat.pow_lt_pow_iff_right (by decide)).mp (Nat.lt_of_le_of_lt atLeast below)

structure TerminalSet where
  slots : Nat
  bits : Nat
  bits_lt : bits < 1 <<< (64 * slots)
deriving DecidableEq

namespace TerminalSet

instance : Hashable TerminalSet where
  hash set := mixHash (hash set.slots) (hash set.bits)

/-- The empty set with room for the kinds below `capacity`. -/
def withCapacity (capacity : Nat) : TerminalSet :=
  ⟨(capacity + 63) / 64, 0, one_shift_pos _⟩

def contains (set : TerminalSet) (kind : KindId) : Bool := set.bits.testBit kind.index

def fits (set : TerminalSet) (kind : KindId) : Bool := kind.index < 64 * set.slots

/-- Adds a kind that the set has room for, and leaves the set as it is otherwise. -/
def add (set : TerminalSet) (kind : KindId) : TerminalSet :=
  if inside : kind.index < 64 * set.slots then
    ⟨set.slots, set.bits ||| 1 <<< kind.index, or_lt_one_shift set.bits_lt (one_shift_lt inside)⟩
  else set

/-- Adds a kind and answers whether it is new; the set is required to have room for it. -/
def insert (set : TerminalSet) (kind : KindId) : Except Fault (TerminalSet × Bool) :=
  if set.fits kind then .ok (set.add kind, !set.contains kind) else .error .indexOutOfRange

def remove (set : TerminalSet) (kind : KindId) : TerminalSet :=
  if present : set.bits.testBit kind.index then
    ⟨set.slots, set.bits ^^^ 1 <<< kind.index,
      xor_lt_one_shift set.bits_lt (one_shift_lt (index_lt_of_testBit set.bits_lt present))⟩
  else set

def within (set other : TerminalSet) : Nat :=
  if other.slots ≤ set.slots then other.bits else other.bits % 1 <<< (64 * set.slots)

theorem within_lt (set other : TerminalSet) : within set other < 1 <<< (64 * set.slots) := by
  unfold within
  split
  · rename_i fewer
    refine Nat.lt_of_lt_of_le other.bits_lt ?_
    rw [Nat.one_shiftLeft, Nat.one_shiftLeft]
    exact Nat.pow_le_pow_right (by decide) (Nat.mul_le_mul_left _ fewer)
  · exact Nat.mod_lt _ (one_shift_pos _)

def union (set other : TerminalSet) : TerminalSet :=
  ⟨set.slots, set.bits ||| within set other, or_lt_one_shift set.bits_lt (within_lt set other)⟩

def unionGrew (set other : TerminalSet) : TerminalSet × Bool :=
  let merged := set.union other
  (merged, merged.bits != set.bits)

def intersects (set other : TerminalSet) : Bool := set.bits &&& other.bits != 0

def isEmpty (set : TerminalSet) : Bool := set.bits == 0

def toList (set : TerminalSet) : List KindId :=
  ((List.range (set.bits.log2 + 1)).filter set.bits.testBit).map .ofIndex

def size (set : TerminalSet) : Nat := set.toList.length

def ofList (kinds : List KindId) : TerminalSet :=
  kinds.foldl add (withCapacity (kinds.foldl (fun bound kind => max bound (kind.index + 1)) 0))

@[simp] theorem slots_add (set : TerminalSet) (kind : KindId) : (set.add kind).slots = set.slots := by
  unfold add; split <;> rfl

@[simp] theorem slots_union (set other : TerminalSet) : (set.union other).slots = set.slots := rfl

@[simp] theorem slots_remove (set : TerminalSet) (kind : KindId) :
    (set.remove kind).slots = set.slots := by
  unfold remove; split <;> rfl

@[simp] theorem contains_withCapacity (capacity : Nat) (kind : KindId) :
    (withCapacity capacity).contains kind = false := by
  simp [withCapacity, contains]

theorem fits_of_contains (set : TerminalSet) (kind : KindId) (present : set.contains kind = true) :
    set.fits kind = true := by
  unfold contains at present
  unfold fits
  simpa using index_lt_of_testBit set.bits_lt present

theorem index_injective {left right : KindId} (same : left.index = right.index) : left = right := by
  rw [← KindId.ofIndex_index left, ← KindId.ofIndex_index right, same]

theorem contains_add (set : TerminalSet) (kind other : KindId) (room : set.fits kind = true) :
    (set.add kind).contains other = (set.contains other || other == kind) := by
  have inside : kind.index < 64 * set.slots := by simpa [fits] using room
  simp only [add, inside, dite_true, contains, Nat.testBit_or, Nat.one_shiftLeft, Nat.testBit_two_pow]
  by_cases same : other = kind
  · subst same; simp
  · have different : ¬ kind.index = other.index := fun h => same (index_injective h).symm
    simp [different, same]

theorem contains_remove (set : TerminalSet) (kind other : KindId) :
    (set.remove kind).contains other = (set.contains other && other != kind) := by
  unfold remove contains
  split
  · rename_i present
    simp only [Nat.testBit_xor, Nat.one_shiftLeft, Nat.testBit_two_pow]
    by_cases same : other = kind
    · subst same; simp [present]
    · have different : ¬ kind.index = other.index := fun h => same (index_injective h).symm
      simp [different, same]
  · rename_i absent
    by_cases same : other = kind
    · subst same; simpa using absent
    · simp [same]

theorem contains_union (set other : TerminalSet) (kind : KindId) (room : set.fits kind = true) :
    (set.union other).contains kind = (set.contains kind || other.contains kind) := by
  have inside : kind.index < 64 * set.slots := by simpa [fits] using room
  simp only [union, contains, Nat.testBit_or, within]
  split
  · rfl
  · simp [Nat.one_shiftLeft, Nat.testBit_mod_two_pow, inside]

end TerminalSet

end IncrementalParsing
