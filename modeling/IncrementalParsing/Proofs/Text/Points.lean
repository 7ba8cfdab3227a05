import IncrementalParsing.Proofs.Outcome
import IncrementalParsing.Text.LineIndex

/-!
Points and offsets. The starts of the lines increase, so an offset of the text lies on exactly one of
them, and its point leads back to it. Conversely the offset of a point has that point, but for one
column in each row that another row follows: the column after the newline byte is taken for one of
its row, although the offset there already begins the next row. A column that cannot be added to the
start of its row within 32 bits is not refused, it breaks the addition.
-/

namespace IncrementalParsing

theorem lt_length_takeWhile (bound : Nat) {starts : List Nat} (increasing : starts.Pairwise (· < ·))
    (place : Nat) : place < (starts.takeWhile (· ≤ bound)).length ↔
      ∃ start, starts[place]? = some start ∧ start ≤ bound := by
  induction starts generalizing place with
  | nil => simp
  | cons first rest ih =>
      obtain ⟨least, later⟩ := List.pairwise_cons.mp increasing
      by_cases within : first ≤ bound
      · rw [List.takeWhile_cons_of_pos (by exact decide_eq_true within), List.length_cons]
        cases place with
        | zero => simp [within]
        | succ place =>
            rw [Nat.add_lt_add_iff_right, List.getElem?_cons_succ]
            exact ih later place
      · rw [List.takeWhile_cons_of_neg (by exact fun taken => within (of_decide_eq_true taken))]
        constructor
        · intro impossible
          cases impossible
        · rintro ⟨start, found, small⟩
          exfalso
          rcases List.mem_cons.mp (List.mem_of_getElem? found) with rfl | member
          · exact within small
          · exact within (Nat.le_trans (Nat.le_of_lt (least start member)) small)

namespace LineIndex

theorem mem_startsAfter {bytes : List UInt8} {base start : Nat} :
    start ∈ startsAfter base bytes ↔ ∃ place, bytes[place]? = some 10 ∧ start = base + place + 1 := by
  induction bytes generalizing base with
  | nil => simp [startsAfter]
  | cons byte rest ih =>
      have further : start ∈ startsAfter (base + 1) rest ↔
          ∃ place, (byte :: rest)[place + 1]? = some 10 ∧ start = base + (place + 1) + 1 := by
        rw [ih]
        refine exists_congr fun place => and_congr Iff.rfl ?_
        omega
      unfold startsAfter
      by_cases newline : byte = 10
      · rw [if_pos newline, List.mem_cons, further]
        constructor
        · rintro (rfl | ⟨place, found, same⟩)
          · exact ⟨0, congrArg some newline, rfl⟩
          · exact ⟨place + 1, found, same⟩
        · rintro ⟨place, found, same⟩
          cases place with
          | zero => exact .inl same
          | succ place => exact .inr ⟨place, found, same⟩
      · rw [if_neg newline, further]
        constructor
        · rintro ⟨place, found, same⟩
          exact ⟨place + 1, found, same⟩
        · rintro ⟨place, found, same⟩
          cases place with
          | zero => exact absurd (Option.some.inj found) newline
          | succ place => exact ⟨place, found, same⟩

theorem startsAfter_increasing (bytes : List UInt8) (base : Nat) :
    (startsAfter base bytes).Pairwise (· < ·) := by
  induction bytes generalizing base with
  | nil => exact .nil
  | cons byte rest ih =>
      unfold startsAfter
      by_cases newline : byte = 10
      · rw [if_pos newline]
        refine .cons (fun start member => ?_) (ih (base + 1))
        obtain ⟨place, _found, same⟩ := mem_startsAfter.mp member
        omega
      · rw [if_neg newline]
        exact ih (base + 1)

def rowEnd (index : LineIndex) (row : Nat) : Nat :=
  index.lineStarts[row + 1]?.getD index.length

/-- The point after the newline byte of its row, where the next row begins at `offset` already. -/
def Overhangs (index : LineIndex) (point : Point) (offset : Nat) : Prop :=
  index.lineStarts[point.row + 1]? = some offset ∧
    ∃ start, index.lineStarts[point.row]? = some start ∧ start + point.column = offset

/-- There is no such row, or the point lies past its end. -/
def Beyond (index : LineIndex) (point : Point) : Prop :=
  ∀ start, index.lineStarts[point.row]? = some start →
    index.rowEnd point.row < start + point.column

/-- The column leads past every offset that can be written. -/
def Exceeds (index : LineIndex) (point : Point) : Prop :=
  ∃ start, index.lineStarts[point.row]? = some start ∧ offsetLimit ≤ start + point.column

theorem offset_of_row {index : LineIndex} {point : Point} {start : Nat}
    (found : index.lineStarts[point.row]? = some start) :
    index.offset point = if start + point.column < offsetLimit then
      .ok (if start + point.column ≤ index.rowEnd point.row then some (start + point.column) else none)
      else .error .arithmeticOverflow := by
  unfold LineIndex.offset checkedOffset rowEnd
  rw [found]
  by_cases fits : start + point.column < offsetLimit
  · simp only [if_pos fits, ok_bind]
    rfl
  · simp only [if_neg fits]
    rfl

theorem offset_of_no_row {index : LineIndex} {point : Point}
    (missing : index.lineStarts[point.row]? = none) : index.offset point = .ok none := by
  unfold LineIndex.offset
  rw [missing]

theorem offset_some {index : LineIndex} {point : Point} {offset : Nat} :
    index.offset point = .ok (some offset) ↔ offset < offsetLimit ∧ offset ≤ index.rowEnd point.row ∧
      ∃ start, index.lineStarts[point.row]? = some start ∧ start + point.column = offset := by
  cases found : index.lineStarts[point.row]? with
  | none =>
      rw [offset_of_no_row found]
      simp
  | some start =>
      rw [offset_of_row found]
      by_cases fits : start + point.column < offsetLimit
      · by_cases within : start + point.column ≤ index.rowEnd point.row
        · simp only [if_pos fits, if_pos within, Except.ok.injEq, Option.some.injEq, exists_eq_left']
          constructor
          · rintro rfl
            exact ⟨fits, within, rfl⟩
          · exact fun described => described.2.2
        · simp only [if_pos fits, if_neg within, Except.ok.injEq, Option.some.injEq, exists_eq_left',
            reduceCtorEq, false_iff]
          rintro ⟨_, small, rfl⟩
          exact within small
      · simp only [if_neg fits, Option.some.injEq, exists_eq_left', reduceCtorEq, false_iff]
        rintro ⟨small, _, rfl⟩
        exact fits small

theorem offset_none {index : LineIndex} {point : Point} :
    index.offset point = .ok none ↔ index.Beyond point ∧ ¬ index.Exceeds point := by
  cases found : index.lineStarts[point.row]? with
  | none =>
      rw [offset_of_no_row found]
      simp [Beyond, Exceeds, found]
  | some start =>
      rw [offset_of_row found]
      by_cases fits : start + point.column < offsetLimit
      · by_cases within : start + point.column ≤ index.rowEnd point.row
        · simp [Beyond, Exceeds, found, fits, within]
        · simp [Beyond, Exceeds, found, fits, within, Nat.lt_of_not_le within]
      · simp [Beyond, Exceeds, found, fits, Nat.le_of_not_lt fits]

theorem offset_error {index : LineIndex} {point : Point} {fault : Fault} :
    index.offset point = .error fault ↔ index.Exceeds point ∧ fault = .arithmeticOverflow := by
  cases found : index.lineStarts[point.row]? with
  | none =>
      rw [offset_of_no_row found]
      simp [Exceeds, found]
  | some start =>
      rw [offset_of_row found]
      by_cases fits : start + point.column < offsetLimit
      · simp [Exceeds, found, fits, Nat.not_le_of_lt fits]
      · simp [Exceeds, found, fits, Nat.le_of_not_lt fits, eq_comm]

section

variable (text : Array UInt8)

theorem lineStarts_increasing : (ofText text).lineStarts.Pairwise (· < ·) := by
  refine .cons (fun start member => ?_) (startsAfter_increasing text.toList 0)
  obtain ⟨place, _found, same⟩ := mem_startsAfter.mp member
  omega

variable {text}

theorem start_le {row start : Nat} (found : (ofText text).lineStarts[row]? = some start) :
    start ≤ text.size := by
  rcases List.mem_cons.mp (List.mem_of_getElem? found) with rfl | member
  · exact Nat.zero_le _
  · obtain ⟨place, newline, same⟩ := mem_startsAfter.mp member
    have within := (List.getElem?_eq_some_iff.mp newline).1
    rw [Array.length_toList] at within
    omega

theorem start_lt_start {earlier later first second : Nat} (order : earlier < later)
    (foundFirst : (ofText text).lineStarts[earlier]? = some first)
    (foundSecond : (ofText text).lineStarts[later]? = some second) : first < second := by
  obtain ⟨_, rfl⟩ := List.getElem?_eq_some_iff.mp foundFirst
  obtain ⟨_, rfl⟩ := List.getElem?_eq_some_iff.mp foundSecond
  exact List.pairwise_iff_getElem.mp (lineStarts_increasing text) _ _ _ _ order

/-- The point of an offset, without the search: its row begins at or before the offset and the next
row, if there is one, after it. -/
theorem point_iff {offset : Nat} (within : offset ≤ text.size) (point : Point) :
    (ofText text).point offset = point ↔
      ∃ start, (ofText text).lineStarts[point.row]? = some start ∧ start + point.column = offset ∧
        ∀ next, (ofText text).lineStarts[point.row + 1]? = some next → offset < next := by
  have searched := lt_length_takeWhile offset (lineStarts_increasing text)
  have clamped : min offset (ofText text).length = offset := Nat.min_eq_left within
  obtain ⟨rows, counted⟩ : ∃ rows, ((ofText text).lineStarts.takeWhile (· ≤ offset)).length = rows + 1 :=
    Nat.exists_eq_succ_of_ne_zero (Nat.ne_of_gt ((searched 0).mpr ⟨0, rfl, Nat.zero_le offset⟩))
  obtain ⟨start, found, small⟩ := (searched rows).mp (by omega)
  have last : ((ofText text).lineStarts.takeWhile (· ≤ offset)).getLast? = some start := by
    have place : rows < ((ofText text).lineStarts.takeWhile (· ≤ offset)).length := by omega
    have same := List.prefix_iff_getElem?.mp (List.takeWhile_prefix (· ≤ offset)) rows place
    rw [List.getLast?_eq_getElem?, counted, Nat.add_sub_cancel, List.getElem?_eq_getElem place, ← same]
    exact found
  have computed : (ofText text).point offset = ⟨rows, offset - start⟩ := by
    unfold LineIndex.point
    dsimp only
    rw [clamped, last, counted]
    rfl
  have follows : ∀ next, (ofText text).lineStarts[rows + 1]? = some next → offset < next := by
    intro next beyond
    refine Nat.lt_of_not_le fun before => ?_
    have more := (searched (rows + 1)).mpr ⟨next, beyond, before⟩
    omega
  rw [computed]
  constructor
  · rintro rfl
    exact ⟨start, found, Nat.add_sub_cancel' small, follows⟩
  · rintro ⟨other, foundOther, same, followsOther⟩
    obtain ⟨row, column⟩ := point
    have among := (searched row).mpr ⟨other, foundOther, by omega⟩
    have unpassed : ¬ row < rows := by
      intro before
      obtain ⟨next, foundNext, reached⟩ := (searched (row + 1)).mp (by omega)
      exact Nat.not_lt.mpr reached (followsOther next foundNext)
    obtain rfl : row = rows := by omega
    obtain rfl : other = start := Option.some.inj (foundOther.symm.trans found)
    rw [← same, Nat.add_sub_cancel_left]

theorem le_rowEnd_iff {row offset : Nat} (within : offset ≤ text.size) :
    offset ≤ (ofText text).rowEnd row ↔
      ∀ next, (ofText text).lineStarts[row + 1]? = some next → offset ≤ next := by
  unfold rowEnd
  cases found : (ofText text).lineStarts[row + 1]? with
  | none =>
      rw [Option.getD_none]
      exact iff_of_true within (fun next impossible => by cases impossible)
  | some next => simp

theorem rowEnd_le (row : Nat) : (ofText text).rowEnd row ≤ text.size := by
  unfold rowEnd
  cases found : (ofText text).lineStarts[row + 1]? with
  | none => exact Nat.le_refl _
  | some next => exact start_le found

theorem offset_point (short : text.size + 1 < offsetLimit) {offset : Nat} (within : offset ≤ text.size) :
    (ofText text).offset ((ofText text).point offset) = .ok (some offset) := by
  obtain ⟨start, found, same, follows⟩ := (point_iff within _).mp rfl
  refine offset_some.mpr ⟨by omega, (le_rowEnd_iff within).mpr fun next foundNext => ?_, start, found, same⟩
  exact Nat.le_of_lt (follows next foundNext)

theorem point_of_overhangs {point : Point} {offset : Nat}
    (overhangs : (ofText text).Overhangs point offset) :
    (ofText text).point offset = ⟨point.row + 1, 0⟩ ∧ text[offset - 1]? = some 10 := by
  obtain ⟨begins, start, found, _same⟩ := overhangs
  constructor
  · refine (point_iff (start_le begins) _).mpr ⟨offset, begins, Nat.add_zero offset, ?_⟩
    exact fun next foundNext => start_lt_start (Nat.lt_succ_self _) begins foundNext
  · have later : start < offset := start_lt_start (Nat.lt_succ_self _) found begins
    rcases List.mem_cons.mp (List.mem_of_getElem? begins) with none | member
    · omega
    · obtain ⟨place, newline, same⟩ := mem_startsAfter.mp member
      rw [same, Nat.zero_add, Nat.add_sub_cancel, ← Array.getElem?_toList]
      exact newline

theorem offset_iff_point (short : text.size + 1 < offsetLimit) (point : Point) (offset : Nat) :
    (ofText text).offset point = .ok (some offset) ↔
      (offset ≤ text.size ∧ (ofText text).point offset = point) ∨
        (ofText text).Overhangs point offset := by
  constructor
  · intro answered
    obtain ⟨_fits, within, start, found, same⟩ := offset_some.mp answered
    have inText : offset ≤ text.size := Nat.le_trans within (rowEnd_le _)
    by_cases begins : (ofText text).lineStarts[point.row + 1]? = some offset
    · exact .inr ⟨begins, start, found, same⟩
    · refine .inl ⟨inText, (point_iff inText point).mpr ⟨start, found, same, fun next foundNext => ?_⟩⟩
      refine Nat.lt_of_le_of_ne ((le_rowEnd_iff inText).mp within next foundNext) ?_
      rintro rfl
      exact begins foundNext
  · rintro (⟨within, rfl⟩ | ⟨begins, start, found, same⟩)
    · exact offset_point short within
    · have inText := start_le begins
      refine offset_some.mpr ⟨by omega, (le_rowEnd_iff inText).mpr fun next foundNext => ?_, start, found, same⟩
      exact Nat.le_of_eq (Option.some.inj (begins.symm.trans foundNext))

/-- The rows of a text lead from points to offsets and back. The offset of a point is the one that
has this point, or the point overhangs its row; it is missing past the end of the row and after the
last row; and it cannot be computed where the column leads past 32 bits. -/
theorem offset_inverts_point (text : Array UInt8) (short : text.size + 1 < offsetLimit) (point : Point) :
    (∀ offset, offset ≤ text.size →
      (ofText text).offset ((ofText text).point offset) = .ok (some offset)) ∧
    (∀ offset, (ofText text).offset point = .ok (some offset) ↔
      (offset ≤ text.size ∧ (ofText text).point offset = point) ∨ (ofText text).Overhangs point offset) ∧
    (∀ offset, (ofText text).Overhangs point offset →
      (ofText text).point offset = ⟨point.row + 1, 0⟩ ∧ text[offset - 1]? = some 10) ∧
    ((ofText text).offset point = .ok none ↔
      (ofText text).Beyond point ∧ ¬ (ofText text).Exceeds point) ∧
    (∀ fault, (ofText text).offset point = .error fault ↔
      (ofText text).Exceeds point ∧ fault = .arithmeticOverflow) := by
  refine ⟨fun offset within => offset_point short within, offset_iff_point short point,
    fun offset overhangs => point_of_overhangs overhangs, offset_none, fun fault => offset_error⟩

theorem offset_inverts_point_rows :
    (#[97, 10, 98] : Array UInt8).size + 1 < offsetLimit ∧
    (ofText #[97, 10, 98]).offset ⟨1, 0⟩ = .ok (some 2) ∧
    (ofText #[97, 10, 98]).offset ⟨1, 2⟩ = .ok none ∧
    (ofText #[97, 10, 98]).offset ⟨2, 0⟩ = .ok none := by
  have short : (#[97, 10, 98] : Array UInt8).size + 1 < offsetLimit := by decide
  have pastRow := offset_inverts_point #[97, 10, 98] short ⟨1, 2⟩
  have pastText := offset_inverts_point #[97, 10, 98] short ⟨2, 0⟩
  refine ⟨short, pastRow.1 2 (by decide), pastRow.2.2.2.1.mpr ⟨?_, ?_⟩, pastText.2.2.2.1.mpr ⟨?_, ?_⟩⟩
  · rintro start ⟨⟩
    decide
  · rintro ⟨start, ⟨⟩, large⟩
    exact absurd large (by decide)
  · rintro start ⟨⟩
  · rintro ⟨start, ⟨⟩, _large⟩

/-- The column after the newline byte of `a` is taken for one of its row, and the largest column of
all breaks the addition in the row of `b`. -/
theorem offset_overhangs :
    ¬ ((ofText #[97, 10, 98]).offset ⟨0, 2⟩ = .ok (some 2) ↔
      (ofText #[97, 10, 98]).point 2 = ⟨0, 2⟩) ∧
    (ofText #[97, 10, 98]).offset ⟨1, 4294967295⟩ = .error .arithmeticOverflow := by
  constructor
  · intro inverse
    have pointed := inverse.mp rfl
    exact absurd pointed (by decide)
  · rfl

end

end LineIndex

end IncrementalParsing
