import IncrementalParsing.Builtin.Scanner
import IncrementalParsing.Proofs.Lexing.Reach

/-!
Number literals. A number is written as an integer, perhaps with the letter of a radix after a
leading zero, or as a float with a fraction and perhaps an exponent; these spellings are described
here without a cursor. On a digit the scanner of the built-in language passes over the longest prefix
of the text that is such a spelling, and answers with the token that the spelling belongs to.
-/

namespace IncrementalParsing

/-- The longest prefix of `bytes` that is accepted. -/
structure LongestPrefix (accepts : List UInt8 → Prop) (bytes found : List UInt8) : Prop where
  begins : found <+: bytes
  accepted : accepts found
  longest : ∀ other, other <+: bytes → accepts other → other.length ≤ found.length

theorem LongestPrefix.unique {accepts : List UInt8 → Prop} {bytes first second : List UInt8}
    (left : LongestPrefix accepts bytes first) (right : LongestPrefix accepts bytes second) :
    first = second := by
  have shorter := left.longest second right.begins right.accepted
  have longer := right.longest first left.begins left.accepted
  exact List.IsPrefix.eq_of_length (List.prefix_of_prefix_length_le left.begins right.begins longer)
    (Nat.le_antisymm longer shorter)

/-! ### Runs of bytes of a class -/

section Runs

variable {condition : UInt8 → Bool} {run left : List UInt8}

/-- A run of bytes of a class ends here: with the text, or before a byte of another class. -/
def Stops (condition : UInt8 → Bool) (left : List UInt8) : Prop :=
  ∀ byte, left.head? = some byte → condition byte = false

theorem stops_dropWhile (condition : UInt8 → Bool) (bytes : List UInt8) :
    Stops condition (bytes.dropWhile condition) := by
  intro byte first
  have rejected := List.head?_dropWhile_not condition bytes
  rw [first] at rejected
  simpa using rejected

/-- A prefix of bytes of the class lies within the run. -/
theorem length_le_of_run (stops : Stops condition left) {bytes : List UInt8}
    (members : ∀ byte, byte ∈ bytes → condition byte = true) (begins : bytes <+: run ++ left) :
    bytes.length ≤ run.length := by
  induction run generalizing bytes with
  | nil =>
      cases bytes with
      | nil => exact Nat.le_refl _
      | cons byte rest =>
          obtain ⟨more, same⟩ := begins
          have rejected := stops byte (by rw [← List.nil_append left, ← same]; rfl)
          rw [members byte List.mem_cons_self] at rejected
          cases rejected
  | cons first run ih =>
      cases bytes with
      | nil => exact Nat.zero_le _
      | cons byte rest =>
          have within := ih (fun other member => members other (List.mem_cons_of_mem _ member))
            (List.cons_prefix_cons.mp begins).2
          exact Nat.succ_le_succ within

theorem run_of_run (inside : ∀ byte, byte ∈ run → condition byte = true) {bytes rest : List UInt8}
    {byte : UInt8} (stops : Stops condition left)
    (members : ∀ byte, byte ∈ bytes → condition byte = true) (outside : condition byte = false)
    (begins : bytes ++ byte :: rest <+: run ++ left) : bytes = run ∧ byte :: rest <+: left := by
  induction run generalizing bytes with
  | nil =>
      cases bytes with
      | nil => exact ⟨rfl, begins⟩
      | cons first more =>
          have within : (first :: more).length ≤ ([] : List UInt8).length :=
            length_le_of_run stops members ((List.prefix_append _ _).trans begins)
          cases within
  | cons first run ih =>
      cases bytes with
      | nil =>
          obtain ⟨rfl, _⟩ := List.cons_prefix_cons.mp begins
          rw [inside byte List.mem_cons_self] at outside
          cases outside
      | cons other more =>
          obtain ⟨rfl, later⟩ := List.cons_prefix_cons.mp begins
          obtain ⟨rfl, following⟩ := ih (fun byte member => inside byte (List.mem_cons_of_mem _ member))
            (fun byte member => members byte (List.mem_cons_of_mem _ member)) later
          exact ⟨rfl, following⟩

end Runs

/-! ### What a computation takes -/

def Cursor.remaining (cursor : Cursor) : List UInt8 := cursor.text.toList.drop cursor.position

def Scan.Takes {α : Type} (scan : Scan α) (taken left : List UInt8) (answer : α) : Prop :=
  ∀ cursor, cursor.remaining = taken ++ left → (scan cursor).1 = answer ∧
    (scan cursor).2.text = cursor.text ∧ (scan cursor).2.position = cursor.position + taken.length

namespace Cursor

theorem byteAt_ahead (cursor : Cursor) (distance : Nat) :
    cursor.byteAt (cursor.position + distance) = cursor.remaining[distance]?.getD 0 := by
  unfold Cursor.byteAt Cursor.remaining
  rw [List.getElem?_drop, Array.getElem?_toList]

theorem remaining_of_passed {before after : Cursor} {taken left : List UInt8}
    (ahead : before.remaining = taken ++ left) (text : after.text = before.text)
    (position : after.position = before.position + taken.length) : after.remaining = left := by
  unfold Cursor.remaining at ahead ⊢
  rw [text, position, ← List.drop_drop, ahead, List.drop_left]

theorem atEnd_eq (cursor : Cursor) : cursor.atEnd = cursor.remaining.isEmpty := by
  unfold Cursor.atEnd Cursor.remaining
  rw [Bool.eq_iff_iff, List.isEmpty_iff, List.drop_eq_nil_iff, Array.length_toList, decide_eq_true_eq]

theorem head?_remaining (cursor : Cursor) (more : cursor.position < cursor.text.size) :
    cursor.remaining.head? = some cursor.text[cursor.position] := by
  unfold Cursor.remaining
  rw [List.head?_drop, Array.getElem?_toList, Array.getElem?_eq_getElem more]

end Cursor

namespace Scan

section

variable {α β : Type} {taken left : List UInt8}

theorem Takes.pure (left : List UInt8) (value : α) : (Pure.pure value : Scan α).Takes [] left value :=
  fun _cursor _ahead => ⟨rfl, rfl, rfl⟩

theorem Takes.bind {first : Scan α} {next : α → Scan β} {more : List UInt8} {middle : α} {answer : β}
    (begins : first.Takes taken (more ++ left) middle) (continues : (next middle).Takes more left answer) :
    (first >>= next).Takes (taken ++ more) left answer := by
  intro cursor ahead
  rw [List.append_assoc] at ahead
  obtain ⟨answered, text, position⟩ := begins cursor ahead
  rw [bind_apply, answered]
  obtain ⟨finished, textAfter, positionAfter⟩ :=
    continues (first cursor).2 (Cursor.remaining_of_passed ahead text position)
  refine ⟨finished, textAfter.trans text, ?_⟩
  rw [positionAfter, position, List.length_append, Nat.add_assoc]

theorem Takes.look {first : Scan α} {next : α → Scan β} {middle : α} {answer : β}
    (begins : first.Takes [] (taken ++ left) middle) (continues : (next middle).Takes taken left answer) :
    (first >>= next).Takes taken left answer := Takes.bind begins continues

theorem Takes.nth (distance : Nat) (left : List UInt8) :
    (Scan.nth distance).Takes [] left (left[distance]?.getD 0) := by
  intro cursor ahead
  refine ⟨?_, rfl, rfl⟩
  rw [← (show cursor.remaining = left from ahead), ← cursor.byteAt_ahead]
  rfl

theorem Takes.isEof (left : List UInt8) : Scan.isEof.Takes [] left left.isEmpty := by
  intro cursor ahead
  refine ⟨?_, rfl, rfl⟩
  rw [← (show cursor.remaining = left from ahead), ← cursor.atEnd_eq]
  rfl

theorem Takes.isNext (byte : UInt8) (left : List UInt8) :
    (Scan.isNext byte).Takes [] left (left.head? == some byte) := by
  intro cursor ahead
  have same : cursor.remaining = left := ahead
  refine ⟨?_, rfl, rfl⟩
  change (!cursor.atEnd && cursor.byteAt (cursor.position + 0) == byte) = _
  rw [cursor.atEnd_eq, cursor.byteAt_ahead, same]
  cases left <;> simp

theorem Takes.advance (byte : UInt8) (left : List UInt8) : Scan.advance.Takes [byte] left byte := by
  intro cursor ahead
  have more : cursor.atEnd = false := by
    rw [cursor.atEnd_eq, ahead]
    rfl
  change cursor.byteAt (cursor.position + 0) = byte ∧ (Cursor.advance cursor).2.text = cursor.text ∧
    (Cursor.advance cursor).2.position = cursor.position + 1
  unfold Cursor.advance
  dsimp only
  rw [cursor.byteAt_ahead, ahead, more]
  exact ⟨rfl, rfl, rfl⟩

theorem Takes.advanceBy (taken left : List UInt8) : (Scan.advanceBy taken.length).Takes taken left () := by
  induction taken with
  | nil => exact .pure left ()
  | cons byte rest ih =>
      change Scan.Takes _ ([byte] ++ rest) left ()
      exact .bind (.advance byte (rest ++ left)) ih

theorem Takes.advanceWhile {condition : UInt8 → Bool} (stops : Stops condition left)
    (inside : ∀ byte, byte ∈ taken → condition byte = true) :
    (Scan.advanceWhile condition).Takes taken left () := by
  induction taken with
  | nil =>
      intro cursor ahead
      refine ⟨rfl, ?_⟩
      change (cursor.advanceWhile condition).text = cursor.text ∧
        (cursor.advanceWhile condition).position = cursor.position
      unfold Cursor.advanceWhile
      by_cases more : cursor.position < cursor.text.size
      · have next : left.head? = some cursor.text[cursor.position] :=
          (congrArg List.head? ahead).symm.trans (cursor.head?_remaining more)
        rw [dif_pos more, if_neg (by rw [stops _ next]; exact Bool.false_ne_true)]
        exact ⟨rfl, rfl⟩
      · rw [dif_neg more]
        exact ⟨rfl, rfl⟩
  | cons byte rest ih =>
      intro cursor ahead
      have more : cursor.position < cursor.text.size := by
        have filled := congrArg List.isEmpty ahead
        rw [← cursor.atEnd_eq] at filled
        exact Nat.lt_of_not_le (of_decide_eq_false filled)
      have next : cursor.text[cursor.position] = byte :=
        Option.some.inj ((cursor.head?_remaining more).symm.trans (congrArg List.head? ahead))
      have onward := ih (fun other member => inside other (List.mem_cons_of_mem _ member))
        ((cursor.examine cursor.position).forward 1)
        (@Cursor.remaining_of_passed _ _ [byte] _ ahead rfl rfl)
      obtain ⟨_, text, position⟩ := onward
      refine ⟨rfl, ?_⟩
      change (cursor.advanceWhile condition).text = cursor.text ∧
        (cursor.advanceWhile condition).position = cursor.position + (rest.length + 1)
      unfold Cursor.advanceWhile
      rw [dif_pos more, if_pos (by rw [next]; exact inside byte List.mem_cons_self)]
      refine ⟨text, position.trans ?_⟩
      change cursor.position + 1 + rest.length = _
      omega

end

end Scan

/-! ### Spellings -/

namespace Builtin

def Digits (digit : UInt8 → Bool) : List UInt8 → Prop
  | [] => False
  | first :: rest => digit first = true ∧ ∀ byte, byte ∈ rest → digit byte = true ∨ byte = underscore

/-- The spellings of integers: after `0x`, `0b` or `0o` in another radix, otherwise decimal. -/
inductive IntegerText : List UInt8 → Prop
  | hexadecimal {digits : List UInt8} : Digits isHexadecimal digits → IntegerText (48 :: 120 :: digits)
  | binary {digits : List UInt8} : Digits isBinary digits → IntegerText (48 :: 98 :: digits)
  | octal {digits : List UInt8} : Digits isOctal digits → IntegerText (48 :: 111 :: digits)
  | decimal {digits : List UInt8} : Digits isDecimal digits → IntegerText digits

/-- The spellings of exponents: none, or a letter `e` or `E`, perhaps a sign, and decimal digits. -/
inductive ExponentText : List UInt8 → Prop
  | none : ExponentText []
  | some {letter first : UInt8} {sign rest : List UInt8} : letter = 101 ∨ letter = 69 →
      sign = [] ∨ sign = [43] ∨ sign = [45] → isDecimal first = true →
      (∀ byte, byte ∈ rest → isDecimal byte = true) → ExponentText (letter :: (sign ++ first :: rest))

/-- The spellings of floats: digits, a point, digits and perhaps an exponent. -/
inductive FloatText : List UInt8 → Prop
  | mk {whole fraction power : List UInt8} : Digits isDecimal whole → Digits isDecimal fraction →
      ExponentText power → FloatText (whole ++ 46 :: (fraction ++ power))

def goesOn (digit : UInt8 → Bool) (byte : UInt8) : Bool := digit byte || byte = underscore

theorem Digits.goesOn {digit : UInt8 → Bool} {bytes : List UInt8} (digits : Digits digit bytes) :
    ∀ byte, byte ∈ bytes → goesOn digit byte = true := by
  intro byte member
  cases bytes with
  | nil => cases member
  | cons first rest =>
      unfold Builtin.goesOn
      rcases List.mem_cons.mp member with rfl | later
      · rw [digits.1, Bool.true_or]
      · rcases digits.2 byte later with digit | separates
        · rw [digit, Bool.true_or]
        · rw [decide_eq_true separates, Bool.or_true]

theorem exists_digits {digit : UInt8 → Bool} {first : UInt8} (rest : List UInt8)
    (begins : digit first = true) : ∃ run left, first :: rest = run ++ left ∧ Digits digit run ∧
      Stops (goesOn digit) left := by
  refine ⟨first :: rest.takeWhile (goesOn digit), rest.dropWhile (goesOn digit), ?_, ⟨begins, ?_⟩,
    stops_dropWhile _ _⟩
  · rw [List.cons_append, List.takeWhile_append_dropWhile]
  · intro byte member
    have within : goesOn digit byte = true := List.all_eq_true.mp List.all_takeWhile byte member
    unfold goesOn at within
    simpa using within

theorem not_sign_of_isDecimal {byte : UInt8} (digit : isDecimal byte = true) : byte ≠ 43 ∧ byte ≠ 45 := by
  constructor <;> rintro rfl <;> cases digit

structure AtExponent (letter : UInt8) (sign : List UInt8) (first : UInt8) : Prop where
  letter : letter = 101 ∨ letter = 69
  sign : sign = [] ∨ sign = [43] ∨ sign = [45]
  digit : isDecimal first = true

theorem AtExponent.unique {letter first other next : UInt8} {sign mark rest tail : List UInt8}
    (left : AtExponent letter sign first) (right : AtExponent other mark next)
    (begins : other :: (mark ++ next :: rest) <+: letter :: (sign ++ first :: tail)) :
    mark = sign ∧ rest <+: tail := by
  have later := (List.cons_prefix_cons.mp begins).2
  have unsigned := not_sign_of_isDecimal left.digit
  have unmarked := not_sign_of_isDecimal right.digit
  rcases left.sign with rfl | rfl | rfl <;> rcases right.sign with rfl | rfl | rfl <;>
    simp only [List.nil_append, List.cons_append, List.cons_prefix_cons] at later
  · exact ⟨rfl, later.2⟩
  · exact absurd later.1.symm unsigned.1
  · exact absurd later.1.symm unsigned.2
  · exact absurd later.1 unmarked.1
  · exact ⟨rfl, later.2.2⟩
  · exact absurd later.1 (by decide)
  · exact absurd later.1 unmarked.2
  · exact absurd later.1 (by decide)
  · exact ⟨rfl, later.2.2⟩

theorem exponent_takes_nothing {bytes : List UInt8}
    (none : ∀ letter sign first tail, AtExponent letter sign first →
      bytes ≠ letter :: (sign ++ first :: tail)) : exponent.Takes [] bytes () := by
  unfold exponent
  refine .look (.nth 1 _) (.look (.nth 0 _) ?_)
  dsimp only [List.nil_append]
  by_cases begins : (bytes[0]?.getD 0 = 101 || bytes[0]?.getD 0 = 69) = true
  · rw [if_pos begins]
    refine .look (.nth _ _) ?_
    dsimp only [List.nil_append]
    by_cases digit : isDecimal (bytes[1 +
        if (bytes[1]?.getD 0 = 43 || bytes[1]?.getD 0 = 45) = true then 1 else 0]?.getD 0) = true
    · exfalso
      match bytes with
      | [] => cases begins
      | [_letter] => cases digit
      | letter :: mark :: rest =>
          have known : letter = 101 ∨ letter = 69 := by simpa using begins
          by_cases signed : mark = 43 ∨ mark = 45
          · have width : (if (mark = 43 || mark = 45) = true then 1 else 0) = 1 :=
              if_pos (by simpa using signed)
            change isDecimal ((letter :: mark :: rest)[1 +
              if (mark = 43 || mark = 45) = true then 1 else 0]?.getD 0) = true at digit
            rw [width] at digit
            cases rest with
            | nil => cases digit
            | cons first tail =>
                refine none letter [mark] first tail ⟨known, .inr ?_, digit⟩ rfl
                exact signed.imp (congrArg (fun byte => [byte])) (congrArg (fun byte => [byte]))
          · have width : (if (mark = 43 || mark = 45) = true then 1 else 0) = 0 :=
              if_neg (by simpa using signed)
            change isDecimal ((letter :: mark :: rest)[1 +
              if (mark = 43 || mark = 45) = true then 1 else 0]?.getD 0) = true at digit
            rw [width] at digit
            exact none letter [] mark rest ⟨known, .inl rfl, digit⟩ rfl
    · rw [if_neg digit]
      exact .pure _ _
  · rw [if_neg begins]
    exact .pure _ _

theorem exponent_takes {letter first : UInt8} {sign run left : List UInt8}
    (begins : AtExponent letter sign first) (digits : ∀ byte, byte ∈ run → isDecimal byte = true)
    (stops : Stops isDecimal left) :
    exponent.Takes (letter :: sign ++ first :: run) left () := by
  have passed : ((Scan.advanceBy (letter :: sign).length >>= fun _ => Scan.advanceWhile isDecimal) :
      Scan Unit).Takes (letter :: sign ++ first :: run) left () := by
    refine .bind (.advanceBy _ _) (.advanceWhile stops ?_)
    exact fun byte member => (List.mem_cons.mp member).elim (fun same => same ▸ begins.digit) (digits byte)
  have known : (letter = 101 || letter = 69) = true := by simpa using begins.letter
  obtain ⟨bytes, ahead⟩ : ∃ bytes, letter :: sign ++ first :: run ++ left = bytes := ⟨_, rfl⟩
  have width : (if (bytes[1]?.getD 0 = 43 || bytes[1]?.getD 0 = 45) = true then 1 else 0) = sign.length := by
    rw [← ahead]
    rcases begins.sign with rfl | rfl | rfl
    · exact if_neg (by simpa using not_sign_of_isDecimal begins.digit)
    · rfl
    · rfl
  have digit : bytes[1 + sign.length]?.getD 0 = first := by
    rw [← ahead, Nat.add_comm, List.append_assoc]
    change ((letter :: sign) ++ _)[(letter :: sign).length]?.getD 0 = first
    rw [List.getElem?_append_right (Nat.le_refl _), Nat.sub_self]
    rfl
  unfold exponent
  refine .look (.nth 1 _) (.look (.nth 0 _) ?_)
  rw [ahead]
  rw [if_pos (by rw [← ahead]; exact known), width]
  refine .look (.nth _ _) ?_
  rw [ahead, digit, if_pos begins.digit, Nat.add_comm]
  exact passed

theorem exists_exponent (bytes : List UInt8) : ∃ power left, bytes = power ++ left ∧
    exponent.Takes power left () ∧ LongestPrefix ExponentText bytes power := by
  by_cases ahead : ∃ letter sign first tail, AtExponent letter sign first ∧
      bytes = letter :: (sign ++ first :: tail)
  · obtain ⟨letter, sign, first, tail, begins, rfl⟩ := ahead
    have digits : ∀ byte, byte ∈ tail.takeWhile isDecimal → isDecimal byte = true :=
      List.all_eq_true.mp List.all_takeWhile
    have stops := stops_dropWhile isDecimal tail
    have parts : tail.takeWhile isDecimal ++ tail.dropWhile isDecimal = tail :=
      List.takeWhile_append_dropWhile
    have whole : letter :: (sign ++ first :: tail) =
        letter :: sign ++ first :: tail.takeWhile isDecimal ++ tail.dropWhile isDecimal := by
      simp [parts]
    refine ⟨letter :: sign ++ first :: tail.takeWhile isDecimal, tail.dropWhile isDecimal, whole,
      exponent_takes begins digits stops, ⟨⟨_, whole.symm⟩, ?_, ?_⟩⟩
    · exact .some begins.letter begins.sign begins.digit digits
    · intro other prefixed spelled
      cases spelled with
      | none => exact Nat.zero_le _
      | @some mark next sign' rest known signed digit numerals =>
          obtain ⟨rfl, within⟩ := begins.unique ⟨known, signed, digit⟩ prefixed
          have bounded := length_le_of_run stops numerals (by rw [parts]; exact within)
          simp only [List.length_cons, List.length_append]
          omega
  · have none : ∀ letter sign first tail, AtExponent letter sign first →
        bytes ≠ letter :: (sign ++ first :: tail) :=
      fun letter sign first tail begins same => ahead ⟨letter, sign, first, tail, begins, same⟩
    refine ⟨[], bytes, rfl, exponent_takes_nothing none, ⟨List.nil_prefix, .none, ?_⟩⟩
    intro other prefixed spelled
    cases spelled with
    | none => exact Nat.le_refl _
    | @some mark next sign rest known signed digit numerals =>
        obtain ⟨more, same⟩ := prefixed
        refine absurd same.symm ?_
        rw [List.cons_append, List.append_assoc, List.cons_append]
        exact none mark sign next (rest ++ more) ⟨known, signed, digit⟩

/-! ### Radixes -/

def AtRadix (bytes : List UInt8) (letter : UInt8) (digit : UInt8 → Bool) : Prop :=
  radixDigits? letter = some digit ∧ ∃ first rest, digit first = true ∧ bytes = 48 :: letter :: first :: rest

theorem radixAhead?_takes {bytes : List UInt8} {letter : UInt8} {digit : UInt8 → Bool}
    (radix : AtRadix bytes letter digit) : radixAhead?.Takes [] bytes (some digit) := by
  obtain ⟨known, first, rest, isDigit, rfl⟩ := radix
  have zero : ([] ++ 48 :: letter :: first :: rest)[0]?.getD 0 = 48 := rfl
  have second : ([] ++ 48 :: letter :: first :: rest)[1]?.getD 0 = letter := rfl
  have third : ([] ++ 48 :: letter :: first :: rest)[2]?.getD 0 = first := rfl
  unfold radixAhead?
  refine .look (.nth 0 _) ?_
  rw [if_pos zero]
  refine .look (.nth 1 _) ?_
  rw [second, known]
  refine .look (.nth 2 _) ?_
  rw [third, if_pos isDigit]
  exact .pure _ _

/-- A zero byte, which stands for the end of the text, is a digit in no radix. -/
theorem radixDigits?_zero {letter : UInt8} {digit : UInt8 → Bool} (known : radixDigits? letter = some digit) :
    digit 0 = false := by
  unfold radixDigits? at known
  split at known
  · cases known
    rfl
  · split at known
    · cases known
      rfl
    · split at known
      · cases known
        rfl
      · cases known

theorem radixAhead?_takes_none {bytes : List UInt8} (none : ∀ letter digit, ¬ AtRadix bytes letter digit) :
    radixAhead?.Takes [] bytes .none := by
  unfold radixAhead?
  refine .look (.nth 0 _) ?_
  dsimp only [List.nil_append]
  by_cases zero : bytes[0]?.getD 0 = 48
  · rw [if_pos zero]
    refine .look (.nth 1 _) ?_
    dsimp only [List.nil_append]
    cases known : radixDigits? (bytes[1]?.getD 0) with
    | none => exact .pure _ _
    | some digit =>
        refine .look (.nth 2 _) ?_
        dsimp only [List.nil_append]
        have rejected : digit (bytes[2]?.getD 0) = false := by
          match bytes with
          | [] => exact radixDigits?_zero known
          | [_] => exact radixDigits?_zero known
          | [_, _] => exact radixDigits?_zero known
          | first :: letter :: byte :: rest =>
              obtain rfl : first = 48 := zero
              exact Bool.eq_false_iff.mpr fun isDigit => none letter digit ⟨known, byte, rest, isDigit, rfl⟩
        rw [rejected]
        exact .pure _ _
  · rw [if_neg zero]
    exact .pure _ _

/-! ### Numbers -/

/-- The spellings of numbers. -/
def NumberText (bytes : List UInt8) : Prop := IntegerText bytes ∨ FloatText bytes

theorem IntegerText.decimal_or_radix {bytes : List UInt8} (integer : IntegerText bytes) :
    Digits isDecimal bytes ∨ ∃ letter digit digits, radixDigits? letter = some digit ∧
      Digits digit digits ∧ bytes = 48 :: letter :: digits := by
  cases integer with
  | hexadecimal digits => exact .inr ⟨120, isHexadecimal, _, rfl, digits, rfl⟩
  | binary digits => exact .inr ⟨98, isBinary, _, rfl, digits, rfl⟩
  | octal digits => exact .inr ⟨111, isOctal, _, rfl, digits, rfl⟩
  | decimal digits => exact .inl digits

theorem integerText_of_radix {letter : UInt8} {digit : UInt8 → Bool} {digits : List UInt8}
    (known : radixDigits? letter = some digit) (spelled : Digits digit digits) :
    IntegerText (48 :: letter :: digits) := by
  unfold radixDigits? at known
  split at known
  · rename_i letter
    cases known
    exact letter ▸ .hexadecimal spelled
  · split at known
    · rename_i letter
      cases known
      exact letter ▸ .binary spelled
    · split at known
      · rename_i letter
        cases known
        exact letter ▸ .octal spelled
      · cases known

theorem not_goesOn_of_radix {letter : UInt8} {digit : UInt8 → Bool} (known : radixDigits? letter = some digit) :
    goesOn isDecimal letter = false ∧ letter ≠ 46 ∧ goesOn digit 46 = false := by
  unfold radixDigits? at known
  split at known
  · rename_i letter
    cases known
    subst letter
    decide
  · split at known
    · rename_i letter
      cases known
      subst letter
      decide
    · split at known
      · rename_i letter
        cases known
        subst letter
        decide
      · cases known

theorem not_goesOn_point : goesOn isDecimal 46 = false := by decide

theorem radix_longest {letter : UInt8} {digit : UInt8 → Bool} {run left : List UInt8}
    (known : radixDigits? letter = some digit) (spelled : Digits digit run) (stops : Stops (goesOn digit) left) :
    LongestPrefix NumberText (48 :: letter :: run ++ left) (48 :: letter :: run) := by
  have foreign := not_goesOn_of_radix known
  have zero : ∀ byte, byte ∈ [(48 : UInt8)] → goesOn isDecimal byte = true :=
    List.forall_mem_singleton.mpr (by decide)
  have breaks : Stops (goesOn isDecimal) (letter :: run ++ left) := by
    rintro byte ⟨⟩
    exact foreign.1
  refine ⟨List.prefix_append _ _, .inl (integerText_of_radix known spelled), ?_⟩
  intro other prefixed number
  rcases number with integer | float
  · rcases integer.decimal_or_radix with decimal | ⟨otherLetter, otherDigit, digits, same, digitsSpelled, rfl⟩
    · have short : other.length ≤ [(48 : UInt8)].length := length_le_of_run breaks decimal.goesOn prefixed
      exact Nat.le_trans short (Nat.succ_le_succ (Nat.zero_le _))
    · obtain ⟨_, later⟩ := List.cons_prefix_cons.mp prefixed
      obtain ⟨rfl, within⟩ := List.cons_prefix_cons.mp later
      cases Option.some.inj (same.symm.trans known)
      exact Nat.succ_le_succ (Nat.succ_le_succ (length_le_of_run stops digitsSpelled.goesOn within))
  · cases float with
    | mk whole fraction power =>
        obtain ⟨_, point⟩ := run_of_run zero breaks whole.goesOn not_goesOn_point prefixed
        exact absurd (List.cons_prefix_cons.mp point).1.symm foreign.2.1

theorem integer_length_le {run left other : List UInt8} (stops : Stops (goesOn isDecimal) left)
    (none : ∀ letter digit, ¬ AtRadix (run ++ left) letter digit) (prefixed : other <+: run ++ left)
    (integer : IntegerText other) : other.length ≤ run.length := by
  rcases integer.decimal_or_radix with decimal | ⟨letter, digit, digits, known, spelled, rfl⟩
  · exact length_le_of_run stops decimal.goesOn prefixed
  · obtain ⟨more, same⟩ := prefixed
    cases digits with
    | nil => cases spelled
    | cons first rest => exact absurd ⟨known, first, rest ++ more, spelled.1, same.symm⟩ (none letter digit)

theorem decimal_longest {run left : List UInt8} (spelled : Digits isDecimal run)
    (stops : Stops (goesOn isDecimal) left) (none : ∀ letter digit, ¬ AtRadix (run ++ left) letter digit)
    (whole : ∀ digit rest, isDecimal digit = true → left ≠ 46 :: digit :: rest) :
    LongestPrefix NumberText (run ++ left) run := by
  refine ⟨List.prefix_append _ _, .inl (.decimal spelled), fun other prefixed number => ?_⟩
  rcases number with integer | float
  · exact integer_length_le stops none prefixed integer
  · cases float with
    | @mk before fraction power digits fractional =>
        obtain ⟨_, more, same⟩ := run_of_run spelled.goesOn stops digits.goesOn not_goesOn_point prefixed
        cases fraction with
        | nil => cases fractional
        | cons digit others => exact absurd same.symm (whole digit (others ++ power ++ more) fractional.1)

theorem float_longest {run fraction power left : List UInt8} (spelled : Digits isDecimal run)
    (fractional : Digits isDecimal fraction) (stops : Stops (goesOn isDecimal) (power ++ left))
    (none : ∀ letter digit, ¬ AtRadix (run ++ 46 :: (fraction ++ (power ++ left))) letter digit)
    (exponent : LongestPrefix ExponentText (power ++ left) power) :
    LongestPrefix NumberText (run ++ 46 :: (fraction ++ (power ++ left)))
      (run ++ 46 :: (fraction ++ power)) := by
  have point : Stops (goesOn isDecimal) (46 :: (fraction ++ (power ++ left))) := by
    rintro byte ⟨⟩
    exact not_goesOn_point
  refine ⟨⟨left, by simp⟩, .inr (.mk spelled fractional exponent.accepted), fun other prefixed number => ?_⟩
  rcases number with integer | float
  · have short := integer_length_le point none prefixed integer
    rw [List.length_append]
    exact Nat.le_trans short (Nat.le_add_right _ _)
  · cases float with
    | @mk before digits tail beforeSpelled digitsSpelled tailSpelled =>
        obtain ⟨rfl, later⟩ :=
          run_of_run spelled.goesOn point beforeSpelled.goesOn not_goesOn_point prefixed
        have behind := (List.cons_prefix_cons.mp later).2
        have bounded : digits.length + tail.length ≤ fraction.length + power.length := by
          cases tailSpelled with
          | none =>
              rw [List.append_nil] at behind
              have short := length_le_of_run stops digitsSpelled.goesOn behind
              exact Nat.le_trans short (Nat.le_add_right _ _)
          | @some letter first sign rest known signed digit numerals =>
              have outside : goesOn isDecimal letter = false := by
                rcases known with rfl | rfl <;> decide
              obtain ⟨rfl, within⟩ := run_of_run fractional.goesOn stops digitsSpelled.goesOn outside behind
              exact Nat.add_le_add_left
                (exponent.longest _ within (.some known signed digit numerals)) _
        simp only [List.length_append, List.length_cons]
        omega

theorem decimals_takes {run left : List UInt8} (spelled : Digits isDecimal run)
    (stops : Stops (goesOn isDecimal) left) : decimals.Takes run left () :=
  .advanceWhile stops spelled.goesOn

theorem number_takes_radix {letter : UInt8} {digit : UInt8 → Bool} {run left : List UInt8}
    (known : radixDigits? letter = some digit) (spelled : Digits digit run) (stops : Stops (goesOn digit) left) :
    number.Takes (48 :: letter :: run) left 1 := by
  have looked : radixAhead?.Takes [] (48 :: letter :: run ++ left) (some digit) := by
    cases run with
    | nil => cases spelled
    | cons first rest => exact radixAhead?_takes ⟨known, first, rest ++ left, spelled.1, rfl⟩
  unfold number
  refine .look looked ?_
  change Scan.Takes _ ([48, letter] ++ run) left 1
  refine .bind (.advanceBy [48, letter] _) ?_
  rw [← List.append_nil run]
  exact .bind (.advanceWhile stops spelled.goesOn) (.pure left 1)

theorem number_takes_decimal {run left : List UInt8} (spelled : Digits isDecimal run)
    (stops : Stops (goesOn isDecimal) left) (none : ∀ letter digit, ¬ AtRadix (run ++ left) letter digit)
    (whole : ∀ digit rest, isDecimal digit = true → left ≠ 46 :: digit :: rest) :
    number.Takes run left 1 := by
  unfold number
  refine .look (radixAhead?_takes_none none) ?_
  rw [← List.append_nil run]
  refine .bind (decimals_takes spelled stops) (.look (.isNext 46 _) ?_)
  dsimp only [List.nil_append]
  by_cases point : (left.head? == some 46) = true
  · rw [if_pos point]
    refine .look (.nth 1 _) ?_
    have rejected : isDecimal (left[1]?.getD 0) = false := by
      match left with
      | [] => rfl
      | [_] => rfl
      | byte :: digit :: rest =>
          obtain rfl : byte = 46 := by simpa using point
          exact Bool.eq_false_iff.mpr fun isDigit => whole digit rest isDigit rfl
    dsimp only [List.nil_append]
    rw [if_neg (by rw [rejected]; exact Bool.false_ne_true)]
    exact .pure left 1
  · rw [if_neg point]
    exact .pure left 1

theorem number_takes_float {run fraction power left : List UInt8} (spelled : Digits isDecimal run)
    (fractional : Digits isDecimal fraction) (stops : Stops (goesOn isDecimal) (power ++ left))
    (none : ∀ letter digit, ¬ AtRadix (run ++ 46 :: (fraction ++ (power ++ left))) letter digit)
    (taken : exponent.Takes power left ()) :
    number.Takes (run ++ 46 :: (fraction ++ power)) left 2 := by
  have point : Stops (goesOn isDecimal) (46 :: (fraction ++ (power ++ left))) := by
    rintro byte ⟨⟩
    exact not_goesOn_point
  have looked : radixAhead?.Takes [] (run ++ 46 :: (fraction ++ power) ++ left) .none := by
    simpa using radixAhead?_takes_none none
  have isDigit : isDecimal ((46 :: (fraction ++ (power ++ left)))[1]?.getD 0) = true := by
    cases fraction with
    | nil => cases fractional
    | cons first rest => exact fractional.1
  unfold number
  refine .look looked (.bind (decimals_takes spelled (by simpa using point)) (.look (.isNext 46 _) ?_))
  rw [if_pos (by rfl)]
  refine .look (.nth 1 _) ?_
  rw [List.cons_append, List.append_assoc, if_pos isDigit]
  change Scan.Takes _ ([46] ++ (fraction ++ power)) left 2
  refine .bind (.advanceBy [46] _) (.bind (decimals_takes fractional stops) ?_)
  rw [← List.append_nil power]
  exact .bind taken (.pure left 2)

theorem number_takes {first : UInt8} (rest : List UInt8) (digit : isDecimal first = true) :
    ∃ found left index, first :: rest = found ++ left ∧ number.Takes found left index ∧
      LongestPrefix NumberText (first :: rest) found ∧
      ((index = 1 ∧ IntegerText found) ∨ (index = 2 ∧ FloatText found)) := by
  by_cases radix : ∃ letter digit, AtRadix (first :: rest) letter digit
  · obtain ⟨letter, digit, known, mark, others, isDigit, same⟩ := radix
    obtain ⟨run, left, parts, spelled, stops⟩ := exists_digits others isDigit
    have whole : first :: rest = 48 :: letter :: run ++ left := by
      rw [same, parts]
      rfl
    rw [whole]
    exact ⟨48 :: letter :: run, left, 1, rfl, number_takes_radix known spelled stops,
      radix_longest known spelled stops, .inl ⟨rfl, integerText_of_radix known spelled⟩⟩
  · have none : ∀ letter digit, ¬ AtRadix (first :: rest) letter digit :=
      fun letter digit ahead => radix ⟨letter, digit, ahead⟩
    obtain ⟨run, behind, parts, spelled, stops⟩ := exists_digits rest digit
    rw [parts] at none ⊢
    by_cases fraction : ∃ next others, isDecimal next = true ∧ behind = 46 :: next :: others
    · obtain ⟨next, others, isDigit, rfl⟩ := fraction
      obtain ⟨digits, following, split, fractional, ends⟩ := exists_digits others isDigit
      obtain ⟨power, left, rfl, taken, longest⟩ := exists_exponent following
      rw [split] at none ⊢
      exact ⟨run ++ 46 :: (digits ++ power), left, 2, by simp,
        number_takes_float spelled fractional ends none taken,
        float_longest spelled fractional ends none longest,
        .inr ⟨rfl, .mk spelled fractional longest.accepted⟩⟩
    · have whole : ∀ next others, isDecimal next = true → behind ≠ 46 :: next :: others :=
        fun next others isDigit same => fraction ⟨next, others, isDigit, same⟩
      exact ⟨run, behind, 1, rfl, number_takes_decimal spelled stops none whole,
        decimal_longest spelled stops none whole, .inl ⟨rfl, .decimal spelled⟩⟩

theorem not_floatText_of_integerText {bytes : List UInt8} (integer : IntegerText bytes) : ¬ FloatText bytes := by
  intro float
  have point : 46 ∈ bytes := by
    cases float with
    | mk _ _ _ => exact List.mem_append_right _ List.mem_cons_self
  rcases integer.decimal_or_radix with decimal | ⟨letter, digit, digits, known, spelled, rfl⟩
  · have within := decimal.goesOn 46 point
    rw [not_goesOn_point] at within
    cases within
  · obtain ⟨_, other, foreign⟩ := not_goesOn_of_radix known
    rcases List.mem_cons.mp point with impossible | later
    · cases impossible
    · rcases List.mem_cons.mp later with same | among
      · exact other same.symm
      · have within := spelled.goesOn 46 among
        rw [foreign] at within
        cases within

theorem not_isNameStart_of_isDecimal {byte : UInt8} (digit : isDecimal byte = true) :
    isNameStart byte = false := by
  unfold isDecimal at digit
  unfold isNameStart isLetter underscore
  simp only [Bool.and_eq_true, decide_eq_true_eq, UInt8.le_iff_toNat_le, Bool.or_eq_false_iff,
    Bool.and_eq_false_iff, decide_eq_false_iff_not, ← UInt8.toNat_inj] at digit ⊢
  have bounds : 48 ≤ byte.toNat ∧ byte.toNat ≤ 57 := digit
  refine ⟨⟨.inl ?_, .inl ?_⟩, ?_⟩
  · change ¬ 97 ≤ byte.toNat
    omega
  · change ¬ 65 ≤ byte.toNat
    omega
  · change ¬ byte.toNat = 95
    omega

theorem scanToken_takes {first : UInt8} {rest found left : List UInt8} {index : Nat}
    (digit : isDecimal first = true) (parts : first :: rest = found ++ left)
    (taken : number.Takes found left index) : scanToken.Takes found left (some index) := by
  unfold scanToken
  refine .look (.isEof _) ?_
  rw [← parts, if_neg (by exact Bool.false_ne_true)]
  refine .look (.nth 0 _) ?_
  rw [← parts]
  change Scan.Takes (if isNameStart first = true then _ else if isDecimal first = true then _ else _) _ _ _
  rw [if_neg (by rw [not_isNameStart_of_isDecimal digit]; exact Bool.false_ne_true), if_pos digit,
    ← List.append_nil found]
  exact .bind taken (.pure left (some index))

/-- On a digit the scanner passes over the longest prefix of the text that spells a number, and
answers with the token of integers or with that of floats, whichever it spells. -/
theorem scan_longest_number (cursor : Cursor) {first : UInt8} {rest : List UInt8}
    (ahead : cursor.remaining = first :: rest) (digit : isDecimal first = true) :
    ∃ found, LongestPrefix NumberText cursor.remaining found ∧
      (scanner.scan cursor).2.text = cursor.text ∧
      (scanner.scan cursor).2.position = cursor.position + found.length ∧
      ((scanner.scan cursor).1 = some 1 ↔ IntegerText found) ∧
      ((scanner.scan cursor).1 = some 2 ↔ FloatText found) := by
  obtain ⟨found, left, index, parts, taken, longest, kind⟩ := number_takes rest digit
  obtain ⟨answered, text, position⟩ := scanToken_takes digit parts taken cursor (ahead.trans parts)
  have answer : (scanner.scan cursor).1 = some index := answered
  rw [← ahead] at longest
  refine ⟨found, longest, text, position, ?_⟩
  rcases kind with ⟨rfl, integer⟩ | ⟨rfl, float⟩
  · rw [answer]
    exact ⟨iff_of_true rfl integer, iff_of_false (by decide) (not_floatText_of_integerText integer)⟩
  · rw [answer]
    exact ⟨iff_of_false (by decide) fun integer => not_floatText_of_integerText integer float,
      iff_of_true rfl float⟩

theorem scan_longest_number_range :
    (Cursor.start #[49, 46, 53, 101, 43, 55, 46, 46, 57] 0).remaining =
      49 :: [46, 53, 101, 43, 55, 46, 46, 57] ∧ isDecimal 49 = true ∧
    LongestPrefix NumberText [49, 46, 53, 101, 43, 55, 46, 46, 57] [49, 46, 53, 101, 43, 55] ∧
    FloatText [49, 46, 53, 101, 43, 55] := by
  obtain ⟨found, longest, _text, position, _integer, float⟩ :=
    scan_longest_number (Cursor.start #[49, 46, 53, 101, 43, 55, 46, 46, 57] 0) rfl rfl
  have reached : (scanner.scan (Cursor.start #[49, 46, 53, 101, 43, 55, 46, 46, 57] 0)).2.position = 6 := by
    decide +kernel
  have answered : (scanner.scan (Cursor.start #[49, 46, 53, 101, 43, 55, 46, 46, 57] 0)).1 = some 2 := by
    decide +kernel
  have length : found.length = 6 := (Nat.zero_add _).symm.trans (position.symm.trans reached)
  have same : found = [49, 46, 53, 101, 43, 55] := by
    have taken := List.prefix_iff_eq_take.mp longest.begins
    rw [length] at taken
    exact taken
  subst found
  exact ⟨rfl, rfl, longest, float.mp answered⟩

end Builtin

end IncrementalParsing
