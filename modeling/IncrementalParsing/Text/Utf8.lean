import IncrementalParsing.Fault

/-!
UTF-8. A character is one to four bytes; its first byte says how many follow and which values the
second one may have, and every later byte lies in `0x80`–`0xBF`. Reading a byte string always makes
progress: where no character begins, the longest piece that could still have become one is read as a
single replacement character.
-/

namespace IncrementalParsing.Utf8

/-- What a first byte announces: how many bytes follow it, and the range of the second byte. -/
structure Lead where
  following : Nat
  low : UInt8
  high : UInt8

/-- The meaning of a byte at the start of a character, if it can stand there. -/
def lead? (byte : UInt8) : Option Lead :=
  if byte < 0x80 then some ⟨0, 0x80, 0xBF⟩
  else if byte < 0xC2 then none
  else if byte < 0xE0 then some ⟨1, 0x80, 0xBF⟩
  else if byte = 0xE0 then some ⟨2, 0xA0, 0xBF⟩
  else if byte = 0xED then some ⟨2, 0x80, 0x9F⟩
  else if byte < 0xF0 then some ⟨2, 0x80, 0xBF⟩
  else if byte = 0xF0 then some ⟨3, 0x90, 0xBF⟩
  else if byte < 0xF4 then some ⟨3, 0x80, 0xBF⟩
  else if byte = 0xF4 then some ⟨3, 0x80, 0x8F⟩
  else none

def leadBits (following : Nat) (byte : UInt8) : Nat :=
  match following with
  | 0 => byte.toNat
  | 1 => byte.toNat % 32
  | 2 => byte.toNat % 16
  | _ => byte.toNat % 8

/-- Reads up to `needed` continuation bytes, the first of them between `low` and `high`. Answers the
accumulated code point, how many are still missing, and the rest. -/
def continuation (needed : Nat) (low high : UInt8) (value : Nat) :
    List UInt8 → Nat × Nat × List UInt8
  | [] => (value, needed, [])
  | byte :: rest =>
      match needed with
      | 0 => (value, 0, byte :: rest)
      | missing + 1 =>
          if low ≤ byte ∧ byte ≤ high then
            continuation missing 0x80 0xBF (value * 64 + byte.toNat % 64) rest
          else (value, missing + 1, byte :: rest)

theorem continuation_length (needed : Nat) (low high : UInt8) (value : Nat) (bytes : List UInt8) :
    (continuation needed low high value bytes).2.2.length ≤ bytes.length := by
  induction bytes generalizing needed low high value with
  | nil => simp [continuation]
  | cons byte rest ih =>
      unfold continuation
      cases needed with
      | zero => simp
      | succ missing =>
          simp only
          split
          · exact Nat.le_succ_of_le (ih ..)
          · simp

/-- The code points of a byte string, `none` for each piece that is no character. -/
def scalars : List UInt8 → List (Option Char)
  | [] => []
  | byte :: rest =>
      match lead? byte with
      | none => none :: scalars rest
      | some lead =>
          let piece := continuation lead.following lead.low lead.high
            (leadBits lead.following byte) rest
          (if piece.2.1 = 0 then some (Char.ofNat piece.1) else none) :: scalars piece.2.2
termination_by bytes => bytes.length
decreasing_by
  · exact Nat.lt_succ_self _
  · exact Nat.lt_succ_of_le (continuation_length ..)

def decode? (bytes : List UInt8) : Option String :=
  ((scalars bytes).mapM id).map String.ofList

/-- Decodes any bytes, with U+FFFD for each piece that is no character. -/
def decodeLossy (bytes : List UInt8) : String :=
  String.ofList ((scalars bytes).map (·.getD '\uFFFD'))

end IncrementalParsing.Utf8
