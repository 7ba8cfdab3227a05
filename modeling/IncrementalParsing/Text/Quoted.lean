/-!
Quoted text. A quoted text stands between double quotes; quotes and backslashes in it are escaped by
a backslash, a few control characters have a letter each, and the other ones are written by their
hexadecimal codes in braces. So is any character outside ASCII that would not be seen on paper. Which
ones these are is for the version of Unicode to say, and they are given by a class of characters.
-/

namespace IncrementalParsing.Quoted

/-- Characters outside ASCII that are not seen, as inclusive ranges: controls, blanks other than the space,
characters that only guide the layout, combining marks of the common scripts, variation selectors and
private use. A version of Unicode has more of them, in scripts that are not listed and in codes that are
not assigned. -/
def commonRanges : List (Nat × Nat) :=
  [(0x80, 0xA0), (0xAD, 0xAD), (0x300, 0x36F), (0x483, 0x489), (0x591, 0x5BD), (0x5BF, 0x5BF),
    (0x5C1, 0x5C2), (0x5C4, 0x5C5), (0x5C7, 0x5C7), (0x600, 0x605), (0x610, 0x61A), (0x61C, 0x61C),
    (0x64B, 0x65F), (0x670, 0x670), (0x6D6, 0x6DD), (0x6DF, 0x6E4), (0x6E7, 0x6E8), (0x6EA, 0x6ED),
    (0x93C, 0x93C), (0x941, 0x948), (0x94D, 0x94D), (0xE31, 0xE31), (0xE34, 0xE3A), (0xE47, 0xE4E),
    (0x1680, 0x1680), (0x180B, 0x180F), (0x1AB0, 0x1ACE), (0x1DC0, 0x1DFF), (0x2000, 0x200F),
    (0x2028, 0x202F), (0x205F, 0x206F), (0x20D0, 0x20F0), (0x3000, 0x3000), (0x302A, 0x302F),
    (0x3099, 0x309A), (0xE000, 0xF8FF), (0xFE00, 0xFE0F), (0xFE20, 0xFE2F), (0xFEFF, 0xFEFF),
    (0xFFF0, 0xFFFB), (0xFFFE, 0xFFFF), (0xE0000, 0xE0FFF), (0xF0000, 0x10FFFF)]

def isCommonlyUnseen (char : Char) : Bool :=
  commonRanges.any fun range => range.1 ≤ char.toNat && char.toNat ≤ range.2

def escape (unseen : Char → Bool) (char : Char) : List Char :=
  if char = '"' then ['\\', '"']
  else if char = '\\' then ['\\', '\\']
  else if char = '\n' then ['\\', 'n']
  else if char = '\r' then ['\\', 'r']
  else if char = '\t' then ['\\', 't']
  else if char.toNat = 0 then ['\\', '0']
  else if char.toNat < 0x20 || char.toNat = 0x7F || 0x80 ≤ char.toNat && unseen char then
    ['\\', 'u', '\x7b'] ++ Nat.toDigits 16 char.toNat ++ ['\x7d']
  else [char]

def quote (unseen : Char → Bool) (text : String) : String :=
  String.ofList ('"' :: text.toList.flatMap (escape unseen) ++ ['"'])

end IncrementalParsing.Quoted
