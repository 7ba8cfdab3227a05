import IncrementalParsing.Kind

/-!
Sets of terminals in machine words. A word holds 64 kinds: the number of a kind divided by 64 names its
word, the remainder names the bit in it. Every operation works word by word. `TerminalSet` holds all the
words as one number.
-/

namespace IncrementalParsing

structure WordSet where
  words : Array UInt64
deriving DecidableEq, Repr

namespace WordSet

/-- The empty set with room for the kinds below `capacity`. -/
def withCapacity (capacity : Nat) : WordSet := ⟨Array.replicate ((capacity + 63) / 64) 0⟩

def single (place : Nat) : UInt64 := 1 <<< place.toUInt64

def wordOf (kind : KindId) : Nat := kind.index / 64

def maskOf (kind : KindId) : UInt64 := single (kind.index % 64)

def contains (set : WordSet) (kind : KindId) : Bool :=
  set.words[wordOf kind]?.any fun word => word &&& maskOf kind != 0

def add (set : WordSet) (kind : KindId) : WordSet :=
  ⟨set.words.modify (wordOf kind) (· ||| maskOf kind)⟩

/-- Adds a kind and answers whether it is new; the set is required to have a word for it. -/
def insert (set : WordSet) (kind : KindId) : Except Fault (WordSet × Bool) := do
  let word ← requireAt set.words (wordOf kind)
  return (set.add kind, word &&& maskOf kind == 0)

def remove (set : WordSet) (kind : KindId) : WordSet :=
  ⟨set.words.modify (wordOf kind) (· &&& ~~~maskOf kind)⟩

/-- Adds to each word the bits of its counterpart, and answers whether that has changed a word. A word
without a counterpart stays as it is. -/
def merge : List UInt64 → List UInt64 → List UInt64 × Bool
  | word :: rest, other :: others =>
      let merged := word ||| other
      let (tail, changed) := merge rest others
      (merged :: tail, merged != word || changed)
  | words, _ => (words, false)

/-- Adds the members of `other`, and answers whether a word of the set has changed. -/
def union (set other : WordSet) : WordSet × Bool :=
  let (words, changed) := merge set.words.toList other.words.toList
  (⟨words.toArray⟩, changed)

def intersects (set other : WordSet) : Bool :=
  (set.words.toList.zip other.words.toList).any fun (word, other) => word &&& other != 0

def isEmpty (set : WordSet) : Bool := set.words.all (· == 0)

def ones (word : UInt64) : Nat := (List.range 64).countP word.toBitVec.getLsbD

def size (set : WordSet) : Nat := sumOf (set.words.toList.map ones)

def kindsOf (word : UInt64) (before : Nat) : List KindId :=
  ((List.range 64).filter fun place => word &&& single place != 0).map
    fun place => .ofIndex (before * 64 + place)

def toList (set : WordSet) : List KindId :=
  set.words.toList.zipIdx.flatMap fun (word, before) => kindsOf word before

def ofList (kinds : List KindId) : WordSet :=
  kinds.foldl add (withCapacity (kinds.foldl (fun bound kind => max bound (kind.index + 1)) 0))

end WordSet

end IncrementalParsing
