/-!
Broken preconditions. Most operations of this library are total and answer with a value of their
own type. A few are only meaningful under a condition that their callers have to keep (an index in
range, an offset that fits 32 bits); asked outside it they answer with a fault, which names the kind
of condition and carries no text.
-/

namespace IncrementalParsing

/-- The kinds of precondition that a caller can break. -/
inductive Fault where
  | indexOutOfRange
  /-- A sum or a difference does not fit the width of its type. -/
  | arithmeticOverflow
  /-- A value does not have the shape that the operation is defined on. -/
  | malformedArgument
  /-- A run was cut off before it came to an end. -/
  | outOfFuel
deriving DecidableEq, Repr

/-- Offsets are 32 bits wide; this many of them exist. -/
def offsetLimit : Nat := 4294967296

/-- Sizes and places in memory are 64 bits wide; this many of them exist. -/
def sizeLimit : Nat := 18446744073709551616

/-- A sum of offsets, refused when it is not itself an offset. -/
def checkedOffset (value : Nat) : Except Fault Nat :=
  if value < offsetLimit then .ok value else .error .arithmeticOverflow

/-- The sum of a list of numbers. (`List.sum` looks for an instance of zero, and which one it finds
depends on what is imported.) -/
def sumOf (values : List Nat) : Nat := values.foldr (· + ·) 0

@[simp] theorem sumOf_nil : sumOf [] = 0 := rfl

@[simp] theorem sumOf_cons (value : Nat) (rest : List Nat) :
    sumOf (value :: rest) = value + sumOf rest := rfl

@[simp] theorem sumOf_append (left right : List Nat) :
    sumOf (left ++ right) = sumOf left + sumOf right := by
  induction left with
  | nil => simp
  | cons value rest ih => simp [ih, Nat.add_assoc]

@[simp] theorem sumOf_reverse (values : List Nat) : sumOf values.reverse = sumOf values := by
  induction values with
  | nil => rfl
  | cons value rest ih => simp [ih, Nat.add_comm]

def requireAt {α : Type} (items : Array α) (index : Nat) : Except Fault α :=
  match items[index]? with
  | some item => .ok item
  | none => .error .indexOutOfRange

/-- How an operation ends without an answer: it refuses its input for a reason of its own, or it was
asked outside its precondition. -/
inductive Failure (Reason : Type) where
  | refused (reason : Reason)
  | fault (fault : Fault)
deriving DecidableEq, Repr

instance {Reason : Type} : MonadLift (Except Fault) (Except (Failure Reason)) where
  monadLift
    | .ok value => .ok value
    | .error fault => .error (.fault fault)

/-- The same ending with another reason in place of the old one. -/
def Failure.map {Reason Other : Type} (convert : Reason → Other) : Failure Reason → Failure Other
  | .refused reason => .refused (convert reason)
  | .fault broken => .fault broken

def refuse {Reason α : Type} (reason : Reason) : Except (Failure Reason) α := .error (.refused reason)

theorem requireAt_of_lt {α : Type} (items : Array α) (index : Nat) (inRange : index < items.size) :
    requireAt items index = .ok items[index] := by
  simp [requireAt, inRange]

end IncrementalParsing
