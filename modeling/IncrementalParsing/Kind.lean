import IncrementalParsing.Fault

/-!
Numbered names. Grammar symbols, fields, automaton states and lexing modes are 16 bit indices into
the tables of one language; each has a type of its own so that they cannot be mixed up. The kind
table gives the symbols of a language their names and properties.
-/

namespace IncrementalParsing

/-- Index of a grammar symbol. Terminals come first and nonterminals follow; the first two indices
are reserved for the end of the input and for errors. -/
structure KindId where
  raw : UInt16
deriving DecidableEq, Hashable, Repr

namespace KindId

def index (kind : KindId) : Nat := kind.raw.toNat

def ofIndex (index : Nat) : KindId := ⟨index.toUInt16⟩

def endOfInput : KindId := ⟨0⟩

/-- Unrecognised input, as a token, and whatever recovery gave up on, as a node. -/
def error : KindId := ⟨1⟩

theorem index_ofIndex {index : Nat} (small : index < 65536) : (ofIndex index).index = index := by
  simpa [KindId.index, ofIndex] using small

theorem ofIndex_index (kind : KindId) : ofIndex kind.index = kind := by
  cases kind with | mk raw => simp [KindId.index, ofIndex]

theorem index_lt (kind : KindId) : kind.index < 65536 := kind.raw.toNat_lt

end KindId

structure FieldId where
  raw : UInt16
deriving DecidableEq, Hashable, Repr

namespace FieldId

def index (field : FieldId) : Nat := field.raw.toNat

def ofIndex (index : Nat) : FieldId := ⟨index.toUInt16⟩

end FieldId

structure StateId where
  raw : UInt16
deriving DecidableEq, Hashable, Repr

namespace StateId

def index (state : StateId) : Nat := state.raw.toNat

def ofIndex (index : Nat) : StateId := ⟨index.toUInt16⟩

def start : StateId := ⟨0⟩

end StateId

/-- Names a set of terminals that the lexer may answer with. -/
structure LexMode where
  raw : UInt16
deriving DecidableEq, Hashable, Repr

namespace LexMode

def index (mode : LexMode) : Nat := mode.raw.toNat

def ofIndex (index : Nat) : LexMode := ⟨index.toUInt16⟩

/-- The mode of error recovery: every terminal but the immediate ones. -/
def error : LexMode := ⟨0⟩

end LexMode

/-- What is known about a grammar symbol. -/
structure KindInfo where
  name : String
  /-- Named kinds come from the names of rules and tokens, the others from literal texts. -/
  named : Bool
  visible : Bool
  terminal : Bool
deriving DecidableEq, Repr

/-- The symbols of a language and its field names, in the order of their numbers. -/
structure KindTable where
  kinds : Array KindInfo
  fields : Array String
deriving DecidableEq, Repr

namespace KindTable

def empty : KindTable := ⟨#[], #[]⟩

def size (table : KindTable) : Nat := table.kinds.size

def isEmpty (table : KindTable) : Bool := table.kinds.isEmpty

def push (table : KindTable) (info : KindInfo) : KindTable × KindId :=
  ({ table with kinds := table.kinds.push info }, .ofIndex table.kinds.size)

/-- The number of a field name, which is appended when the table does not have it yet. The count of
fields after an insertion has to fit 16 bits. -/
def pushField (table : KindTable) (name : String) : Except Fault (KindTable × FieldId) :=
  match table.fields.findIdx? (· == name) with
  | some index => .ok (table, .ofIndex index)
  | none =>
      if (table.fields.size + 1) % 65536 = 0 then
        .error .arithmeticOverflow
      else
        .ok ({ table with fields := table.fields.push name }, .ofIndex table.fields.size)

def info (table : KindTable) (kind : KindId) : Except Fault KindInfo :=
  requireAt table.kinds kind.index

def name (table : KindTable) (kind : KindId) : String :=
  match table.kinds[kind.index]? with
  | some info => info.name
  | none => "<unknown>"

/-- Looks a name up: the first named kind of that name, or else the last anonymous one. -/
def kindId? (table : KindTable) (name : String) : Option KindId :=
  match table.kinds.findIdx? (fun info => info.named && info.name == name) with
  | some index => some (.ofIndex index)
  | none =>
      (table.kinds.reverse.findIdx? (fun info => info.name == name)).map
        (fun distance => .ofIndex (table.kinds.size - 1 - distance))

def fieldName (table : KindTable) (field : FieldId) : Except Fault String :=
  requireAt table.fields field.index

def fieldId? (table : KindTable) (name : String) : Option FieldId :=
  (table.fields.findIdx? (· == name)).map .ofIndex

def fieldCount (table : KindTable) : Nat := table.fields.size

def toList (table : KindTable) : List (KindId × KindInfo) :=
  table.kinds.toList.zipIdx.map (fun entry => (.ofIndex entry.2, entry.1))

@[simp] theorem size_push (table : KindTable) (info : KindInfo) :
    (table.push info).1.size = table.size + 1 := by
  simp [push, size]

@[simp] theorem fields_push (table : KindTable) (info : KindInfo) :
    (table.push info).1.fields = table.fields := rfl

end KindTable

end IncrementalParsing
