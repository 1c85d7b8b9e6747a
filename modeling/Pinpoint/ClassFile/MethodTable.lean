import Pinpoint.ClassFile.Record
import Pinpoint.Sorted

namespace Pinpoint

/-- A slot and the offset from which a variable lives in it. -/
structure LocalPlace where
  slot : UInt16
  start : UInt32
deriving DecidableEq

/-- By slot, then by start. -/
instance : Ord LocalPlace where
  compare a b := (compare a.slot b.slot).then (compare a.start b.start)

instance : Std.TransOrd LocalPlace :=
  inferInstanceAs (Std.TransCmp (compareLex (compareOn LocalPlace.slot) (compareOn LocalPlace.start)))

instance : Std.LawfulEqOrd LocalPlace where
  eq_of_compare {a b} horder := by
    obtain ⟨hslot, hstart⟩ := Ordering.then_eq_eq.1 horder
    cases a
    cases b
    rw [LocalPlace.mk.injEq]
    exact ⟨Std.compare_eq_iff_eq.1 hslot, Std.compare_eq_iff_eq.1 hstart⟩

/-- A listed local variable; the occurrence counts the earlier starts of its name. -/
structure ListedLocal where
  name : String
  slot : UInt16
  start : UInt32
  occurrence : Nat
deriving DecidableEq

/-- What is indexed of a method. -/
structure MethodTable where
  instructions : SortedMap Construct (SortedSet UInt32)
  locals : SortedMap LocalPlace String
  starts : SortedMap String (SortedSet UInt32)
deriving DecidableEq

namespace MethodTable

def empty : MethodTable := ⟨.empty, .empty, .empty⟩

/-- The offsets of a construct, ascending. -/
def offsets (table : MethodTable) (construct : Construct) : List UInt32 :=
  match table.instructions.find? construct with
  | none => []
  | some offsets => offsets.toList

/-- The offset of a construct that comes after `n` others. -/
def nthOffset? (table : MethodTable) (construct : Construct) (n : Nat) : Option UInt32 :=
  (table.offsets construct)[n]?

/-- How many offsets of a construct come before one of them. -/
def offsetRank? (table : MethodTable) (construct : Construct) (offset : UInt32) : Option Nat :=
  (table.instructions.find? construct).bind (·.rank? offset)

/-- The variable that lives in a slot from an offset on. -/
def variableAt? (table : MethodTable) (slot : UInt16) (start : UInt32) : Option String :=
  table.locals.find? ⟨slot, start⟩

/-- How many starts of a name come before one of them. -/
def startRank? (table : MethodTable) (name : String) (start : UInt32) : Option Nat :=
  (table.starts.find? name).bind (·.rank? start)

/-- The start of a name that comes after `occurrence` others. -/
def nthStart? (table : MethodTable) (name : String) (occurrence : Nat) : Option UInt32 :=
  (table.starts.find? name).bind (·.at? occurrence)

/-- The local variables by slot and start. -/
def listedLocals (table : MethodTable) : List ListedLocal :=
  table.locals.entries.map fun (place, name) =>
    ⟨name, place.slot, place.start, (table.startRank? name place.start).getD 0⟩

/-- The constructs with an offset, in their order. -/
def constructs (table : MethodTable) : List Construct := table.instructions.keys

def isEmpty (table : MethodTable) : Bool := table.instructions.isEmpty && table.locals.isEmpty

/-- Adds an instruction of a construct. -/
def addInstruction (table : MethodTable) (construct : Construct) (offset : UInt32) : MethodTable :=
  { table with
    instructions := table.instructions.update construct fun offsets =>
      (offsets.getD .empty).insert offset }

/-- Adds a local variable; a later one takes the place of an earlier one at the same slot and start. -/
def addLocal (table : MethodTable) (slot : UInt16) (start : UInt32) (name : String) : MethodTable :=
  { table with
    locals := table.locals.insert ⟨slot, start⟩ name
    starts := table.starts.update name fun starts => (starts.getD .empty).insert start }

/-- Adds a record of this method. -/
def add (table : MethodTable) : Record → MethodTable
  | .method _ => table
  | .instruction _ construct offset _ => table.addInstruction construct offset
  | .localVariable _ slot start name => table.addLocal slot start name

end MethodTable

end Pinpoint
