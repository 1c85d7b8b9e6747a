import Pinpoint.ClassFile.MethodTable

namespace Pinpoint

/-- The index of a class: the tables of its methods, by key. -/
structure OffsetIndex where
  methods : SortedMap MethodKey MethodTable
deriving DecidableEq

namespace OffsetIndex

def empty : OffsetIndex := ⟨.empty⟩

/-- Adds a record to the table of its method. -/
def add (index : OffsetIndex) (record : Record) : OffsetIndex :=
  ⟨index.methods.update record.owner fun table => (table.getD .empty).add record⟩

/-- The index of a list of records. -/
def ofRecords (records : List Record) : OffsetIndex := records.foldl add empty

/-- The records of a scan, or its first fault. -/
def collect : List (Except EventFault Record) → Except EventFault (List Record)
  | [] => .ok []
  | .error error :: _ => .error error
  | .ok record :: rest => (collect rest).map (record :: ·)

/-- The index of a class's events, or their first fault. -/
def build (events : List Event) : Except EventFault OffsetIndex :=
  (collect (scan events)).map ofRecords

/-- The table of a method. -/
def method? (index : OffsetIndex) (key : MethodKey) : Option MethodTable := index.methods.find? key

/-- The number of methods. -/
def size (index : OffsetIndex) : Nat := index.methods.size

def isEmpty (index : OffsetIndex) : Bool := index.methods.isEmpty

/-- The offsets of a construct in a method, ascending. -/
def offsets (index : OffsetIndex) (key : MethodKey) (construct : Construct) : List UInt32 :=
  match index.method? key with
  | none => []
  | some table => table.offsets construct

def nthOffset? (index : OffsetIndex) (key : MethodKey) (construct : Construct) (n : Nat) :
    Option UInt32 :=
  (index.method? key).bind (·.nthOffset? construct n)

def offsetRank? (index : OffsetIndex) (key : MethodKey) (construct : Construct) (offset : UInt32) :
    Option Nat :=
  (index.method? key).bind (·.offsetRank? construct offset)

def variableAt? (index : OffsetIndex) (key : MethodKey) (slot : UInt16) (start : UInt32) :
    Option String :=
  (index.method? key).bind (·.variableAt? slot start)

def startRank? (index : OffsetIndex) (key : MethodKey) (name : String) (start : UInt32) :
    Option Nat :=
  (index.method? key).bind (·.startRank? name start)

def nthStart? (index : OffsetIndex) (key : MethodKey) (name : String) (occurrence : Nat) :
    Option UInt32 :=
  (index.method? key).bind (·.nthStart? name occurrence)

end OffsetIndex

end Pinpoint
