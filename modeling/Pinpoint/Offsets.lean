import Pinpoint.ClassFile.OffsetIndex
import Pinpoint.Document.Event
import Pinpoint.Failure

namespace Pinpoint

/-- What is reported of a method. -/
structure MethodReport where
  method : MethodKey
  instructions : List (Construct × List UInt32)
  locals : List ListedLocal
deriving DecidableEq

/-- The answer to a list of events: the methods by key. -/
structure OffsetsReport where
  methods : List MethodReport
deriving DecidableEq

/-- The report of a method's table. -/
def MethodTable.report (table : MethodTable) (method : MethodKey) : MethodReport :=
  ⟨method, table.constructs.map fun construct => (construct, table.offsets construct), table.listedLocals⟩

/-- The report of an index. -/
def OffsetIndex.report (index : OffsetIndex) : OffsetsReport :=
  ⟨index.methods.entries.map fun (key, table) => table.report key⟩

/-- The answer to a list of events. -/
def OffsetsReport.ofEvents (events : List Event) : Except Failure OffsetsReport :=
  match OffsetIndex.build events with
  | .error error => .error (.badEvents error)
  | .ok index => .ok index.report

def ListedLocal.toJson (entry : ListedLocal) : Json :=
  .object [("name", .string entry.name), ("slot", .nat entry.slot.toNat),
    ("start", .nat entry.start.toNat), ("occurrence", .nat entry.occurrence)]

def MethodReport.toJson (report : MethodReport) : Json :=
  .object [("method", .string report.method.text),
    ("instructions", .object (report.instructions.map fun (construct, offsets) =>
      (construct.tag, .nats (offsets.map (·.toNat))))),
    ("locals", .array (report.locals.map (·.toJson)))]

/-- The response that holds a report. -/
def OffsetsReport.toJson (report : OffsetsReport) : Json :=
  .object (responseHead "ok" ++ [("methods", .array (report.methods.map (·.toJson)))])

end Pinpoint
