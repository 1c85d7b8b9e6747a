import Pinpoint.ClassFile.Record
import Pinpoint.Criterion.Basic
import Pinpoint.Json.Value
import Pinpoint.Source.Tree

namespace Pinpoint

/-- The version of the response format. -/
def formatVersion : String := "1"

/-- The members with which every response opens. -/
def responseHead (status : String) : List (String × Json) :=
  [("status", .string status), ("schema_version", .string formatVersion)]

/-- Why a request cannot be answered. -/
inductive Failure where
  | badCriterion (error : CriterionFault)
  | unknownNode (id : NodeId)
  | missingFile (path : String)
  /-- A document that cannot be read, with more about it where there is more to say. -/
  | malformed (document : String) (detail : Option String)
  | badTree (error : TreeFault)
  | badEvents (error : EventFault)
  | internal (text : String)
deriving DecidableEq

namespace Failure

/-- A failure to read or write a file. -/
def ofFileFault (text : String) : Failure := .internal ("IO error: " ++ text)

def message : Failure → String
  | .badCriterion error => "invalid criterion: " ++ error.message
  | .unknownNode id => "unknown node " ++ id.label
  | .missingFile path => "file not found: " ++ path
  | .malformed document none => "malformed " ++ document
  | .malformed document (some detail) => "malformed " ++ document ++ ": " ++ detail
  | .badTree error => "invalid syntax tree: " ++ error.message
  | .badEvents error => "invalid event stream: " ++ error.message
  | .internal text => "internal error: " ++ text

/-- The exit code: 2 for what was asked wrongly, 3 for faulty input, 10 for anything else. -/
def code : Failure → Nat
  | .badCriterion _ => 2
  | .unknownNode _ => 2
  | .missingFile _ => 2
  | .malformed _ _ => 3
  | .badTree _ => 3
  | .badEvents _ => 3
  | .internal _ => 10

/-- What the failure is about, where a program may want to know. -/
def details? : Failure → Option Json
  | .unknownNode id => some (.object [("node", .nat id)])
  | .missingFile path => some (.object [("path", .string path)])
  | .malformed document _ => some (.object [("document", .string document)])
  | _ => none

/-- The response to a request that cannot be answered. -/
def toJson (failure : Failure) : Json :=
  let details := match failure.details? with
    | none => []
    | some details => [("details", details)]
  .object (responseHead "error" ++
    [("error", .object ([("code", .nat failure.code), ("message", .string failure.message)] ++
      details))])

end Failure

/-- What ends the answering of a request: a failure that is reported, or a class name with a rank that is
too long, on which the program stops without a response. -/
inductive Stop where
  | failure (failure : Failure)
  | overflow (overflow : RankOverflow)
deriving DecidableEq

end Pinpoint
