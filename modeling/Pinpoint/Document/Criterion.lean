import Pinpoint.Criterion.Basic
import Pinpoint.Document.Fields

namespace Pinpoint.WrittenCriterion

open Json Json.Fields

/-- A criterion's document. -/
def toJson : WrittenCriterion → Json
  | .inClass className exact =>
    .object [("kind", .string "in_class"), ("class_name", .string className), ("exact", .bool exact)]
  | .onReceiver method => .object [("kind", .string "receiver"), ("method", .string method)]
  | .hasSignature signature => .object [("kind", .string "sig_method"), ("signature", .string signature)]

/-- Reads the fields of the criterion that a tag names. -/
def reader (tag : String) : FieldReader WrittenCriterion :=
  if tag = "in_class" then do
    let className ← required "class_name" asString?
    let exact ← optional "exact" asBool? false
    return .inClass className exact
  else if tag = "receiver" then return .onReceiver (← required "method" asString?)
  else if tag = "sig_method" then return .hasSignature (← required "signature" asString?)
  else failure

/-- Reads a criterion's document. -/
def ofJson? (json : Json) : Option WrittenCriterion := do
  let (tag, fields) ← json.asTagged? "kind"
  fields.readAs? (reader tag)

/-- Reads a list of criteria. -/
def listOfJson? (json : Json) : Option (List WrittenCriterion) := json.asListOf? ofJson?

end Pinpoint.WrittenCriterion
