import Pinpoint.ClassFile.Event
import Pinpoint.Document.Fields

namespace Pinpoint

open Json Json.Fields

/-- Reads a construct standing alone: a word, or an object of one member in its place. -/
def Construct.ofJson? (json : Json) : Option Construct :=
  (json.asChoice? isNull).bind Construct.ofTag?

namespace Event

/-- The members of an event's document after its tag. -/
def members : Event → List (String × Json)
  | .method name descriptor => [("name", .string name), ("descriptor", .string descriptor)]
  | .label offset => [("offset", .nat offset.toNat)]
  | .typeInsn opcode typeName => [("opcode", .nat opcode.toNat), ("type_name", .string typeName)]
  | .intInsn opcode operand => [("opcode", .nat opcode.toNat), ("operand", .number operand.toInt)]
  | .multiANewArray descriptor dimensions =>
    [("descriptor", .string descriptor), ("dimensions", .nat dimensions.toNat)]
  | .methodInsn opcode owner name descriptor =>
    [("opcode", .nat opcode.toNat), ("owner", .string owner), ("name", .string name),
      ("descriptor", .string descriptor)]
  | .invokeDynamic name descriptor => [("name", .string name), ("descriptor", .string descriptor)]
  | .localVariable name descriptor slot start =>
    [("name", .string name), ("descriptor", .string descriptor), ("slot", .nat slot.toNat),
      ("start", .nat start.toNat)]
  | .insn opcode => [("opcode", .nat opcode.toNat)]

/-- An event's document. -/
def toJson (event : Event) : Json := .object (("event", .string event.tag) :: event.members)

/-- Reads the fields of the event that a tag names. -/
def reader (tag : String) : FieldReader Event :=
  if tag = "method" then do
    let name ← required "name" asString?
    let descriptor ← required "descriptor" asString?
    return .method name descriptor
  else if tag = "label" then return .label (← required "offset" asUInt32?)
  else if tag = "type_insn" then do
    let opcode ← required "opcode" asUInt8?
    let typeName ← required "type_name" asString?
    return .typeInsn opcode typeName
  else if tag = "int_insn" then do
    let opcode ← required "opcode" asUInt8?
    let operand ← required "operand" asInt32?
    return .intInsn opcode operand
  else if tag = "multi_anew_array" then do
    let descriptor ← required "descriptor" asString?
    let dimensions ← required "dimensions" asUInt8?
    return .multiANewArray descriptor dimensions
  else if tag = "method_insn" then do
    let opcode ← required "opcode" asUInt8?
    let owner ← required "owner" asString?
    let name ← required "name" asString?
    let descriptor ← required "descriptor" asString?
    return .methodInsn opcode owner name descriptor
  else if tag = "invoke_dynamic" then do
    let name ← required "name" asString?
    let descriptor ← required "descriptor" asString?
    return .invokeDynamic name descriptor
  else if tag = "local_variable" then do
    let name ← required "name" asString?
    let descriptor ← required "descriptor" asString?
    let slot ← required "slot" asUInt16?
    let start ← required "start" asUInt32?
    return .localVariable name descriptor slot start
  else if tag = "insn" then return .insn (← required "opcode" asUInt8?)
  else failure

/-- Reads an event's document. -/
def ofJson? (json : Json) : Option Event := do
  let (tag, fields) ← json.asTagged? "event"
  fields.readAs? (reader tag)

/-- Reads a list of events. -/
def listOfJson? (json : Json) : Option (List Event) := json.asListOf? ofJson?

end Event

end Pinpoint
