import Pinpoint.Document.Fields
import Pinpoint.Source.Outline

namespace Pinpoint

open Json Json.Fields

/-- A flavor is a word; inside a kind, an object of one member may stand for it. -/
def Flavor.ofJson? (isNothing : Json → Bool) (json : Json) : Option Flavor :=
  (json.asChoice? isNothing).bind Flavor.ofTag?

namespace Kind

/-- The words for the kinds, in their order. -/
def tags : List String :=
  ["compilation_unit", "class", "new_class", "method", "variable", "block", "other"]

/-- The members of a kind's document after its tag. -/
def members : Kind → List (String × Json)
  | .unit none => []
  | .unit (some package) => [("package", .string package)]
  | .classDecl name flavor => [("name", .string name), ("flavor", .string flavor.tag)]
  | .construction _ => []
  | .method name parameters _ => [("name", .string name), ("parameters", .strings parameters)]
  | .variable name isReceiver =>
    ("name", .string name) :: if isReceiver then [("receiver", .bool true)] else []
  | .block => []
  | .other label => [("label", .string label)]

/-- A kind's document. -/
def toJson (kind : Kind) : Json := .object (("kind", .string kind.tag) :: kind.members)

/-- Reads the fields of the kind that a tag names. -/
def reader (tag : String) : FieldReader Kind :=
  if tag = "compilation_unit" then
    return .unit (← optional "package" (asOptional? asString?) none)
  else if tag = "class" then do
    let name ← optional "name" asString? ""
    let flavor ← optional "flavor" (Flavor.ofJson? isNullOrEmpty) .ordinary
    return .classDecl name flavor
  else if tag = "new_class" then return .construction none
  else if tag = "method" then do
    let name ← required "name" asString?
    let parameters ← optional "parameters" (asListOf? asString?) []
    return .method name parameters none
  else if tag = "variable" then do
    let name ← required "name" asString?
    let isReceiver ← optional "receiver" asBool? false
    return .variable name isReceiver
  else if tag = "block" then return .block
  else if tag = "other" then return .other (← optional "label" asString? "")
  else failure

/-- Reads a kind's document. -/
def ofJson? (json : Json) : Option Kind := do
  let (tag, fields) ← json.asTagged? "kind"
  fields.readAs? (reader tag)

end Kind

namespace Outline

mutual

/-- An outline's document: that of its kind with the children, if there are any. -/
def toJson : Outline → Json
  | ⟨kind, children⟩ =>
    .object (("kind", .string kind.tag) :: kind.members ++ childMembers children)

/-- The member that holds the children. -/
def childMembers : List Outline → List (String × Json)
  | [] => []
  | child :: rest => [("children", .array (child.toJson :: toJsonAll rest))]

def toJsonAll : List Outline → List Json
  | [] => []
  | outline :: rest => outline.toJson :: toJsonAll rest

end

/-- The tag of a node in an outline, which may also be given by its place in the list of tags. -/
def tag? (members : List (String × Json)) : Option String :=
  match member? "kind" members with
  | some (some (.string tag)) => some tag
  | some (some (.number (.ofNat n))) => Kind.tags[n]?
  | _ => none

mutual

/-- Reads an outline's document, which must be an object at every node. -/
def ofJson? : Json → Option Outline
  | .object members => do
    let tag ← tag? members
    let kind ← (Fields.named members).readAs? (Kind.reader tag)
    let _ ← member? "children" members
    return ⟨kind, ← childrenAmong? members⟩
  | _ => none

/-- The children among the members of a node; none are given if there is no such member. -/
def childrenAmong? : List (String × Json) → Option (List Outline)
  | [] => some []
  | (key, value) :: rest => if key = "children" then childrenOf? value else childrenAmong? rest

def childrenOf? : Json → Option (List Outline)
  | .array items => ofJsonAll? items
  | _ => none

def ofJsonAll? : List Json → Option (List Outline)
  | [] => some []
  | item :: rest => do return (← ofJson? item) :: (← ofJsonAll? rest)

end

end Outline

end Pinpoint
