namespace Pinpoint

/-- A JSON value as it stands in a document. Members keep their order and may repeat: whether that is acceptable
is for the reader of a document to decide. A number that is not written as an integer keeps its spelling. -/
inductive Json where
  | null
  | bool (value : Bool)
  /-- A number written as an integer, without fraction or exponent. -/
  | number (value : Int)
  /-- Any other number, among them negative zero, as it is spelled. -/
  | decimal (literal : String)
  | string (value : String)
  | array (items : List Json)
  | object (members : List (String × Json))

namespace Json

/-- A natural number as a JSON value. -/
def nat (n : Nat) : Json := .number n

/-- A list of natural numbers as a JSON value. -/
def nats (ns : List Nat) : Json := .array (ns.map nat)

/-- A list of texts as a JSON value. -/
def strings (texts : List String) : Json := .array (texts.map .string)

/-- An optional value, absent as `null`. -/
def option {α : Type} (encode : α → Json) : Option α → Json
  | none => .null
  | some value => encode value

end Json

end Pinpoint
