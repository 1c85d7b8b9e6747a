import Pinpoint.Json.Value

namespace Pinpoint.Json

def asString? : Json → Option String
  | .string value => some value
  | _ => none

def asBool? : Json → Option Bool
  | .bool value => some value
  | _ => none

/-- A natural number below a bound. -/
def asNatBelow? (bound : Nat) : Json → Option Nat
  | .number (.ofNat n) => if n < bound then some n else none
  | _ => none

def asUInt8? (json : Json) : Option UInt8 := (json.asNatBelow? UInt8.size).map UInt8.ofNat

def asUInt16? (json : Json) : Option UInt16 := (json.asNatBelow? UInt16.size).map UInt16.ofNat

def asUInt32? (json : Json) : Option UInt32 := (json.asNatBelow? UInt32.size).map UInt32.ofNat

def asInt32? : Json → Option Int32
  | .number n => if -2147483648 ≤ n ∧ n < 2147483648 then some (Int32.ofInt n) else none
  | _ => none

/-- The elements of a list, all of which must be readable. -/
def readAll? {α : Type} (read : Json → Option α) : List Json → Option (List α)
  | [] => some []
  | item :: rest => do return (← read item) :: (← readAll? read rest)

/-- An array, all of whose elements must be readable. -/
def asListOf? {α : Type} (read : Json → Option α) : Json → Option (List α)
  | .array items => readAll? read items
  | _ => none

/-- A value or `null`. -/
def asOptional? {α : Type} (read : Json → Option α) : Json → Option (Option α)
  | .null => some none
  | json => (read json).map some

/-- The word for a choice: a string, or an object of one member that has the word as its key and a value
that stands for nothing. -/
def asChoice? (isNothing : Json → Bool) : Json → Option String
  | .string word => some word
  | .object [(word, value)] => if isNothing value then some word else none
  | _ => none

def isNull : Json → Bool
  | .null => true
  | _ => false

def isNullOrEmpty : Json → Bool
  | .null => true
  | .object [] => true
  | _ => false

/-- The member of a key, if there is one; a repeated key is refused. -/
def member? (key : String) (members : List (String × Json)) : Option (Option Json) :=
  match members.filter (·.1 == key) with
  | [] => some none
  | [(_, value)] => some (some value)
  | _ => none

/-- The fields of a record that are still to be read. A record is an object, or an array that lists its fields
in order. Members that a record does not have are ignored; those it has may not be repeated. -/
inductive Fields where
  | named (members : List (String × Json))
  | listed (items : List Json)

/-- Readers of the fields of a record, in order. -/
abbrev FieldReader (α : Type) := StateT Fields Option α

namespace Fields

/-- The next field, by name or by place, if it is there. -/
def next? (key : String) : FieldReader (Option Json)
  | .named members => (member? key members).map fun found => (found, .named members)
  | .listed [] => some (none, .listed [])
  | .listed (item :: rest) => some (some item, .listed rest)

/-- The next field, which must be there. -/
def required {α : Type} (key : String) (read : Json → Option α) : FieldReader α := do
  match ← next? key with
  | some json => (read json : Option α)
  | none => failure

/-- The next field, or a default in its place. -/
def optional {α : Type} (key : String) (read : Json → Option α) (default : α) : FieldReader α := do
  match ← next? key with
  | some json => (read json : Option α)
  | none => return default

/-- Reads a record; no listed field may be left over. -/
def readAs? {α : Type} (fields : Fields) (reader : FieldReader α) : Option α :=
  match reader.run fields with
  | some (value, .named _) => some value
  | some (value, .listed []) => some value
  | _ => none

end Fields

/-- A record of one of several forms: the tag that tells the form, and the fields. The tag is a member
of an object, or the first element of an array. -/
def asTagged? (tagKey : String) : Json → Option (String × Fields)
  | .object members =>
    match member? tagKey members with
    | some (some (.string tag)) => some (tag, .named members)
    | _ => none
  | .array (.string tag :: items) => some (tag, .listed items)
  | _ => none

end Pinpoint.Json
