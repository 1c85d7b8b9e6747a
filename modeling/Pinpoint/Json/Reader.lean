import Pinpoint.Json.Number

namespace Pinpoint.Json

open Text

/-- The characters that may stand between tokens. -/
def isBlank (c : Char) : Bool := c = ' ' || c = '\t' || c = '\n' || c = '\r'

def skipBlanks (cs : List Char) : List Char := cs.dropWhile isBlank

/-- A piece of a string literal: a character, or a code unit written as an escape. -/
inductive Piece where
  | char (c : Char)
  | unit (code : Nat)

/-- The value of a hexadecimal digit of either case. -/
def hexDigit? (c : Char) : Option Nat :=
  if '0' ≤ c ∧ c ≤ '9' then some (c.toNat - '0'.toNat)
  else if 'a' ≤ c ∧ c ≤ 'f' then some (c.toNat - 'a'.toNat + 10)
  else if 'A' ≤ c ∧ c ≤ 'F' then some (c.toNat - 'A'.toNat + 10)
  else none

/-- The code unit that four hexadecimal digits denote. -/
def codeUnit? (a b c d : Char) : Option Nat := do
  let a ← hexDigit? a
  let b ← hexDigit? b
  let c ← hexDigit? c
  let d ← hexDigit? d
  return ((a * 16 + b) * 16 + c) * 16 + d

/-- The character that a one-letter escape denotes. -/
def escaped? : Char → Option Char
  | '"' => some '"'
  | '\\' => some '\\'
  | '/' => some '/'
  | 'b' => some '\x08'
  | 'f' => some '\x0c'
  | 'n' => some '\n'
  | 'r' => some '\r'
  | 't' => some '\t'
  | _ => none

/-- The pieces of a string literal whose opening quote has been read, with the text after its closing
quote. Characters below space must be escaped. -/
def scanPieces : List Char → Option (List Piece × List Char)
  | [] => none
  | '"' :: rest => some ([], rest)
  | '\\' :: 'u' :: a :: b :: c :: d :: rest => do
    let code ← codeUnit? a b c d
    let (pieces, rest) ← scanPieces rest
    return (.unit code :: pieces, rest)
  | '\\' :: e :: rest => do
    let c ← escaped? e
    let (pieces, rest) ← scanPieces rest
    return (.char c :: pieces, rest)
  | c :: rest =>
    if c.toNat < 0x20 || c = '\\' then none
    else do
      let (pieces, rest) ← scanPieces rest
      return (.char c :: pieces, rest)

/-- Whether a code unit opens a surrogate pair. -/
def isLeading (code : Nat) : Bool := 0xD800 ≤ code && code < 0xDC00

/-- Whether a code unit closes a surrogate pair. -/
def isTrailing (code : Nat) : Bool := 0xDC00 ≤ code && code < 0xE000

/-- The characters of a list of pieces. A surrogate must be one of a leading and trailing pair. -/
def joinPieces : List Piece → Option (List Char)
  | [] => some []
  | .char c :: rest => do return c :: (← joinPieces rest)
  | .unit high :: .unit low :: rest =>
    if isLeading high then
      if isTrailing low then do
        let c := Char.ofNat (0x10000 + (high - 0xD800) * 0x400 + (low - 0xDC00))
        return c :: (← joinPieces rest)
      else none
    else if isTrailing high then none
    else do return Char.ofNat high :: (← joinPieces (.unit low :: rest))
  | .unit code :: rest =>
    if isLeading code || isTrailing code then none
    else do return Char.ofNat code :: (← joinPieces rest)

/-- The text of a string literal whose opening quote has been read, with what follows it. -/
def readString (cs : List Char) : Option (String × List Char) := do
  let (pieces, rest) ← scanPieces cs
  let text ← joinPieces pieces
  return (String.ofList text, rest)

mutual

/-- The value at the start of a text, past blanks, with the text after it. Containers may nest `depth`
levels further. Every call spends one unit of `fuel`; two units for each character are enough. -/
def readValue (fuel depth : Nat) (cs : List Char) : Option (Json × List Char) :=
  match fuel with
  | 0 => none
  | fuel + 1 =>
    match skipBlanks cs with
    | [] => none
    | '"' :: rest => do
      let (text, rest) ← readString rest
      return (.string text, rest)
    | '[' :: rest =>
      match depth with
      | 0 => none
      | depth + 1 =>
        match skipBlanks rest with
        | ']' :: rest => some (.array [], rest)
        | rest => do
          let (items, rest) ← readItems fuel depth rest
          return (.array items, rest)
    | '\x7b' :: rest =>
      match depth with
      | 0 => none
      | depth + 1 =>
        match skipBlanks rest with
        | '\x7d' :: rest => some (.object [], rest)
        | rest => do
          let (members, rest) ← readMembers fuel depth rest
          return (.object members, rest)
    | 't' :: rest => do return (.bool true, ← after? ['r', 'u', 'e'] rest)
    | 'f' :: rest => do return (.bool false, ← after? ['a', 'l', 's', 'e'] rest)
    | 'n' :: rest => do return (.null, ← after? ['u', 'l', 'l'] rest)
    | cs => do
      let (literal, rest) ← Literal.scan cs
      return (← literal.toJson?, rest)

/-- The items of an array from the next one on, with the text after its closing bracket. -/
def readItems (fuel depth : Nat) (cs : List Char) : Option (List Json × List Char) :=
  match fuel with
  | 0 => none
  | fuel + 1 => do
    let (item, rest) ← readValue fuel depth cs
    match skipBlanks rest with
    | ']' :: rest => return ([item], rest)
    | ',' :: rest =>
      let (items, rest) ← readItems fuel depth rest
      return (item :: items, rest)
    | _ => none

/-- The members of an object from the next one on, with the text after its closing brace. -/
def readMembers (fuel depth : Nat) (cs : List Char) : Option (List (String × Json) × List Char) :=
  match fuel with
  | 0 => none
  | fuel + 1 =>
    match skipBlanks cs with
    | '"' :: rest => do
      let (key, rest) ← readString rest
      let rest ← after? [':'] (skipBlanks rest)
      let (value, rest) ← readValue fuel depth rest
      match skipBlanks rest with
      | '\x7d' :: rest => return ([(key, value)], rest)
      | ',' :: rest =>
        let (members, rest) ← readMembers fuel depth rest
        return ((key, value) :: members, rest)
      | _ => none
    | _ => none

end

/-- The value of a whole text whose arrays and objects nest at most `depth` levels. -/
def readNested? (depth : Nat) (text : String) : Option Json := do
  let cs := text.toList
  let (value, rest) ← readValue (2 * cs.length + 2) depth cs
  if (skipBlanks rest).isEmpty then return value else none

/-- How deep the arrays and objects of a document may nest. -/
def maxDepth : Nat := 127

/-- The value of a document's text. -/
def read? (text : String) : Option Json := readNested? maxDepth text

end Pinpoint.Json
