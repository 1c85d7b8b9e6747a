import Pinpoint.Text

namespace Pinpoint

/-- A rank in a class name that no class can have, because it needs more than 32 bits. Reading a name that
holds one breaks off. -/
structure RankOverflow where
  digits : String
deriving DecidableEq

/-- How an overlong rank is reported. -/
def RankOverflow.message (overflow : RankOverflow) : String :=
  "class-name grammar accepted ordinal '" ++ overflow.digits ++
    "' that does not parse: number too large to fit in target type"

namespace Segment

/-- What follows a segment: nothing, or a dollar sign and the rest of the name, which holds no line
feed. -/
def remainder? : List Char → Option (List Char)
  | [] => some []
  | c :: rest => if c = '$' ∧ '\n' ∉ rest then some rest else none

/-- The digits of an anonymous class at the start of a name, with the name after its segment. -/
def anonymous? (name : List Char) : Option (List Char × List Char) :=
  let digits := name.takeWhile Char.isDigit
  if digits.isEmpty then none
  else (remainder? (name.dropWhile Char.isDigit)).map fun rest => (digits, rest)

/-- The digits and the name of a local class at the start of a name, with the name after its segment. The
digits are as many as leave the name a character. -/
def localClass? (name : List Char) : Option (List Char × List Char × List Char) :=
  let head := name.takeWhile (· ≠ '$')
  let digits := head.dropLast.takeWhile Char.isDigit
  if digits.isEmpty then none
  else
    (remainder? (name.dropWhile (· ≠ '$'))).map fun rest => (digits, head.drop digits.length, rest)

/-- The rank that digits denote; leading zeros are allowed, more than 32 bits are not. -/
def rank (digits : List Char) : Except RankOverflow Nat :=
  if Text.decimalValue digits < UInt32.size then .ok (Text.decimalValue digits)
  else .error ⟨String.ofList digits⟩

end Segment

end Pinpoint
