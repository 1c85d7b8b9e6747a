import Pinpoint.Json.Value
import Pinpoint.Text

namespace Pinpoint.Json

open Text

/-- The digits of a number literal, part by part. -/
structure Literal where
  negative : Bool
  whole : List Char
  fraction : List Char
  /-- The exponent, if one is written: whether it is negative, and its digits. -/
  exponent : Option (Bool × List Char)

namespace Literal

/-- The integer part: a single zero, or digits that do not start with one. -/
def scanWhole : List Char → Option (List Char × List Char)
  | '0' :: rest => if (rest.head?.map Char.isDigit).getD false then none else some (['0'], rest)
  | cs =>
    let digits := cs.takeWhile Char.isDigit
    if digits.isEmpty then none else some (digits, cs.dropWhile Char.isDigit)

/-- The fraction: a point needs a digit after it. -/
def scanFraction : List Char → Option (List Char × List Char)
  | '.' :: rest =>
    let digits := rest.takeWhile Char.isDigit
    if digits.isEmpty then none else some (digits, rest.dropWhile Char.isDigit)
  | cs => some ([], cs)

/-- The sign of an exponent, a plus sign being allowed. -/
def scanSign : List Char → Bool × List Char
  | '-' :: rest => (true, rest)
  | '+' :: rest => (false, rest)
  | cs => (false, cs)

/-- The exponent: its mark needs a digit after it, past an optional sign. -/
def scanExponent : List Char → Option (Option (Bool × List Char) × List Char)
  | [] => some (none, [])
  | c :: rest =>
    if c = 'e' ∨ c = 'E' then
      let (negative, rest) := scanSign rest
      let digits := rest.takeWhile Char.isDigit
      if digits.isEmpty then none else some (some (negative, digits), rest.dropWhile Char.isDigit)
    else some (none, c :: rest)

/-- The literal at the start of a text, with the text after it. -/
def scan (cs : List Char) : Option (Literal × List Char) := do
  let (negative, cs) := match cs with
    | '-' :: rest => (true, rest)
    | cs => (false, cs)
  let (whole, cs) ← scanWhole cs
  let (fraction, cs) ← scanFraction cs
  let (exponent, cs) ← scanExponent cs
  return (⟨negative, whole, fraction, exponent⟩, cs)

/-- Digits taken into a 64-bit significand while they fit, with the number of digits taken. -/
def absorb (significand taken : Nat) : List Char → Nat × Nat
  | [] => (significand, taken)
  | digit :: rest =>
    let next := extendDecimal significand [digit]
    if next < Nat.pow 2 64 then absorb next (taken + 1) rest else (significand, taken)

/-- The value up to its sign as a 64-bit significand and a power of ten. Digits of the integer part that
do not fit raise the power; digits of the fraction that do not fit are dropped. -/
def scaled (literal : Literal) : Nat × Int :=
  let (significand, taken) := absorb 0 0 literal.whole
  let dropped := literal.whole.length - taken
  let (significand, places) := absorb significand 0 literal.fraction
  let exponent : Int := match literal.exponent with
    | none => 0
    | some (negative, digits) =>
      if negative then -(decimalValue digits : Int) else (decimalValue digits : Int)
  (significand, (dropped : Int) - places + exponent)

/-- A natural number rounded to 53 significant bits, a half going to the even neighbour. -/
def toDouble (n : Nat) : Nat :=
  if n < Nat.pow 2 53 then n
  else
    let shift := n.log2 - 52
    let kept := n / Nat.pow 2 shift
    let lost := n % Nat.pow 2 shift
    let half := Nat.pow 2 (shift - 1)
    let kept := if half < lost ∨ (lost = half ∧ kept % 2 = 1) then kept + 1 else kept
    kept * Nat.pow 2 shift

/-- Whether scaling the significand in double precision leaves the range of finite doubles. -/
def outOfRange (literal : Literal) : Bool :=
  match literal.scaled with
  | (significand, .ofNat power) =>
    significand ≠ 0 &&
      (308 < power || Nat.pow 2 1024 ≤ toDouble (toDouble significand * toDouble (Nat.pow 10 power)))
  | (_, .negSucc _) => false

/-- The literal as it is spelled, with a lower-case exponent mark and no plus sign. -/
def spelling (literal : Literal) : String :=
  String.ofList <|
    (if literal.negative then ['-'] else []) ++ literal.whole ++
    (if literal.fraction.isEmpty then [] else '.' :: literal.fraction) ++
    (match literal.exponent with
      | none => []
      | some (negative, digits) => 'e' :: (if negative then '-' :: digits else digits))

/-- The value of a literal within range. Negative zero is no integer. -/
def toJson? (literal : Literal) : Option Json :=
  if literal.outOfRange then none
  else if literal.fraction.isEmpty && literal.exponent.isNone then
    let magnitude := decimalValue literal.whole
    if literal.negative then
      if magnitude = 0 then some (.decimal literal.spelling) else some (.number (-(magnitude : Int)))
    else some (.number magnitude)
  else some (.decimal literal.spelling)

end Literal

end Pinpoint.Json
