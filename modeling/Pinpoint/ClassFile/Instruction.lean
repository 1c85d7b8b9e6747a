namespace Pinpoint

/-- The first byte of an instruction. -/
abbrev Opcode := UInt8

namespace Opcode

def invokeVirtual : Opcode := 0xb6

def invokeSpecial : Opcode := 0xb7

def invokeStatic : Opcode := 0xb8

def invokeInterface : Opcode := 0xb9

def invokeDynamic : Opcode := 0xba

def new : Opcode := 0xbb

def newArray : Opcode := 0xbc

def aNewArray : Opcode := 0xbd

def checkCast : Opcode := 0xc0

def instanceOf : Opcode := 0xc1

def multiANewArray : Opcode := 0xc5

/-- The opcodes with a name here. -/
def mnemonics : List (Opcode × String) :=
  [(invokeVirtual, "INVOKEVIRTUAL"), (invokeSpecial, "INVOKESPECIAL"),
    (invokeStatic, "INVOKESTATIC"), (invokeInterface, "INVOKEINTERFACE"),
    (invokeDynamic, "INVOKEDYNAMIC"), (new, "NEW"), (newArray, "NEWARRAY"),
    (aNewArray, "ANEWARRAY"), (checkCast, "CHECKCAST"), (instanceOf, "INSTANCEOF"),
    (multiANewArray, "MULTIANEWARRAY")]

/-- The name of an instruction. -/
def mnemonic (opcode : Opcode) : String := (mnemonics.lookup opcode).getD "UNKNOWN"

/-- An opcode with two hexadecimal digits. -/
def hex (opcode : Opcode) : String :=
  let n := opcode.toNat
  String.ofList ['0', 'x', Nat.digitChar (n / 16), Nat.digitChar (n % 16)]

end Opcode

/-- The kind of source expression that an instruction comes from. -/
inductive Construct where
  | cast
  | new
  | instanceOf
  | methodCall
  | lambda
deriving DecidableEq

namespace Construct

/-- All constructs in their order. -/
def all : List Construct := [.cast, .new, .instanceOf, .methodCall, .lambda]

/-- The place of a construct in their order. -/
def position : Construct → Nat
  | .cast => 0
  | .new => 1
  | .instanceOf => 2
  | .methodCall => 3
  | .lambda => 4

instance : Ord Construct where
  compare a b := compare a.position b.position

instance : Std.TransOrd Construct := inferInstanceAs (Std.TransCmp (compareOn Construct.position))

instance : Std.LawfulEqOrd Construct where
  eq_of_compare {a b} horder := by
    have hposition : a.position = b.position := Std.LawfulEqOrd.eq_of_compare horder
    revert hposition
    cases a <;> cases b <;> decide

/-- The word for a construct. -/
def tag : Construct → String
  | .cast => "cast"
  | .new => "new"
  | .instanceOf => "instance_of"
  | .methodCall => "method_call"
  | .lambda => "lambda"

/-- The construct that a word names. -/
def ofTag? (word : String) : Option Construct := all.find? (·.tag == word)

end Construct

end Pinpoint
