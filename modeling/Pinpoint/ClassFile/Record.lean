import Pinpoint.ClassFile.Event
import Pinpoint.Method.Key

namespace Pinpoint

/-- Why an event cannot be recorded. -/
inductive EventFault where
  | badDescriptor (name descriptor : String)
  | outsideMethod (event : String)
  | unknownOpcode (event : String) (opcode : Opcode) (method : MethodKey)
  | offsetTooLarge (offset : UInt32) (method : MethodKey)
deriving DecidableEq

def EventFault.message : EventFault → String
  | .badDescriptor name descriptor =>
    "malformed descriptor for method '" ++ name ++ "': " ++ descriptor
  | .outsideMethod event => event ++ " event outside of any method"
  | .unknownOpcode event opcode method =>
    "unexpected opcode " ++ opcode.hex ++ " for " ++ event ++ " event in " ++ method.text
  | .offsetTooLarge offset method =>
    "operand offset after label " ++ toString offset.toNat ++ " overflows in " ++ method.text

/-- What is recorded of an event. -/
inductive Record where
  | method (method : MethodKey)
  | instruction (method : MethodKey) (construct : Construct) (offset : UInt32) (opcode : Opcode)
  | localVariable (method : MethodKey) (slot : UInt16) (start : UInt32) (name : String)
deriving DecidableEq

/-- The method that a record belongs to. -/
def Record.owner : Record → MethodKey
  | .method key => key
  | .instruction key _ _ _ => key
  | .localVariable key _ _ _ => key

/-- Where a scan stands: the current method, and the offset of its last label. -/
structure Cursor where
  method : Option MethodKey
  label : UInt32
deriving DecidableEq

namespace Cursor

/-- Before the first event: in no method. -/
def start : Cursor := ⟨none, 0⟩

/-- How an instruction's place is recorded: at its own offset, or at that of the operand behind it. -/
inductive Place where
  | opcode
  | operand
deriving DecidableEq

/-- The record of an instruction at the current label. -/
def locate (label : UInt32) (method : MethodKey) (construct : Construct) (opcode : Opcode) :
    Place → Except EventFault Record
  | .opcode => .ok (.instruction method construct label opcode)
  | .operand =>
    if label = 0xffffffff then .error (.offsetTooLarge label method)
    else .ok (.instruction method construct (label + 1) opcode)

/-- The construct and place of the instructions with a type operand. -/
def typeInsn? (opcode : Opcode) : Option (Construct × Place) :=
  if opcode = Opcode.checkCast then some (.cast, .operand)
  else if opcode = Opcode.instanceOf then some (.instanceOf, .operand)
  else if opcode = Opcode.new ∨ opcode = Opcode.aNewArray then some (.new, .opcode)
  else none

/-- Reads an event inside `method`: the new label, and the record if there is one. Calls of constructors
and of private methods are not recorded. -/
def inMethod (label : UInt32) (method : MethodKey) (event : Event) :
    Except EventFault (UInt32 × Option Record) :=
  match event with
  | .method _ _ | .insn _ => .ok (label, none)
  | .label offset => .ok (offset, none)
  | .typeInsn opcode _ =>
    match typeInsn? opcode with
    | some (construct, place) =>
      (locate label method construct opcode place).map fun record => (label, some record)
    | none => .error (.unknownOpcode event.tag opcode method)
  | .intInsn opcode _ =>
    if opcode = Opcode.newArray then .ok (label, some (.instruction method .new label opcode))
    else .ok (label, none)
  | .multiANewArray _ _ =>
    .ok (label, some (.instruction method .new label Opcode.multiANewArray))
  | .methodInsn opcode _ _ _ =>
    if opcode = Opcode.invokeInterface ∨ opcode = Opcode.invokeStatic ∨
        opcode = Opcode.invokeVirtual then
      .ok (label, some (.instruction method .methodCall label opcode))
    else if opcode = Opcode.invokeSpecial then .ok (label, none)
    else .error (.unknownOpcode event.tag opcode method)
  | .invokeDynamic _ _ =>
    .ok (label, some (.instruction method .lambda label Opcode.invokeDynamic))
  | .localVariable name _ slot start => .ok (label, some (.localVariable method slot start name))

/-- Reads one event. A method event opens a method, at offset 0; every other one needs an open method. -/
def step (state : Cursor) (event : Event) :
    Except EventFault (Cursor × Option Record) :=
  match event with
  | .method name descriptor =>
    match MethodKey.ofDescriptor? name descriptor with
    | some method => .ok (⟨some method, 0⟩, some (.method method))
    | none => .error (.badDescriptor name descriptor)
  | event =>
    match state.method with
    | none => .error (.outsideMethod event.tag)
    | some method =>
      (inMethod state.label method event).map fun (label, record) => ({ state with label }, record)

/-- What the events from here on come to: their records and faults, in order. A faulty event leaves the
state as it is. -/
def run (state : Cursor) : List Event → List (Except EventFault Record)
  | [] => []
  | event :: rest =>
    match state.step event with
    | .error error => .error error :: state.run rest
    | .ok (next, none) => next.run rest
    | .ok (next, some record) => .ok record :: next.run rest

end Cursor

/-- What a class's events come to: their records and faults, in order. -/
def scan (events : List Event) : List (Except EventFault Record) := Cursor.start.run events

end Pinpoint
