import Pinpoint.ClassFile.Instruction

namespace Pinpoint

/-- An event of a class file. Everything between two method events belongs to the first. -/
inductive Event where
  | method (name descriptor : String)
  /-- The instructions that follow stand at this offset. -/
  | label (offset : UInt32)
  | typeInsn (opcode : Opcode) (typeName : String)
  | intInsn (opcode : Opcode) (operand : Int32)
  | multiANewArray (descriptor : String) (dimensions : UInt8)
  | methodInsn (opcode : Opcode) (owner name descriptor : String)
  | invokeDynamic (name descriptor : String)
  /-- A local variable: its slot, and the offset from which it lives there. -/
  | localVariable (name descriptor : String) (slot : UInt16) (start : UInt32)
  /-- Any other instruction. -/
  | insn (opcode : Opcode)
deriving DecidableEq

/-- The word for an event in documents and messages. -/
def Event.tag : Event → String
  | .method _ _ => "method"
  | .label _ => "label"
  | .typeInsn _ _ => "type_insn"
  | .intInsn _ _ => "int_insn"
  | .multiANewArray _ _ => "multi_anew_array"
  | .methodInsn _ _ _ _ => "method_insn"
  | .invokeDynamic _ _ => "invoke_dynamic"
  | .localVariable _ _ _ _ => "local_variable"
  | .insn _ => "insn"

end Pinpoint
