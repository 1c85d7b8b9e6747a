namespace Pinpoint

/-- What is wrong with the text of a signature. -/
inductive SignatureFault where
  | missingOpen
  | missingClose
  | closeBeforeOpen
  | missingName
deriving DecidableEq

def SignatureFault.reason : SignatureFault → String
  | .missingOpen => "missing '('"
  | .missingClose => "missing ')'"
  | .closeBeforeOpen => "')' before '('"
  | .missingName => "missing method name"

/-- A method's name and the text between its parentheses, with the text they were read from. -/
structure MethodSignature where
  text : String
  name : String
  parameters : String
deriving DecidableEq

namespace MethodSignature

/-- Reads a signature: the name goes up to the first opening parenthesis, the parameters from there up to
the first closing one; what follows is not looked at. -/
def parse (text : String) : Except SignatureFault MethodSignature :=
  let cs := text.toList
  let name := cs.takeWhile (· ≠ '(')
  let beforeClose := cs.takeWhile (· ≠ ')')
  if '(' ∉ cs then .error .missingOpen
  else if ')' ∉ cs then .error .missingClose
  else if beforeClose.length < name.length then .error .closeBeforeOpen
  else if name.isEmpty then .error .missingName
  else .ok ⟨text, String.ofList name, String.ofList (beforeClose.drop (name.length + 1))⟩

/-- Whether a method of the given name and parameter descriptors has this signature. Descriptors are
compared run together, since the signature does not divide them. -/
def fits (signature : MethodSignature) (name : String) (parameters : List String) : Bool :=
  name = signature.name && String.join parameters = signature.parameters

end MethodSignature

end Pinpoint
