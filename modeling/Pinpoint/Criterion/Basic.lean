import Pinpoint.BinaryName.Reading
import Pinpoint.Criterion.Receiver
import Pinpoint.Method.Signature

namespace Pinpoint

/-- Why a criterion cannot be set up. -/
inductive CriterionFault where
  | badSignature (signature reason : String)
  | noClassName
deriving DecidableEq

def CriterionFault.message : CriterionFault → String
  | .badSignature signature reason =>
    "invalid method signature '" ++ signature ++ "': " ++ reason
  | .noClassName => "class name must not be empty"

/-- A condition on the place of a node. -/
inductive Criterion where
  /-- The node lies in the class of a binary name, at any depth or just in this class. -/
  | inClass (className : String) (exact : Bool)
  /-- The node is where the receiver annotation of a method goes. -/
  | onReceiver (methodName : String) (signature : MethodSignature)
  /-- The node is a method of a given signature. -/
  | hasSignature (signature : MethodSignature)
deriving DecidableEq

/-- Reads a signature for a criterion. -/
def MethodSignature.ofText (text : String) : Except CriterionFault MethodSignature :=
  match MethodSignature.parse text with
  | .ok signature => .ok signature
  | .error fault => .error (.badSignature text fault.reason)

namespace Criterion

/-- The receiver criterion of a method given by its signature. -/
def ofReceiver (method : String) : Except CriterionFault Criterion :=
  (MethodSignature.ofText method).map (.onReceiver method)

/-- The signature criterion of a method given by its signature. -/
def ofSignature (signature : String) : Except CriterionFault Criterion :=
  (MethodSignature.ofText signature).map .hasSignature

/-- The word for a criterion's kind. -/
def tag : Criterion → String
  | .inClass _ _ => "in_class"
  | .onReceiver _ _ => "receiver"
  | .hasSignature _ => "sig_method"

def isReceiver : Criterion → Bool
  | .onReceiver _ _ => true
  | _ => false

/-- How a criterion is described to a reader. -/
def describe : Criterion → String
  | .inClass className exact =>
    "In class '" ++ className ++ "'" ++ (if exact then " (exactly)" else "")
  | .onReceiver methodName _ => "ReceiverCriterion for method: " ++ methodName
  | .hasSignature signature => "is sig method '" ++ signature.text ++ "'"

/-- Whether a text stands in quotes as it is: printable, and without quotes and backslashes. -/
def isPlain (text : String) : Bool :=
  text.toList.all fun c => ' ' ≤ c && c ≤ '~' && c ≠ '"' && c ≠ '\\'

/-- A diagnostic text for a receiver criterion whose texts stand in quotes as they are. -/
def inspect? : Criterion → Option String
  | .onReceiver methodName signature =>
    if isPlain methodName && isPlain signature.text then
      some ("ReceiverCriterion \x7b method_name: \"" ++ methodName ++ "\", signature: \"" ++
        (Criterion.hasSignature signature).describe ++ "\" \x7d")
    else none
  | _ => none

/-- Whether a path leads to a method of the given signature. -/
def isMethodOf (signature : MethodSignature) (path : Path) : Bool :=
  match path.leaf.kind with
  | .method name parameters _ => signature.fits name parameters
  | _ => false

/-- The answer of a criterion at a path. -/
def holdsAt (ranks : RankIndex) (criterion : Criterion) (path : Path) : Verdict :=
  match criterion with
  | .inClass className exact => BinaryName.covers ranks exact className path
  | .onReceiver _ signature => .ok (Receiver.isPlace signature path)
  | .hasSignature signature => .ok (isMethodOf signature path)

/-- The answer of a criterion; it does not hold where there is no path. -/
def holds (ranks : RankIndex) (criterion : Criterion) : Option Path → Verdict
  | none => .ok false
  | some path => criterion.holdsAt ranks path

/-- The answer of a criterion about an explicitly named leaf, which must be the leaf of the path:
otherwise there is no answer. -/
def holdsForLeaf? (ranks : RankIndex) (criterion : Criterion) (path : Option Path) (leaf : NodeId) :
    Option Verdict :=
  if path.all (·.leaf.id = leaf) then some (criterion.holds ranks path) else none

/-- How a leaf is reported that is not the leaf of its path. -/
def wrongLeafMessage (leaf : NodeId) : String :=
  "explicit leaf " ++ leaf.label ++ " is not the leaf of the path"

end Criterion

/-- Several criteria, all of which have to hold. -/
abbrev Criteria := List Criterion

namespace Criteria

/-- Whether all criteria hold, asked in order up to the first that does not. -/
def allHoldAt (ranks : RankIndex) (path : Path) : Criteria → Verdict
  | [] => .ok true
  | criterion :: rest =>
    match criterion.holdsAt ranks path with
    | .ok true => allHoldAt ranks path rest
    | answer => answer

/-- Whether all criteria hold; none do where there is no path. -/
def hold (ranks : RankIndex) (criteria : Criteria) : Option Path → Verdict
  | none => .ok false
  | some path => criteria.allHoldAt ranks path

/-- Whether the place sought is that of a receiver annotation. -/
def seeksReceiver (criteria : Criteria) : Bool := criteria.any (·.isReceiver)

/-- The criteria's descriptions, in brackets. -/
def describe (criteria : Criteria) : String :=
  "[" ++ ", ".intercalate (criteria.map (·.describe)) ++ "]"

end Criteria

/-- A criterion as it is asked for, before its texts are checked. -/
inductive WrittenCriterion where
  | inClass (className : String) (exact : Bool)
  | onReceiver (method : String)
  | hasSignature (signature : String)
deriving DecidableEq

namespace WrittenCriterion

/-- The criterion that is asked for. -/
def build : WrittenCriterion → Except CriterionFault Criterion
  | .inClass className exact =>
    if className.isEmpty then .error .noClassName else .ok (.inClass className exact)
  | .onReceiver method => Criterion.ofReceiver method
  | .hasSignature signature => Criterion.ofSignature signature

/-- The criteria that are asked for, unless one of them is faulty; the first fault counts. -/
def buildAll : List WrittenCriterion → Except CriterionFault Criteria
  | [] => .ok []
  | written :: rest =>
    match written.build with
    | .error error => .error error
    | .ok criterion => (buildAll rest).map (criterion :: ·)

end WrittenCriterion

end Pinpoint
