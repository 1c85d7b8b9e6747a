import Pinpoint.Method.Signature
import Pinpoint.Source.Path

namespace Pinpoint.Receiver

/-- Climbs from a node below a method to the method. Just one variable may be passed, and it must be the
receiver parameter of the method. -/
def climb (signature : MethodSignature) : (passed : Option NodeId) → List Node → Bool
  | _, [] => false
  | passed, node :: above =>
    match node.kind with
    | .method name parameters receiver =>
      passed.isSome && receiver = passed && signature.fits name parameters
    | .variable _ _ => if passed.isSome then false else climb signature (some node.id) above
    | _ => climb signature passed above

/-- Whether a path leads to the place of the receiver annotation of a method with the given signature: the
receiver parameter of the method if it declares one, and the method otherwise. -/
def isPlace (signature : MethodSignature) (path : Path) : Bool :=
  match path.leaf.kind with
  | .method name parameters receiver => signature.fits name parameters && receiver.isNone
  | _ => climb signature none path.nodes.reverse

end Pinpoint.Receiver
