import Pinpoint.BinaryName.Rank
import Pinpoint.BinaryName.Segment

namespace Pinpoint

/-- The answer of a criterion, unless reading a class name breaks off. -/
abbrev Verdict := Except RankOverflow Bool

namespace BinaryName

/-- What reading a node comes to: the answer for the whole path, or the name that is left for the nodes
below, with whether they are inside a construction that the named class holds. -/
inductive Step where
  | decided (answer : Bool)
  | onward (inside : Bool) (rest : List Char)
deriving DecidableEq

/-- The part of a compilation unit: its package and a dot, if it has a package. -/
def readUnit (package : Option String) (inside : Bool) (rest : List Char) : Step :=
  match package with
  | none => .onward inside rest
  | some package =>
    match Text.after? (package.toList ++ ['.']) rest with
    | some rest => .onward inside rest
    | none => .decided false

/-- The part of a class with a name of its own: the name, alone or before a separator. A name that ends
here settles the matter unless the innermost class has to be the named one. -/
def readMember (exact : Bool) (name : String) (inside : Bool) (rest : List Char) : Step :=
  if rest = name.toList then
    if exact then .onward inside [] else .decided true
  else
    match Text.after? name.toList rest with
    | some (separator :: rest) =>
      if separator = '$' ∨ separator = '.' then .onward inside rest else .decided false
    | _ => .decided false

/-- The part of an anonymous class: its rank. -/
def readAnonymous (ranks : RankIndex) (id : NodeId) (inside : Bool) (rest : List Char) :
    Except RankOverflow Step :=
  match Segment.anonymous? rest with
  | none => .ok (.decided false)
  | some (digits, rest) =>
    (Segment.rank digits).map fun wanted =>
      if ranks.rank? id .anonymous = some wanted then .onward inside rest else .decided false

/-- The part of a local class: its rank and a start of its name, since tools may lengthen it. -/
def readLocal (ranks : RankIndex) (id : NodeId) (name : String) (inside : Bool) (rest : List Char) :
    Except RankOverflow Step :=
  match Segment.localClass? rest with
  | none => .ok (.decided false)
  | some (digits, start, rest) =>
    (Segment.rank digits).map fun wanted =>
      if ranks.rank? id .localClass = some wanted ∧ start.isPrefixOf name.toList then .onward inside rest
      else .decided false

/-- Reads one node, `above` being the kind of the node before it. The body of a construction has been read
with the construction; a construction reached with nothing left belongs to the named class, but the
members in it do not. -/
def readNode (ranks : RankIndex) (exact : Bool) (above : Option Kind) (inside : Bool)
    (rest : List Char) (node : Node) : Except RankOverflow Step :=
  match node.kind with
  | .unit _ => .ok (readUnit node.kind.package? inside rest)
  | .classDecl name _ =>
    match above with
    | some (.construction _) => .ok (.onward inside rest)
    | some .block => readLocal ranks node.id name inside rest
    | _ =>
      if name.isEmpty then readAnonymous ranks node.id inside rest
      else .ok (readMember exact name inside rest)
  | .construction body =>
    if rest.isEmpty then .ok (.onward true rest)
    else if body.isSome then readAnonymous ranks node.id inside rest
    else .ok (.onward inside rest)
  | .method _ _ _ | .variable _ _ => .ok (if inside then .decided false else .onward inside rest)
  | .block | .other _ => .ok (.onward inside rest)

/-- Reads the nodes of a path in turn; a path that ends undecided is in the class if nothing of the name
is left. -/
def walk (ranks : RankIndex) (exact : Bool) :
    (above : Option Kind) → (inside : Bool) → (rest : List Char) → List Node → Verdict
  | _, _, rest, [] => .ok rest.isEmpty
  | above, inside, rest, node :: below =>
    match readNode ranks exact above inside rest node with
    | .error overflow => .error overflow
    | .ok (.decided answer) => .ok answer
    | .ok (.onward inside rest) => walk ranks exact (some node.kind) inside rest below

/-- Whether a path leads into the class of a binary name; with `exact`, the innermost class around the
leaf must be the named one. The name is read outermost part first along the path, each node consuming its
part. -/
def covers (ranks : RankIndex) (exact : Bool) (name : String) (path : Path) : Verdict :=
  walk ranks exact none false name.toList path.nodes

end BinaryName

end Pinpoint
