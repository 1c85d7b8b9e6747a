import Pinpoint.Source.Tree

namespace Pinpoint

/-- A path, its nodes root first. A path holds at least the root. -/
structure Path where
  nodes : List Node
  nonempty : nodes ≠ []

namespace Path

/-- The path of a list of nodes that is not empty. -/
def ofNodes? : List Node → Option Path
  | [] => none
  | node :: below => some ⟨node :: below, List.cons_ne_nil node below⟩

/-- Any list of nodes but the empty one is a path. -/
theorem ofNodes?_eq_some_iff {nodes : List Node} {path : Path} :
    ofNodes? nodes = some path ↔ nodes = path.nodes := by
  obtain ⟨pathNodes, hne⟩ := path
  cases nodes with
  | nil => simpa [ofNodes?, eq_comm] using hne
  | cons node below => simp [ofNodes?]

/-- The ids of the nodes, root first. -/
def ids (path : Path) : List NodeId := path.nodes.map (·.id)

def length (path : Path) : Nat := path.nodes.length

/-- The node a path leads to. -/
def leaf (path : Path) : Node := path.nodes.getLast path.nonempty

/-- The path's first `count` nodes: the path to an ancestor. -/
def upTo? (path : Path) (count : Nat) : Option Path :=
  if count ≤ path.length then ofNodes? (path.nodes.take count) else none

/-- The path to the leaf's parent. -/
def toParent? (path : Path) : Option Path := path.upTo? (path.length - 1)

/-- The nodes' descriptions, root first. -/
def describe (path : Path) : String :=
  " > ".intercalate (path.nodes.map (·.kind.describe))

end Path

namespace Tree

/-- Puts a node and its ancestors before `below`, root first. Every step climbs one level and spends one
unit of `fuel`. -/
def climb (tree : Tree) : (fuel : Nat) → NodeId → (below : List Node) → List Node
  | 0, _, below => below
  | fuel + 1, id, below =>
    match tree.node? id with
    | none => below
    | some node =>
      match node.parent with
      | none => node :: below
      | some parent => tree.climb fuel parent (node :: below)

/-- What is below a node does not matter to what is above it. -/
theorem climb_append (tree : Tree) (fuel : Nat) (id : NodeId) (below : List Node) :
    tree.climb fuel id below = tree.climb fuel id [] ++ below := by
  induction fuel generalizing id below with
  | zero => simp [climb]
  | succ fuel ih =>
    simp only [climb]
    cases hnode : tree.node? id with
    | none => simp
    | some node =>
      cases hparent : node.parent with
      | none => simp [hparent]
      | some parent =>
        simp only [hparent]
        rw [ih parent (node :: below), ih parent [node]]
        simp

/-- A node with its ancestors, root first; empty for an unknown node. -/
def lineage (tree : Tree) (id : NodeId) : List Node := tree.climb tree.size id []

/-- The path to a node of the tree. -/
def path? (tree : Tree) (id : NodeId) : Option Path := Path.ofNodes? (tree.lineage id)

/-- The nearest class-like ancestor of a node, the node itself not counted. -/
def scope? (tree : Tree) (id : NodeId) : Option NodeId :=
  ((tree.lineage id).dropLast.reverse.find? (·.kind.isClass)).map (·.id)

/-- The nodes of `ids`, each of which must be a child of the one before; `above` is the id before the
first, at depth `depth - 1`. -/
def descend (tree : Tree) (depth : Nat) (above : NodeId) :
    List NodeId → Except TreeFault (List Node)
  | [] => .ok []
  | id :: rest =>
    match tree.node? id with
    | none => .error (.brokenPath depth id)
    | some node =>
      if node.parent = some above then do
        return node :: (← tree.descend (depth + 1) id rest)
      else .error (.brokenPath depth id)

/-- The path through the given ids, which must start at the root and follow parent links. -/
def pathThrough (tree : Tree) : List NodeId → Except TreeFault Path
  | [] => .error .emptyPath
  | first :: rest =>
    match tree.node? first with
    | none => .error (.brokenPath 0 first)
    | some root =>
      if first = 0 then do
        return ⟨root :: (← tree.descend 1 first rest), List.cons_ne_nil _ _⟩
      else .error (.brokenPath 0 first)

end Tree

end Pinpoint
