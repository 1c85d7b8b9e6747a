import Pinpoint.Source.Kind

namespace Pinpoint

/-- A node of a syntax tree. -/
structure Node where
  id : NodeId
  parent : Option NodeId
  children : List NodeId
  kind : Kind
deriving DecidableEq

/-- A syntax tree: its nodes in the order in which they joined it. A node's id is its position, so a parent
always precedes its children. -/
structure Tree where
  nodes : Array Node
deriving DecidableEq

/-- Why a tree, or a path in one, cannot be built. -/
inductive TreeFault where
  | rootNotUnit (found : String)
  | nestedUnit (parent : NodeId)
  | unknownParent (parent : NodeId)
  | secondBody (construction : NodeId)
  | secondReceiver (method : NodeId)
  | strayReceiver (parent : NodeId)
  | emptyPath
  | brokenPath (depth : Nat) (node : NodeId)
deriving DecidableEq

namespace TreeFault

def message : TreeFault → String
  | .rootNotUnit found => "tree root must be a compilation unit, found " ++ found
  | .nestedUnit parent =>
    "compilation unit cannot be nested under node " ++ parent.label
  | .unknownParent parent => "unknown parent node " ++ parent.label
  | .secondBody construction =>
    "object construction " ++ construction.label ++ " already has an inline class body"
  | .secondReceiver method =>
    "method " ++ method.label ++ " already declares a receiver parameter"
  | .strayReceiver parent =>
    "receiver parameter must be declared directly under a method, not under " ++ parent.label
  | .emptyPath => "syntax path is empty"
  | .brokenPath depth node =>
    "syntax path is broken at depth " ++ toString depth ++ " (node " ++ node.label ++ ")"

end TreeFault

namespace Kind

/-- Whether a child of kind `child` may join the node `id` of kind `own`. A file is the root only, a
construction has one body, a method one receiver, and only a method has a receiver. -/
def allow (id : NodeId) (own child : Kind) : Except TreeFault Unit :=
  match child, own with
  | .unit _, _ => .error (.nestedUnit id)
  | .classDecl _ _, .construction (some _) => .error (.secondBody id)
  | .variable _ true, .method _ _ (some _) => .error (.secondReceiver id)
  | .variable _ true, .method _ _ none => .ok ()
  | .variable _ true, _ => .error (.strayReceiver id)
  | _, _ => .ok ()

/-- The kind of a node once the child `id` has joined it: a class becomes the body of a construction,
a receiver parameter the receiver of a method. -/
def wire (own : Kind) (id : NodeId) (child : Kind) : Kind :=
  match own, child with
  | .construction _, .classDecl _ _ => .construction (some id)
  | .method name parameters _, .variable _ true => .method name parameters (some id)
  | own, _ => own

end Kind

/-- The node once the child `id` of kind `child` has joined it. -/
def Node.adopt (node : Node) (id : NodeId) (child : Kind) : Node :=
  { node with children := node.children ++ [id], kind := node.kind.wire id child }

namespace Tree

/-- The tree of a root alone. -/
def leaf (kind : Kind) : Tree := ⟨#[⟨0, none, [], kind⟩]⟩

/-- The tree of an empty file. -/
def unit (package : Option String) : Tree := leaf (.unit package)

/-- The tree of a root alone, which must be a compilation unit. -/
def ofRoot (kind : Kind) : Except TreeFault Tree :=
  if kind.isUnit then .ok (leaf kind)
  else .error (.rootNotUnit kind.tag)

/-- The number of nodes, the root included. -/
def size (tree : Tree) : Nat := tree.nodes.size

/-- The node of a given id. -/
def node? (tree : Tree) (id : NodeId) : Option Node := tree.nodes[id]?

/-- The kind of a node. -/
def kind? (tree : Tree) (id : NodeId) : Option Kind := (tree.node? id).map (·.kind)

/-- The parent of a node that has one. -/
def parent? (tree : Tree) (id : NodeId) : Option NodeId := (tree.node? id).bind (·.parent)

/-- The children of a node in the order in which they joined it. -/
def children (tree : Tree) (id : NodeId) : List NodeId :=
  match tree.node? id with
  | some node => node.children
  | none => []

/-- Adds a last child to `parent`. The new node's id is the former size; what `kind` carries beyond its
declaration is dropped. A refused child leaves nothing behind. -/
def push (tree : Tree) (parent : NodeId) (kind : Kind) : Except TreeFault Tree :=
  match tree.node? parent with
  | none => .error (.unknownParent parent)
  | some owner =>
    match owner.kind.allow parent kind with
    | .error error => .error error
    | .ok () =>
      let id := tree.size
      .ok ⟨(tree.nodes.modify parent (·.adopt id kind)).push ⟨id, some parent, [], kind.declared⟩⟩

/-- A push succeeds just when the parent is there and takes the child. -/
theorem push_eq_ok_iff {tree grown : Tree} {parent : NodeId} {kind : Kind} :
    tree.push parent kind = .ok grown ↔
      ∃ owner, tree.node? parent = some owner ∧ owner.kind.allow parent kind = .ok () ∧
        grown = ⟨(tree.nodes.modify parent (·.adopt tree.size kind)).push
          ⟨tree.size, some parent, [], kind.declared⟩⟩ := by
  unfold push
  cases hnode : tree.node? parent with
  | none => simp
  | some owner =>
    cases hallow : owner.kind.allow parent kind with
    | error error => simp [hallow]
    | ok _ => simp [hallow, eq_comm]

/-- A push adds one node. -/
theorem size_of_push {tree grown : Tree} {parent : NodeId} {kind : Kind}
    (hpush : tree.push parent kind = .ok grown) : grown.size = tree.size + 1 := by
  obtain ⟨owner, hnode, hallow, rfl⟩ := push_eq_ok_iff.mp hpush
  simp [size]

/-- A push adds the new node and changes no other node but its parent. -/
theorem node?_of_push {tree grown : Tree} {parent : NodeId} {kind : Kind}
    (hpush : tree.push parent kind = .ok grown) (id : NodeId) :
    grown.node? id =
      if id = tree.size then some ⟨tree.size, some parent, [], kind.declared⟩
      else if id = parent then (tree.node? id).map (·.adopt tree.size kind)
      else tree.node? id := by
  obtain ⟨owner, hnode, hallow, rfl⟩ := push_eq_ok_iff.mp hpush
  simp only [node?, Array.getElem?_push, Array.size_modify, Array.getElem?_modify, size]
  by_cases hid : id = tree.nodes.size
  · simp [hid]
  · by_cases hparent : parent = id
    · simp [hid, hparent]
    · simp [hid, hparent, Ne.symm hparent]

/-- Reads the subtrees of a list of nodes, taking the first node and putting its children in its place.
Every step lists one node and spends one unit of `fuel`. -/
def visit (tree : Tree) : (fuel : Nat) → List NodeId → List NodeId
  | 0, _ => []
  | _ + 1, [] => []
  | fuel + 1, id :: pending => id :: tree.visit fuel (tree.children id ++ pending)

/-- All ids in pre-order, which is the order of declaration in the source. -/
def preorder (tree : Tree) : List NodeId := tree.visit tree.size [0]

end Tree

end Pinpoint
