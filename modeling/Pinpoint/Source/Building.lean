import Pinpoint.Source.Tree

namespace Pinpoint

/-- Work on a tree in place. Where it breaks off with a fault, the tree stays as it has been written so
far. -/
abbrev Building := ExceptT TreeFault (StateM Tree)

namespace Building

/-- The outcome of work on a tree, and the tree that it leaves. -/
def on {α : Type} (work : Building α) (tree : Tree) : Except TreeFault α × Tree := work.run.run tree

/-- Rewrites a node in its place. -/
def rewrite (id : NodeId) (change : Node → Node) : Building Unit :=
  modify fun tree => ⟨tree.nodes.modify id change⟩

/-- Writes a node behind all others. -/
def append (node : Node) : Building Unit := modify fun tree => ⟨tree.nodes.push node⟩

/-- Breaks off unless `parent` is there and takes a child of the given kind. -/
def check (parent : NodeId) (kind : Kind) : Building Unit := do
  match (← get).node? parent with
  | none => throw (.unknownParent parent)
  | some owner => ofExcept (owner.kind.allow parent kind)

/-- Writes a last child of `parent` and gives back its id: the parent is wired to it and lists it, and then
it joins the nodes. -/
def write (parent : NodeId) (kind : Kind) : Building NodeId := do
  let id := (← get).size
  rewrite parent fun node => { node with kind := node.kind.wire id kind }
  rewrite parent fun node => { node with children := node.children ++ [id] }
  append ⟨id, some parent, [], kind.declared⟩
  return id

/-- Adds a last child to `parent` and gives back its id. -/
def push (parent : NodeId) (kind : Kind) : Building NodeId := do
  check parent kind
  write parent kind

/-- Work in two parts: the second goes on from the tree that the first leaves, unless that broke off. -/
theorem bind_on {α β : Type} (work : Building α) (next : α → Building β) (tree : Tree) :
    (work >>= next).on tree =
      match work.on tree with
      | (.ok value, left) => (next value).on left
      | (.error fault, left) => (.error fault, left) := by
  have hrun : (work >>= next).on tree =
      (ExceptT.bindCont next (work.run.run tree).1).run (work.run.run tree).2 := rfl
  rw [hrun, on]
  cases work.run.run tree with
  | mk outcome left => cases outcome <;> rfl

/-- The check reads the tree and leaves it as it is. -/
theorem check_on (parent : NodeId) (kind : Kind) (tree : Tree) :
    (check parent kind).on tree =
      ((match tree.node? parent with
        | none => .error (.unknownParent parent)
        | some owner => owner.kind.allow parent kind), tree) := by
  rw [check, bind_on]
  change on (match tree.node? parent with
    | none => throw (.unknownParent parent)
    | some owner => ofExcept (owner.kind.allow parent kind)) tree = _
  cases tree.node? parent with
  | none => rfl
  | some owner =>
    dsimp only
    cases owner.kind.allow parent kind <;> rfl

/-- Two writes to one node come to one. -/
theorem modify_modify {nodes : Array Node} {id : NodeId} {first second : Node → Node} :
    (nodes.modify id first).modify id second = nodes.modify id fun node => second (first node) := by
  apply Array.ext_getElem?
  intro other
  simp only [Array.getElem?_modify]
  by_cases hother : id = other
  · simp [hother, Function.comp_def]
  · simp [hother]

/-- A write puts the new node at the end and tells its parent of it. -/
theorem write_on (parent : NodeId) (kind : Kind) (tree : Tree) :
    (write parent kind).on tree =
      (.ok tree.size, ⟨(tree.nodes.modify parent (·.adopt tree.size kind)).push
        ⟨tree.size, some parent, [], kind.declared⟩⟩) := by
  have hwrites : (write parent kind).on tree =
      (.ok tree.size, ⟨((tree.nodes.modify parent
          fun node => { node with kind := node.kind.wire tree.size kind }).modify parent
          fun node => { node with children := node.children ++ [tree.size] }).push
        ⟨tree.size, some parent, [], kind.declared⟩⟩) := rfl
  rw [hwrites, modify_modify]
  rfl

/-- Pushed in place, a node is taken or refused as by `Tree.push`; a refused one leaves no write behind. -/
theorem push_on (parent : NodeId) (kind : Kind) (tree : Tree) :
    (push parent kind).on tree =
      match tree.push parent kind with
      | .ok grown => (.ok tree.size, grown)
      | .error fault => (.error fault, tree) := by
  rw [push, bind_on, check_on, Tree.push]
  cases hnode : tree.node? parent with
  | none => rfl
  | some owner =>
    dsimp only
    cases owner.kind.allow parent kind with
    | error fault => rfl
    | ok _ => exact write_on parent kind tree

end Building

end Pinpoint
