import Pinpoint.Source.Tree

namespace Pinpoint

/-- A node with the outlines of its children. -/
structure Outline where
  kind : Kind
  children : List Outline

namespace Tree

mutual

/-- Grows an outline under `parent`, each node before its children. -/
def graft (tree : Tree) (parent : NodeId) : Outline → Except TreeFault Tree
  | ⟨kind, children⟩ =>
    match tree.push parent kind with
    | .error error => .error error
    | .ok grown => grown.graftAll tree.size children

/-- Grows outlines under `parent`, one after the other. -/
def graftAll (tree : Tree) (parent : NodeId) : List Outline → Except TreeFault Tree
  | [] => .ok tree
  | outline :: rest =>
    match tree.graft parent outline with
    | .error error => .error error
    | .ok grown => grown.graftAll parent rest

end

/-- An outline has grown when its root has joined and its children have grown under it. -/
theorem graft_eq_ok_iff {tree grown : Tree} {parent : NodeId} {outline : Outline} :
    tree.graft parent outline = .ok grown ↔
      ∃ next, tree.push parent outline.kind = .ok next ∧
        next.graftAll tree.size outline.children = .ok grown := by
  obtain ⟨kind, children⟩ := outline
  rw [graft]
  cases tree.push parent kind <;> simp

/-- Outlines grow one after the other. -/
theorem graftAll_cons_eq_ok_iff {tree grown : Tree} {parent : NodeId} {outline : Outline}
    {rest : List Outline} :
    tree.graftAll parent (outline :: rest) = .ok grown ↔
      ∃ next, tree.graft parent outline = .ok next ∧ next.graftAll parent rest = .ok grown := by
  rw [graftAll]
  cases tree.graft parent outline <;> simp

/-- The tree of an outline, whose root must be a compilation unit. -/
def ofOutline (outline : Outline) : Except TreeFault Tree :=
  match ofRoot outline.kind with
  | .error error => .error error
  | .ok tree => tree.graftAll 0 outline.children

/-- An outline has grown when its root is a file and its children have grown under it. -/
theorem ofOutline_eq_ok_iff {outline : Outline} {tree : Tree} :
    ofOutline outline = .ok tree ↔
      ∃ package, outline.kind = .unit package ∧
        (leaf (.unit package)).graftAll 0 outline.children = .ok tree := by
  rw [ofOutline, ofRoot]
  cases outline.kind <;> simp [Kind.isUnit]

end Tree

end Pinpoint
