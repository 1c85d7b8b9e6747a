import Mathlib.Data.List.Basic
import Mathlib.Tactic.Common
import Pinpoint.Source.Outline

namespace Pinpoint

namespace Kind

/-- A child is taken unless it is a file, a second body, a second receiver or a stray receiver. -/
theorem allow_eq_ok_iff {id : NodeId} {own child : Kind} :
    own.allow id child = .ok () ↔
      child.isUnit = false ∧
      (child.isClass = true → own.isConstruction = true → own.body? = none) ∧
      (child.isReceiver = true → own.isMethod = true ∧ own.receiver? = none) := by
  cases child with
  | unit package => simp [allow, isUnit]
  | classDecl name flavor =>
    cases own with
    | construction body =>
      cases body <;> simp [allow, isUnit, isClass, isConstruction, body?, isReceiver]
    | _ => simp [allow, isUnit, isClass, isConstruction, isReceiver]
  | «variable» name flagged =>
    cases flagged with
    | false => simp [allow, isUnit, isClass, isReceiver]
    | true =>
      cases own with
      | method name parameters receiver =>
        cases receiver <;> simp [allow, isUnit, isClass, isReceiver, isMethod, receiver?]
      | _ => simp [allow, isUnit, isClass, isReceiver, isMethod]
  | _ => simp [allow, isUnit, isClass, isReceiver]

@[simp]
theorem isUnit_declared (kind : Kind) : kind.declared.isUnit = kind.isUnit := by cases kind <;> rfl

@[simp]
theorem isClass_declared (kind : Kind) : kind.declared.isClass = kind.isClass := by cases kind <;> rfl

@[simp]
theorem isConstruction_declared (kind : Kind) :
    kind.declared.isConstruction = kind.isConstruction := by cases kind <;> rfl

@[simp]
theorem isMethod_declared (kind : Kind) : kind.declared.isMethod = kind.isMethod := by
  cases kind <;> rfl

@[simp]
theorem isReceiver_declared (kind : Kind) : kind.declared.isReceiver = kind.isReceiver := by
  cases kind <;> rfl

@[simp]
theorem declared_declared (kind : Kind) : kind.declared.declared = kind.declared := by cases kind <;> rfl

@[simp]
theorem body?_declared (kind : Kind) : kind.declared.body? = none := by cases kind <;> rfl

@[simp]
theorem receiver?_declared (kind : Kind) : kind.declared.receiver? = none := by cases kind <;> rfl

/-- What is wired when a child joins is not part of the declaration. -/
@[simp]
theorem declared_wire (own : Kind) (id : NodeId) (child : Kind) :
    (own.wire id child).declared = own.declared := by
  unfold wire
  split <;> rfl

/-- A class that joins a construction is its body afterwards; nothing else changes a body. -/
theorem body?_wire (own : Kind) (id : NodeId) (child : Kind) :
    (own.wire id child).body? =
      if own.isConstruction = true ∧ child.isClass = true then some id else own.body? := by
  cases own with
  | construction body => cases child <;> simp [wire, body?, isConstruction, isClass]
  | method name parameters receiver =>
    cases child with
    | «variable» name flagged => cases flagged <;> simp [wire, body?, isConstruction]
    | _ => simp [wire, body?, isConstruction]
  | _ => cases child <;> simp [wire, body?, isConstruction]

/-- A receiver parameter that joins a method is its receiver afterwards; nothing else changes a
receiver. -/
theorem receiver?_wire (own : Kind) (id : NodeId) (child : Kind) :
    (own.wire id child).receiver? =
      if own.isMethod = true ∧ child.isReceiver = true then some id else own.receiver? := by
  cases own with
  | method name parameters receiver =>
    cases child with
    | «variable» name flagged => cases flagged <;> simp [wire, receiver?, isMethod, isReceiver]
    | _ => simp [wire, receiver?, isMethod, isReceiver]
  | _ => cases child <;> simp [wire, receiver?, isMethod]

end Kind

namespace Node

variable (node : Node) (joins : Prop) [Decidable joins] (id : NodeId) (child : Kind)

theorem id_of_adopt : (if joins then node.adopt id child else node).id = node.id := by
  split <;> rfl

theorem parent_of_adopt : (if joins then node.adopt id child else node).parent = node.parent := by
  split <;> rfl

/-- Adopting a child does not change what a node is declared to be. -/
theorem declared_of_adopt :
    (if joins then node.adopt id child else node).kind.declared = node.kind.declared := by
  split
  · exact Kind.declared_wire node.kind id child
  · rfl

end Node

namespace Tree

/-- The trees that pushes build, from an empty file or from a root given by its kind. A push that is
refused leaves the tree as it was, so only the others count. -/
inductive Grown : Tree → Prop where
  | unit (package : Option String) : Grown (Tree.unit package)
  | ofRoot {kind : Kind} {tree : Tree} (hroot : Tree.ofRoot kind = .ok tree) : Grown tree
  | push {tree grown : Tree} {parent : NodeId} {kind : Kind} (htree : Grown tree)
      (hpush : tree.push parent kind = .ok grown) : Grown grown

/-- A child of a node whose kind has a given property. -/
def HasChild (tree : Tree) (p : Kind → Bool) (id child : NodeId) : Prop :=
  ∃ node, tree.node? child = some node ∧ node.parent = some id ∧ p node.kind = true

/-- What the nodes of a kind are wired to are just their children of another kind, so each has at most
one such child. -/
def Wires (tree : Tree) (owns fits : Kind → Bool) (wired? : Kind → Option NodeId) : Prop :=
  ∀ {id node}, tree.node? id = some node → owns node.kind = true →
    ∀ child, wired? node.kind = some child ↔ tree.HasChild fits id child

/-- The shape of a tree that has grown from a root. -/
structure WellFormed (tree : Tree) : Prop where
  id_eq : ∀ {id node}, tree.node? id = some node → node.id = id
  root : ∃ node, tree.node? 0 = some node ∧ node.parent = none ∧ node.kind.isUnit = true
  parent_lt : ∀ {id node}, tree.node? id = some node → id ≠ 0 →
    node.kind.isUnit = false ∧ ∃ parent, node.parent = some parent ∧ parent < id
  children_eq : ∀ {id node}, tree.node? id = some node →
    node.children = (List.range tree.size).filter fun child => tree.parent? child = some id
  body_iff : tree.Wires Kind.isConstruction Kind.isClass Kind.body?
  receiver_iff : tree.Wires Kind.isMethod Kind.isReceiver Kind.receiver?
  receiver_parent : ∀ {id parent}, tree.HasChild Kind.isReceiver parent id →
    ∃ owner, tree.node? parent = some owner ∧ owner.kind.isMethod = true

/-- The nodes of a tree are those with an id below its size. -/
theorem node?_isSome_iff {tree : Tree} {id : NodeId} :
    (∃ node, tree.node? id = some node) ↔ id < tree.size := by
  unfold node? size
  constructor
  · rintro ⟨node, hnode⟩
    exact (Array.getElem?_eq_some_iff.mp hnode).1
  · intro hid
    exact ⟨tree.nodes[id], Array.getElem?_eq_getElem hid⟩

theorem lt_size_of_node? {tree : Tree} {id : NodeId} {node : Node}
    (hnode : tree.node? id = some node) : id < tree.size :=
  node?_isSome_iff.mp ⟨node, hnode⟩

theorem node?_eq_none {tree : Tree} {id : NodeId} (hid : ¬ id < tree.size) : tree.node? id = none := by
  cases hnode : tree.node? id with
  | none => rfl
  | some node => exact absurd (lt_size_of_node? hnode) hid

/-- A parent comes before its child. -/
theorem WellFormed.lt_of_parent {tree : Tree} (hwf : tree.WellFormed) {id parent : NodeId} {node : Node}
    (hnode : tree.node? id = some node) (hparent : node.parent = some parent) : parent < id := by
  by_cases hzero : id = 0
  · obtain ⟨root, hroot, hnone, -⟩ := hwf.root
    rw [hzero, hroot, Option.some.injEq] at hnode
    rw [← hnode, hnone] at hparent
    cases hparent
  · obtain ⟨-, above, habove, hlt⟩ := hwf.parent_lt hnode hzero
    rw [hparent, Option.some.injEq] at habove
    exact habove ▸ hlt

/-- A parent is a node of the tree. -/
theorem WellFormed.lt_size_of_parent? {tree : Tree} (hwf : tree.WellFormed) {id parent : NodeId}
    (hparent : tree.parent? id = some parent) : parent < tree.size := by
  obtain ⟨node, hnode, hlink⟩ := Option.bind_eq_some_iff.mp hparent
  exact Nat.lt_trans (hwf.lt_of_parent hnode hlink) (lt_size_of_node? hnode)

theorem parent?_of_hasChild {tree : Tree} {p : Kind → Bool} {id child : NodeId}
    (hchild : tree.HasChild p id child) : tree.parent? child = some id := by
  obtain ⟨node, hnode, hparent, -⟩ := hchild
  rw [parent?, hnode, Option.bind_some, hparent]

/-- Wiring leaves a node at most one child of the wired kind. -/
theorem Wires.unique {tree : Tree} {owns fits : Kind → Bool} {wired? : Kind → Option NodeId}
    (hwires : tree.Wires owns fits wired?) {id child other : NodeId} {node : Node}
    (hnode : tree.node? id = some node) (hown : owns node.kind = true)
    (hchild : tree.HasChild fits id child) (hother : tree.HasChild fits id other) : child = other := by
  have hfirst := (hwires hnode hown child).mpr hchild
  rw [(hwires hnode hown other).mpr hother, Option.some.injEq] at hfirst
  exact hfirst.symm

/-- A push adds one node, and its parent adopts it; of the other nodes nothing changes. -/
theorem node_cases_of_push {tree grown : Tree} {parent : NodeId} {kind : Kind}
    (hpush : tree.push parent kind = .ok grown) {id : NodeId} {node : Node}
    (hnode : grown.node? id = some node) :
    (id = tree.size ∧ node = ⟨tree.size, some parent, [], kind.declared⟩) ∨
      ∃ old, tree.node? id = some old ∧
        node = if id = parent then old.adopt tree.size kind else old := by
  rw [node?_of_push hpush] at hnode
  by_cases hid : id = tree.size
  · simp only [hid, if_true, Option.some.injEq] at hnode
    exact .inl ⟨hid, hnode.symm⟩
  · rw [if_neg hid] at hnode
    by_cases hparent : id = parent
    · rw [if_pos hparent, Option.map_eq_some_iff] at hnode
      obtain ⟨old, hold, hadopt⟩ := hnode
      exact .inr ⟨old, hold, by rw [if_pos hparent, hadopt]⟩
    · rw [if_neg hparent] at hnode
      exact .inr ⟨node, hnode, by rw [if_neg hparent]⟩

section Push

variable {tree grown : Tree} {parent : NodeId} {kind : Kind}

/-- Where a node of the tree stands after a push. -/
theorem node?_of_push_old (hpush : tree.push parent kind = .ok grown) {id : NodeId} {old : Node}
    (hold : tree.node? id = some old) :
    grown.node? id = some (if id = parent then old.adopt tree.size kind else old) := by
  have hne : id ≠ tree.size := Nat.ne_of_lt (lt_size_of_node? hold)
  rw [node?_of_push hpush, if_neg hne]
  by_cases hparent : id = parent
  · rw [if_pos hparent, hold, if_pos hparent, Option.map_some]
  · rw [if_neg hparent, hold, if_neg hparent]

/-- A push that is taken has a parent in the tree. -/
theorem parent_lt_size_of_push (hpush : tree.push parent kind = .ok grown) : parent < tree.size := by
  obtain ⟨owner, howner, -⟩ := push_eq_ok_iff.mp hpush
  exact lt_size_of_node? howner

/-- Only the new node gets a parent by a push. -/
theorem parent?_of_push (hpush : tree.push parent kind = .ok grown) (id : NodeId) :
    grown.parent? id = if id = tree.size then some parent else tree.parent? id := by
  unfold parent?
  rw [node?_of_push hpush]
  by_cases hid : id = tree.size
  · simp [hid]
  · rw [if_neg hid, if_neg hid]
    by_cases hparent : id = parent
    · rw [if_pos hparent]
      cases tree.node? id <;> rfl
    · rw [if_neg hparent]

/-- The children of a kind after a push are those before it and, where it fits, the new node. -/
theorem hasChild_of_push (hpush : tree.push parent kind = .ok grown) {p : Kind → Bool}
    (hp : ∀ kind : Kind, p kind.declared = p kind) {id child : NodeId} :
    grown.HasChild p id child ↔
      tree.HasChild p id child ∨ (child = tree.size ∧ id = parent ∧ p kind = true) := by
  have hadopt (old : Node) :
      p (if child = parent then old.adopt tree.size kind else old).kind = p old.kind := by
    rw [← hp, Node.declared_of_adopt, hp]
  constructor
  · rintro ⟨node, hnode, hparent, hfits⟩
    obtain ⟨hsize, rfl⟩ | ⟨old, hold, rfl⟩ := node_cases_of_push hpush hnode
    · rw [Option.some.injEq] at hparent
      exact .inr ⟨hsize, hparent.symm, by rwa [hp] at hfits⟩
    · rw [Node.parent_of_adopt] at hparent
      exact .inl ⟨old, hold, hparent, by rwa [hadopt] at hfits⟩
  · rintro (⟨old, hold, hparent, hfits⟩ | ⟨rfl, rfl, hfits⟩)
    · exact ⟨_, node?_of_push_old hpush hold, by rwa [Node.parent_of_adopt], by rwa [hadopt]⟩
    · exact ⟨_, by rw [node?_of_push hpush, if_pos rfl], rfl, by rwa [hp]⟩

/-- Wiring stays exact over a push: a push that would wire a node a second time is refused. -/
theorem Wires.push (hpush : tree.push parent kind = .ok grown) (hwf : tree.WellFormed)
    {owns fits : Kind → Bool} {wired? : Kind → Option NodeId} (hwires : tree.Wires owns fits wired?)
    (howns : ∀ kind : Kind, owns kind.declared = owns kind)
    (hfits : ∀ kind : Kind, fits kind.declared = fits kind)
    (hdeclared : ∀ kind : Kind, wired? kind.declared = none)
    (hwire : ∀ (own : Kind) (id : NodeId) (child : Kind), wired? (own.wire id child) =
      if owns own = true ∧ fits child = true then some id else wired? own)
    (hallow : ∀ (id : NodeId) (own child : Kind), own.allow id child = .ok () →
      fits child = true → owns own = true → wired? own = none) :
    grown.Wires owns fits wired? := by
  intro id node hnode hown child
  rw [hasChild_of_push hpush hfits]
  obtain ⟨rfl, rfl⟩ | ⟨old, hold, rfl⟩ := node_cases_of_push hpush hnode
  · have hchild : ¬ tree.HasChild fits tree.size child := fun hchild =>
      Nat.lt_irrefl _ (hwf.lt_size_of_parent? (parent?_of_hasChild hchild))
    have hparent := Nat.ne_of_gt (parent_lt_size_of_push hpush)
    simp [hdeclared, hchild, hparent]
  · by_cases hparent : id = parent
    · subst hparent
      obtain ⟨owner, howner, hallowed, -⟩ := push_eq_ok_iff.mp hpush
      rw [hold, Option.some.injEq] at howner
      subst howner
      have hownOld : owns old.kind = true := by
        rwa [if_pos rfl, Node.adopt, ← howns, Kind.declared_wire, howns] at hown
      rw [if_pos rfl, Node.adopt, hwire, ← hwires hold hownOld]
      by_cases hkind : fits kind = true
      · simp [hownOld, hkind, hallow _ _ _ hallowed hkind hownOld, eq_comm]
      · simp [hkind]
    · rw [if_neg hparent] at hown ⊢
      simp [hwires hold hown, hparent]

/-- Lists of children keep following the parent links: only the parent's list grows, at its end. -/
theorem WellFormed.children_eq_push (hwf : tree.WellFormed) (hpush : tree.push parent kind = .ok grown)
    {id : NodeId} {node : Node} (hnode : grown.node? id = some node) :
    node.children =
      (List.range grown.size).filter fun child => grown.parent? child = some id := by
  have hbefore : (List.range tree.size).filter (fun child => grown.parent? child = some id) =
      (List.range tree.size).filter fun child => tree.parent? child = some id := by
    apply List.filter_congr
    intro child hchild
    rw [parent?_of_push hpush, if_neg (Nat.ne_of_lt (List.mem_range.mp hchild))]
  rw [size_of_push hpush, List.range_succ, List.filter_append, hbefore]
  have hlast := parent?_of_push hpush tree.size
  rw [if_pos rfl] at hlast
  obtain ⟨rfl, rfl⟩ | ⟨old, hold, rfl⟩ := node_cases_of_push hpush hnode
  · have hnone : ∀ child ∈ List.range tree.size, ¬ tree.parent? child = some tree.size := by
      intro child _ hparent
      exact Nat.lt_irrefl _ (hwf.lt_size_of_parent? hparent)
    have hparent := Nat.ne_of_lt (parent_lt_size_of_push hpush)
    simpa [hlast, hparent] using hnone
  · by_cases hparent : id = parent
    · simp [hparent, Node.adopt, hlast, hwf.children_eq (hparent ▸ hold)]
    · simp [hparent, hlast, Ne.symm hparent, hwf.children_eq hold]

/-- A push keeps the shape. -/
theorem WellFormed.push (hwf : tree.WellFormed) (hpush : tree.push parent kind = .ok grown) :
    grown.WellFormed := by
  obtain ⟨owner, howner, hallowed, -⟩ := push_eq_ok_iff.mp hpush
  obtain ⟨hunit, -, hreceiver⟩ := Kind.allow_eq_ok_iff.mp hallowed
  have hparent := parent_lt_size_of_push hpush
  refine ⟨?_, ?_, ?_, hwf.children_eq_push hpush, ?_, ?_, ?_⟩
  · intro id node hnode
    obtain ⟨rfl, rfl⟩ | ⟨old, hold, rfl⟩ := node_cases_of_push hpush hnode
    · rfl
    · rw [Node.id_of_adopt, hwf.id_eq hold]
  · obtain ⟨root, hroot, hnone, hrootUnit⟩ := hwf.root
    refine ⟨_, node?_of_push_old hpush hroot, by rw [Node.parent_of_adopt, hnone], ?_⟩
    rw [← Kind.isUnit_declared, Node.declared_of_adopt, Kind.isUnit_declared, hrootUnit]
  · intro id node hnode hzero
    obtain ⟨rfl, rfl⟩ | ⟨old, hold, rfl⟩ := node_cases_of_push hpush hnode
    · exact ⟨by rwa [Kind.isUnit_declared], parent, rfl, hparent⟩
    · rw [← Kind.isUnit_declared, Node.declared_of_adopt, Kind.isUnit_declared, Node.parent_of_adopt]
      exact hwf.parent_lt hold hzero
  · exact Wires.push hpush hwf hwf.body_iff Kind.isConstruction_declared Kind.isClass_declared
      Kind.body?_declared Kind.body?_wire fun id own child hallow =>
        (Kind.allow_eq_ok_iff.mp hallow).2.1
  · exact Wires.push hpush hwf hwf.receiver_iff Kind.isMethod_declared Kind.isReceiver_declared
      Kind.receiver?_declared Kind.receiver?_wire fun id own child hallow hfits _ =>
        ((Kind.allow_eq_ok_iff.mp hallow).2.2 hfits).2
  · intro id above hchild
    -- a method is still one after the push, whether it is the parent or not
    have hmethod {old : Node} (hold : tree.node? above = some old) (h : old.kind.isMethod = true) :
        ∃ owner, grown.node? above = some owner ∧ owner.kind.isMethod = true := by
      refine ⟨_, node?_of_push_old hpush hold, ?_⟩
      rw [← Kind.isMethod_declared, Node.declared_of_adopt, Kind.isMethod_declared, h]
    rw [hasChild_of_push hpush Kind.isReceiver_declared] at hchild
    obtain hchild | ⟨-, rfl, hfits⟩ := hchild
    · obtain ⟨old, hold, h⟩ := hwf.receiver_parent hchild
      exact hmethod hold h
    · exact hmethod howner (hreceiver hfits).1

end Push

/-- A tree of one node has that node at its root. -/
theorem node?_leaf (kind : Kind) (id : NodeId) :
    (leaf kind).node? id = if id = 0 then some ⟨0, none, [], kind⟩ else none := by
  cases id <;> simp [node?, leaf]

/-- A root alone has the shape. -/
theorem wellFormed_leaf (package : Option String) : (leaf (.unit package)).WellFormed := by
  have hchild {p : Kind → Bool} {id child : NodeId} :
      ¬ (leaf (.unit package)).HasChild p id child := by
    rintro ⟨node, hnode, hparent, -⟩
    rw [node?_leaf] at hnode
    split at hnode
    · cases hnode
      cases hparent
    · cases hnode
  have honly {id : NodeId} {node : Node} (hnode : (leaf (.unit package)).node? id = some node) :
      id = 0 ∧ node = ⟨0, none, [], .unit package⟩ := by
    rw [node?_leaf] at hnode
    split at hnode
    · rename_i hid
      exact ⟨hid, (Option.some.inj hnode).symm⟩
    · cases hnode
  refine ⟨?_, ⟨_, node?_leaf _ 0, rfl, rfl⟩, ?_, ?_, ?_, ?_, ?_⟩
  · intro id node hnode
    obtain ⟨rfl, rfl⟩ := honly hnode
    rfl
  · intro id node hnode hzero
    exact absurd (honly hnode).1 hzero
  · intro id node hnode
    obtain ⟨rfl, rfl⟩ := honly hnode
    rfl
  · intro id node hnode hown
    obtain ⟨rfl, rfl⟩ := honly hnode
    cases hown
  · intro id node hnode hown
    obtain ⟨rfl, rfl⟩ := honly hnode
    cases hown
  · intro id parent h
    exact absurd h hchild

/-- Every tree that has grown from a root has the shape. -/
theorem Grown.wellFormed {tree : Tree} (htree : tree.Grown) : tree.WellFormed := by
  induction htree with
  | unit package => exact wellFormed_leaf package
  | @ofRoot kind tree hroot =>
    cases kind with
    | unit package =>
      cases hroot
      exact wellFormed_leaf package
    | _ => cases hroot
  | push htree hpush ih => exact ih.push hpush

mutual

/-- An outline grows by pushes. -/
theorem Grown.graft {tree grown : Tree} {parent : NodeId} {outline : Outline} (htree : tree.Grown)
    (hgraft : tree.graft parent outline = .ok grown) : grown.Grown := by
  obtain ⟨kind, children⟩ := outline
  obtain ⟨next, hpush, hchildren⟩ := graft_eq_ok_iff.mp hgraft
  exact Grown.graftAll (htree.push hpush) hchildren

/-- So do outlines, one after the other. -/
theorem Grown.graftAll {tree grown : Tree} {parent : NodeId} {outlines : List Outline}
    (htree : tree.Grown) (hgraft : tree.graftAll parent outlines = .ok grown) : grown.Grown := by
  cases outlines with
  | nil =>
    rw [Tree.graftAll] at hgraft
    cases hgraft
    exact htree
  | cons outline rest =>
    obtain ⟨next, hfirst, hrest⟩ := graftAll_cons_eq_ok_iff.mp hgraft
    exact Grown.graftAll (Grown.graft htree hfirst) hrest

end

/-- The tree of an outline grows by pushes. -/
theorem Grown.of_ofOutline {outline : Outline} {tree : Tree}
    (houtline : Tree.ofOutline outline = .ok tree) : tree.Grown := by
  obtain ⟨package, -, hchildren⟩ := ofOutline_eq_ok_iff.mp houtline
  exact Grown.graftAll (.unit package) hchildren

end Tree

namespace Outline

/-- The tree of an outline, and that of an empty unit where the outline has none. -/
def toTree (outline : Outline) : Tree :=
  match Tree.ofOutline outline with
  | .ok tree => tree
  | .error _ => .unit none

/-- Such a tree has grown in either case. -/
theorem grown_toTree (outline : Outline) : outline.toTree.Grown := by
  rw [toTree]
  cases houtline : Tree.ofOutline outline with
  | ok tree => exact .of_ofOutline houtline
  | error fault => exact .unit none

end Outline

/-- A class with a method in whose block two objects are made, each of an anonymous class, and a local
class is declared. -/
def Outline.sample : Outline :=
  ⟨.unit (some "a.b"), [⟨.classDecl "Outer" .ordinary, [⟨.method "run" [] none, [⟨.block,
    [⟨.construction none, [⟨.namelessClass, [⟨.variable "x" false, []⟩, ⟨.block, []⟩]⟩]⟩,
      ⟨.construction none, [⟨.namelessClass, [⟨.variable "y" false, []⟩]⟩]⟩,
      ⟨.classDecl "Local" .ordinary, [⟨.variable "z" false, []⟩]⟩]⟩]⟩]⟩]⟩

namespace Tree

def sample : Tree := Outline.sample.toTree

theorem grown_sample : sample.Grown := Outline.grown_toTree _

end Tree

end Pinpoint
