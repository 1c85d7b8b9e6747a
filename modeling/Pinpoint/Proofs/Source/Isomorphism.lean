import Mathlib.Data.Set.Function
import Mathlib.Order.Interval.Set.Defs
import Mathlib.Tactic.Common
import Pinpoint.Proofs.Source.Preorder

namespace Pinpoint

namespace Kind

/-- The kind with new numbers for what is wired to it. -/
def rename (f : NodeId → NodeId) : Kind → Kind
  | .construction body => .construction (body.map f)
  | .method name parameters receiver => .method name parameters (receiver.map f)
  | kind => kind

variable (f : NodeId → NodeId) (kind : Kind)

@[simp]
theorem declared_rename : (kind.rename f).declared = kind.declared := by cases kind <;> rfl

@[simp]
theorem isClass_rename : (kind.rename f).isClass = kind.isClass := by cases kind <;> rfl

@[simp]
theorem body?_rename : (kind.rename f).body? = kind.body?.map f := by cases kind <;> rfl

@[simp]
theorem receiver?_rename : (kind.rename f).receiver? = kind.receiver?.map f := by cases kind <;> rfl

variable {f kind}

/-- A kind is its declaration with what is wired to it. -/
theorem eq_of_declared {other : Kind} (hdeclared : kind.declared = other.declared)
    (hbody : kind.body? = other.body?) (hreceiver : kind.receiver? = other.receiver?) : kind = other := by
  cases kind <;> cases other <;> simp_all [declared, body?, receiver?]

theorem body?_eq_none (hkind : kind.isConstruction = false) : kind.body? = none := by
  cases kind with
  | construction body => cases hkind
  | _ => rfl

theorem receiver?_eq_none (hkind : kind.isMethod = false) : kind.receiver? = none := by
  cases kind with
  | method name parameters receiver => cases hkind
  | _ => rfl

end Kind

/-- The node with new numbers. -/
def Node.rename (f : NodeId → NodeId) (node : Node) : Node :=
  ⟨f node.id, node.parent.map f, node.children.map f, node.kind.rename f⟩

namespace Tree

/-- A renumbering `f` of the nodes of a tree that makes it the other tree: it takes the root to the root,
parents to parents and lists of children to lists of children, and keeps what the nodes are declared to
be. -/
structure Iso (tree other : Tree) (f : NodeId → NodeId) : Prop where
  bijOn : Set.BijOn f (Set.Iio tree.size) (Set.Iio other.size)
  root : f 0 = 0
  parent : ∀ id < tree.size, other.parent? (f id) = (tree.parent? id).map f
  children : ∀ id < tree.size, other.children (f id) = (tree.children id).map f
  declared : ∀ id < tree.size,
    (other.kind? (f id)).map Kind.declared = (tree.kind? id).map Kind.declared

namespace Iso

variable {tree other : Tree} {f : NodeId → NodeId}

/-- Nodes are renumbered to nodes. -/
theorem lt_size (hiso : tree.Iso other f) {id : NodeId} (hid : id < tree.size) : f id < other.size :=
  hiso.bijOn.mapsTo hid

/-- No two nodes get one number. -/
theorem eq_of_eq (hiso : tree.Iso other f) {id id' : NodeId} (hid : id < tree.size) (hid' : id' < tree.size)
    (heq : f id = f id') : id = id' :=
  hiso.bijOn.injOn hid hid' heq

/-- The node of the new number is declared the same and has the same links under their new numbers. -/
theorem exists_node (hiso : tree.Iso other f) {id : NodeId} {node : Node} (hnode : tree.node? id = some node) :
    ∃ image, other.node? (f id) = some image ∧ image.kind.declared = node.kind.declared ∧
      image.parent = node.parent.map f ∧ image.children = node.children.map f := by
  have hid := lt_size_of_node? hnode
  obtain ⟨image, himage⟩ := node?_isSome_iff.mpr (hiso.lt_size hid)
  have hdeclared := hiso.declared id hid
  have hparent := hiso.parent id hid
  have hchildren := hiso.children id hid
  simp only [kind?, himage, hnode, Option.map_some, Option.some.injEq] at hdeclared
  simp only [parent?, himage, hnode, Option.bind_some] at hparent
  simp only [Tree.children, himage, hnode] at hchildren
  exact ⟨image, himage, hdeclared, hparent, hchildren⟩

/-- The children of a declared kind are the old ones under their new numbers. -/
theorem hasChild_iff (hiso : tree.Iso other f) (hwf : tree.WellFormed) {p : Kind → Bool}
    (hp : ∀ kind : Kind, p kind.declared = p kind) {id image : NodeId} (hid : id < tree.size) :
    other.HasChild p (f id) image ↔ ∃ child, tree.HasChild p id child ∧ f child = image := by
  constructor
  · rintro ⟨node', hnode', hparent, hfits⟩
    obtain ⟨child, hchild, rfl⟩ := hiso.bijOn.surjOn (lt_size_of_node? hnode')
    obtain ⟨node, hnode⟩ := node?_isSome_iff.mpr hchild
    obtain ⟨found, hfound, hdeclared, hlink, -⟩ := hiso.exists_node hnode
    cases hnode'.symm.trans hfound
    rw [hparent, eq_comm, Option.map_eq_some_iff] at hlink
    obtain ⟨above, habove, heq⟩ := hlink
    have hsize := Nat.lt_trans (hwf.lt_of_parent hnode habove) hchild
    rw [hiso.eq_of_eq hsize hid heq] at habove
    exact ⟨child, ⟨node, hnode, habove, by rw [← hp, ← hdeclared, hp, hfits]⟩, rfl⟩
  · rintro ⟨child, ⟨node, hnode, hparent, hfits⟩, rfl⟩
    obtain ⟨node', hnode', hdeclared, hlink, -⟩ := hiso.exists_node hnode
    exact ⟨node', hnode', by rw [hlink, hparent, Option.map_some], by rw [← hp, hdeclared, hp, hfits]⟩

/-- What a node is wired to is found under its new number. -/
theorem wired_eq (hiso : tree.Iso other f) (hwf : tree.WellFormed) {owns fits : Kind → Bool}
    {wired? : Kind → Option NodeId} (hwires : tree.Wires owns fits wired?)
    (hwires' : other.Wires owns fits wired?) (howns : ∀ kind : Kind, owns kind.declared = owns kind)
    (hfits : ∀ kind : Kind, fits kind.declared = fits kind)
    (hnone : ∀ kind : Kind, owns kind = false → wired? kind = none) {id : NodeId} {node image : Node}
    (hnode : tree.node? id = some node) (himage : other.node? (f id) = some image)
    (hdeclared : image.kind.declared = node.kind.declared) :
    wired? image.kind = (wired? node.kind).map f := by
  have hsame : owns image.kind = owns node.kind := by rw [← howns, hdeclared, howns]
  cases hown : owns node.kind with
  | false => rw [hnone _ hown, hnone _ (hsame.trans hown), Option.map_none]
  | true =>
    ext child'
    rw [hwires' himage (hsame.trans hown), hiso.hasChild_iff hwf hfits (lt_size_of_node? hnode),
      Option.map_eq_some_iff]
    simp only [hwires hnode hown]

/-- The node of the new number is the old one with new numbers. -/
theorem node?_eq (hiso : tree.Iso other f) (hwf : tree.WellFormed) (hwf' : other.WellFormed) {id : NodeId}
    {node : Node} (hnode : tree.node? id = some node) : other.node? (f id) = some (node.rename f) := by
  obtain ⟨image, himage, hdeclared, hparent, hchildren⟩ := hiso.exists_node hnode
  have hbody : image.kind.body? = node.kind.body?.map f :=
    hiso.wired_eq hwf hwf.body_iff hwf'.body_iff Kind.isConstruction_declared Kind.isClass_declared
      (fun _ => Kind.body?_eq_none) hnode himage hdeclared
  have hreceiver : image.kind.receiver? = node.kind.receiver?.map f :=
    hiso.wired_eq hwf hwf.receiver_iff hwf'.receiver_iff Kind.isMethod_declared Kind.isReceiver_declared
      (fun _ => Kind.receiver?_eq_none) hnode himage hdeclared
  have hkind : image.kind = node.kind.rename f := by
    apply Kind.eq_of_declared
    · rw [hdeclared, Kind.declared_rename]
    · rw [hbody, Kind.body?_rename]
    · rw [hreceiver, Kind.receiver?_rename]
  have hid : image.id = f node.id := by rw [hwf'.id_eq himage, hwf.id_eq hnode]
  rw [himage, Node.rename, ← hid, ← hparent, ← hchildren, ← hkind]

/-- A lineage is the old one with new numbers. -/
theorem lineage_eq (hiso : tree.Iso other f) (hwf : tree.WellFormed) (hwf' : other.WellFormed) {id : NodeId}
    (hid : id < tree.size) : other.lineage (f id) = (tree.lineage id).map (Node.rename f) := by
  induction id using Nat.strongRecOn with
  | _ id ih =>
    obtain ⟨node, hnode⟩ := node?_isSome_iff.mpr hid
    have himage := hiso.node?_eq hwf hwf' hnode
    obtain ⟨rfl, hlineage⟩ | ⟨parent, hparent, hlt, hlineage⟩ := hwf.lineage_cases hnode
    · rw [hiso.root] at himage ⊢
      rw [hlineage, hwf'.lineage_root himage, List.map_singleton]
    · have hlink : (node.rename f).parent = some (f parent) := by
        rw [Node.rename, hparent, Option.map_some]
      rw [hlineage, hwf'.lineage_child himage hlink, ih parent hlt (Nat.lt_trans hlt hid),
        List.map_append, List.map_singleton]

/-- The nearest class around a node is the old one under its new number. -/
theorem scope?_eq (hiso : tree.Iso other f) (hwf : tree.WellFormed) (hwf' : other.WellFormed) {id : NodeId}
    (hid : id < tree.size) : other.scope? (f id) = (tree.scope? id).map f := by
  have hclass : (fun node : Node => node.kind.isClass) ∘ Node.rename f = fun node => node.kind.isClass := by
    funext node
    exact Kind.isClass_rename f node.kind
  rw [scope?, hiso.lineage_eq hwf hwf' hid, ← List.map_dropLast, ← List.map_reverse, List.find?_map, hclass,
    scope?, Option.map_map, Option.map_map]
  rfl

/-- Subtrees are the same under the new numbers. -/
theorem subtree_eq (hiso : tree.Iso other f) (hwf : tree.WellFormed) (hwf' : other.WellFormed) {id : NodeId}
    (hid : id < tree.size) : other.subtree (f id) = (tree.subtree id).map f := by
  refine hwf.subtree_induction (motive := fun id => other.subtree (f id) = (tree.subtree id).map f) ?_ id hid
  intro id hid ih
  rw [hwf'.subtree_eq (hiso.lt_size hid), hiso.children id hid, hwf.subtree_eq hid, List.map_cons,
    List.flatMap_map, List.map_flatMap]
  congr 1
  exact List.flatMap_congr ih

/-- The pre-order is the old one under new numbers. -/
theorem preorder_eq (hiso : tree.Iso other f) (hwf : tree.WellFormed) (hwf' : other.WellFormed) :
    other.preorder = tree.preorder.map f := by
  have hroot := hiso.subtree_eq hwf hwf' hwf.size_pos
  rw [hiso.root] at hroot
  rw [hwf'.preorder_eq, hwf.preorder_eq, hroot]

end Iso

end Tree

end Pinpoint
