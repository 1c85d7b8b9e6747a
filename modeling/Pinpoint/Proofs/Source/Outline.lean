import Mathlib.Data.List.Forall2
import Mathlib.Data.List.Nodup
import Mathlib.Tactic.Common
import Pinpoint.Proofs.Source.Preorder

namespace Pinpoint

namespace Kind

@[simp]
theorem isConstruction_wire (own : Kind) (id : NodeId) (child : Kind) :
    (own.wire id child).isConstruction = own.isConstruction := by
  rw [← isConstruction_declared, declared_wire, isConstruction_declared]

@[simp]
theorem isMethod_wire (own : Kind) (id : NodeId) (child : Kind) :
    (own.wire id child).isMethod = own.isMethod := by
  rw [← isMethod_declared, declared_wire, isMethod_declared]

theorem isUnit_iff {kind : Kind} : kind.isUnit = true ↔ ∃ package, kind = .unit package := by
  cases kind <;> simp [isUnit]

/-- A node of kind `own` can get children of these kinds: no file, one class at most where it is a
construction, one receiver at most where it is a method and none elsewhere. What is wired already
counts. -/
@[mk_iff]
structure Takes (own : Kind) (children : List Kind) : Prop where
  unit : children.countP isUnit = 0
  body : own.isConstruction = true → own.body?.toList.length + children.countP isClass ≤ 1
  receiver : own.isMethod = true → own.receiver?.toList.length + children.countP isReceiver ≤ 1
  stray : own.isMethod = false → children.countP isReceiver = 0

theorem takes_nil (own : Kind) : own.Takes [] := by
  refine ⟨rfl, ?_, ?_, fun _ => rfl⟩
  · intro _
    cases own.body? <;> simp
  · intro _
    cases own.receiver? <;> simp

/-- A child that fits must be the first, and is wired then. -/
theorem length_add_countP_cons_le_iff (fits : Kind → Bool) (wired : Option NodeId) (id : NodeId)
    (child : Kind) (rest : List Kind) :
    wired.toList.length + (child :: rest).countP fits ≤ 1 ↔
      (fits child = true → wired = none) ∧
        (if fits child = true then some id else wired).toList.length + rest.countP fits ≤ 1 := by
  rw [List.countP_cons]
  cases hfits : fits child with
  | false => simp
  | true =>
    cases wired with
    | none => simp [Nat.add_comm 1]
    | some wired => simp

theorem countP_cons_eq_zero_iff (fits : Kind → Bool) (child : Kind) (rest : List Kind) :
    (child :: rest).countP fits = 0 ↔ fits child = false ∧ rest.countP fits = 0 := by
  rw [List.countP_cons]
  cases fits child <;> simp

/-- Children are taken in turn, each by what the ones before it have made of the node. -/
theorem takes_cons_iff {own child : Kind} {rest : List Kind} (parent id : NodeId) :
    own.Takes (child :: rest) ↔ own.allow parent child = .ok () ∧ (own.wire id child).Takes rest := by
  rw [takes_iff, takes_iff, allow_eq_ok_iff, countP_cons_eq_zero_iff, countP_cons_eq_zero_iff,
    length_add_countP_cons_le_iff isClass own.body? id,
    length_add_countP_cons_le_iff isReceiver own.receiver? id, body?_wire, receiver?_wire,
    isConstruction_wire, isMethod_wire]
  -- which of the rules are left depends on whether `own` is a construction or a method
  cases own.isConstruction <;> cases own.isMethod <;> simp <;> tauto

end Kind

/-- Every node of the outline takes its children. -/
inductive Outline.Sound : Outline → Prop where
  | intro {outline : Outline} (htakes : outline.kind.declared.Takes (outline.children.map (·.kind)))
      (hchildren : ∀ child ∈ outline.children, child.Sound) : Sound outline

/-- An outline is sound if its root takes its children, and these are sound. -/
theorem Outline.sound_iff {outline : Outline} :
    outline.Sound ↔ outline.kind.declared.Takes (outline.children.map (·.kind)) ∧
      ∀ child ∈ outline.children, child.Sound := by
  constructor
  · rintro ⟨htakes, hchildren⟩
    exact ⟨htakes, hchildren⟩
  · rintro ⟨htakes, hchildren⟩
    exact .intro htakes hchildren

namespace Tree

mutual

/-- The subtree of a node reads as an outline: the nodes are declared the same and have the same children,
in order. -/
def HasOutline (tree : Tree) (id : NodeId) : Outline → Prop
  | ⟨kind, children⟩ => ∃ node, tree.node? id = some node ∧ node.kind.declared = kind.declared ∧
      tree.HasOutlines node.children children

/-- The subtrees of several nodes read as outlines. -/
def HasOutlines (tree : Tree) : List NodeId → List Outline → Prop
  | [], [] => True
  | id :: ids, outline :: rest => tree.HasOutline id outline ∧ tree.HasOutlines ids rest
  | _, _ => False

end

variable {tree grown : Tree} {parent : NodeId}

theorem hasOutlines_iff {ids : List NodeId} {outlines : List Outline} :
    tree.HasOutlines ids outlines ↔ List.Forall₂ tree.HasOutline ids outlines := by
  induction ids generalizing outlines with
  | nil => cases outlines <;> simp [HasOutlines]
  | cons id ids ih => cases outlines <;> simp [HasOutlines, ih]

/-- A node has an outline if it is of its kind, and its children have the outlines below. -/
theorem hasOutline_iff {id : NodeId} {outline : Outline} :
    tree.HasOutline id outline ↔ ∃ node, tree.node? id = some node ∧
      node.kind.declared = outline.kind.declared ∧
        List.Forall₂ tree.HasOutline node.children outline.children := by
  obtain ⟨kind, children⟩ := outline
  simp only [HasOutline, hasOutlines_iff]

section Sound

/-- The children of a node are those it lists. -/
theorem WellFormed.hasChild_iff (hwf : tree.WellFormed) {p : Kind → Bool} {id child : NodeId} :
    tree.HasChild p id child ↔ child ∈ tree.children id ∧ (tree.kind? child).any p = true := by
  rw [hwf.mem_children, parent?, kind?, HasChild]
  cases tree.node? child <;> simp

/-- A node has as many children of a kind as its outline. -/
theorem countP_kinds {p : Kind → Bool} (hp : ∀ kind : Kind, p kind.declared = p kind) {ids : List NodeId}
    {outlines : List Outline} (houtlines : List.Forall₂ tree.HasOutline ids outlines) :
    (outlines.map (·.kind)).countP p = ids.countP fun id => (tree.kind? id).any p := by
  induction houtlines with
  | nil => rfl
  | @cons id outline ids outlines houtline _ ih =>
    obtain ⟨node, hnode, hdeclared, -⟩ := hasOutline_iff.mp houtline
    have hkind : p outline.kind = (tree.kind? id).any p := by
      rw [kind?, hnode, Option.map_some, Option.any_some, ← hp, ← hdeclared, hp]
    rw [List.map_cons, List.countP_cons, List.countP_cons, ih, hkind]

/-- A node that has at most one child of a kind counts at most one. -/
theorem WellFormed.countP_children_le (hwf : tree.WellFormed) {p : Kind → Bool} {id : NodeId}
    (hunique : ∀ child other, tree.HasChild p id child → tree.HasChild p id other → child = other) :
    (tree.children id).countP (fun child => (tree.kind? child).any p) ≤ 1 := by
  rw [List.countP_eq_length_filter]
  have hnodup := (hwf.nodup_children id).filter fun child => (tree.kind? child).any p
  have hmem : ∀ child ∈ (tree.children id).filter (fun child => (tree.kind? child).any p),
      tree.HasChild p id child := by
    intro child hchild
    exact hwf.hasChild_iff.mpr (List.mem_filter.mp hchild)
  match hfilter : (tree.children id).filter (fun child => (tree.kind? child).any p) with
  | [] => exact Nat.zero_le 1
  | [_] => exact Nat.le_refl 1
  | first :: second :: rest =>
    rw [hfilter] at hnodup hmem
    have heq := hunique first second (hmem _ (by simp)) (hmem _ (by simp))
    simp [heq] at hnodup

/-- A node of a tree that has grown takes the children it has. -/
theorem WellFormed.takes (hwf : tree.WellFormed) {id : NodeId} {node : Node} {outlines : List Outline}
    (hnode : tree.node? id = some node)
    (houtlines : List.Forall₂ tree.HasOutline node.children outlines) :
    node.kind.declared.Takes (outlines.map (·.kind)) := by
  have hchildren : node.children = tree.children id := by rw [children, hnode]
  rw [hchildren] at houtlines
  refine ⟨?_, ?_, ?_, ?_⟩
  · rw [countP_kinds Kind.isUnit_declared houtlines, List.countP_eq_zero]
    intro child hchild hunit
    obtain ⟨hlt, hsize⟩ := hwf.lt_of_mem_children hchild
    obtain ⟨found, hfound⟩ := node?_isSome_iff.mpr hsize
    have hnot := (hwf.parent_lt hfound (Nat.ne_of_gt (Nat.zero_lt_of_lt hlt))).1
    simp [kind?, hfound, hnot] at hunit
  · intro hown
    rw [Kind.isConstruction_declared] at hown
    rw [Kind.body?_declared, Option.toList_none, List.length_nil, Nat.zero_add,
      countP_kinds Kind.isClass_declared houtlines]
    apply hwf.countP_children_le
    intro child other
    exact Wires.unique hwf.body_iff hnode hown
  · intro hown
    rw [Kind.isMethod_declared] at hown
    rw [Kind.receiver?_declared, Option.toList_none, List.length_nil, Nat.zero_add,
      countP_kinds Kind.isReceiver_declared houtlines]
    apply hwf.countP_children_le
    intro child other
    exact Wires.unique hwf.receiver_iff hnode hown
  · intro hown
    rw [Kind.isMethod_declared] at hown
    rw [countP_kinds Kind.isReceiver_declared houtlines, List.countP_eq_zero]
    intro child hchild hreceiver
    obtain ⟨owner, howner, hmethod⟩ := hwf.receiver_parent (hwf.hasChild_iff.mpr ⟨hchild, hreceiver⟩)
    cases hnode.symm.trans howner
    rw [hown] at hmethod
    cases hmethod

mutual

/-- The outlines that trees have are sound. -/
theorem WellFormed.sound {tree : Tree} {id : NodeId} {outline : Outline} (hwf : tree.WellFormed)
    (houtline : tree.HasOutline id outline) : outline.Sound := by
  obtain ⟨kind, children⟩ := outline
  obtain ⟨node, hnode, hdeclared, hchildren⟩ := houtline
  refine .intro ?_ (WellFormed.sound_all hwf hchildren)
  rw [← hdeclared]
  exact hwf.takes hnode (hasOutlines_iff.mp hchildren)

/-- The outlines of several nodes are sound. -/
theorem WellFormed.sound_all {tree : Tree} {ids : List NodeId} {outlines : List Outline}
    (hwf : tree.WellFormed) (houtlines : tree.HasOutlines ids outlines) :
    ∀ outline ∈ outlines, outline.Sound := by
  cases outlines with
  | nil => exact List.forall_mem_nil _
  | cons outline rest =>
    cases ids with
    | nil => exact houtlines.elim
    | cons id ids =>
      obtain ⟨hfirst, hrest⟩ := houtlines
      exact List.forall_mem_cons.mpr ⟨WellFormed.sound hwf hfirst, WellFormed.sound_all hwf hrest⟩

end

/-- Nodes that each have an outline have them together. -/
theorem exists_outlines {ids : List NodeId} (hids : ∀ id ∈ ids, ∃ outline, tree.HasOutline id outline) :
    ∃ outlines, tree.HasOutlines ids outlines := by
  induction ids with
  | nil => exact ⟨[], trivial⟩
  | cons id ids ih =>
    obtain ⟨outline, houtline⟩ := hids id List.mem_cons_self
    obtain ⟨outlines, houtlines⟩ := ih fun id hid => hids id (List.mem_cons_of_mem _ hid)
    exact ⟨outline :: outlines, houtline, houtlines⟩

/-- Every node has an outline. -/
theorem WellFormed.exists_outline (hwf : tree.WellFormed) {id : NodeId} (hid : id < tree.size) :
    ∃ outline, tree.HasOutline id outline := by
  refine hwf.subtree_induction (motive := fun id => ∃ outline, tree.HasOutline id outline) ?_ id hid
  intro id hid ih
  obtain ⟨node, hnode⟩ := node?_isSome_iff.mpr hid
  have hchildren : tree.children id = node.children := by rw [children, hnode]
  obtain ⟨outlines, houtlines⟩ := exists_outlines (hchildren ▸ ih)
  exact ⟨⟨node.kind, outlines⟩, node, hnode, rfl, houtlines⟩

end Sound

section Graft

theorem node?_leaf_root (kind : Kind) : (leaf kind).node? 0 = some ⟨0, none, [], kind⟩ := by
  rw [node?_leaf, if_pos rfl]

/-- The new node of a push gets the next id. -/
theorem node?_size_of_push {kind : Kind} (hpush : tree.push parent kind = .ok grown) :
    grown.node? tree.size = some ⟨tree.size, some parent, [], kind.declared⟩ := by
  rw [node?_of_push hpush, if_pos rfl]

mutual

/-- A grafted outline is added at the end: of the nodes before it, only its parent changes, which adopts its
root. -/
theorem graft_frame {tree grown : Tree} {parent : NodeId} {outline : Outline}
    (hgraft : tree.graft parent outline = .ok grown) :
    tree.size < grown.size ∧ ∀ id < tree.size, grown.node? id =
      if id = parent then (tree.node? id).map (·.adopt tree.size outline.kind) else tree.node? id := by
  obtain ⟨kind, children⟩ := outline
  obtain ⟨next, hpush, hchildren⟩ := graft_eq_ok_iff.mp hgraft
  obtain ⟨hsize, hframe⟩ := graftAll_frame hchildren
  rw [size_of_push hpush] at hsize hframe
  refine ⟨hsize, ?_⟩
  intro id hid
  rw [hframe id (Nat.lt_succ_of_lt hid) (Nat.ne_of_lt hid), node?_of_push hpush,
    if_neg (Nat.ne_of_lt hid)]

/-- Growing outlines changes no node that was there, but for their parent. -/
theorem graftAll_frame {tree grown : Tree} {parent : NodeId} {outlines : List Outline}
    (hgraft : tree.graftAll parent outlines = .ok grown) :
    tree.size ≤ grown.size ∧ ∀ id < tree.size, id ≠ parent → grown.node? id = tree.node? id := by
  cases outlines with
  | nil =>
    cases hgraft
    exact ⟨Nat.le_refl _, fun _ _ _ => rfl⟩
  | cons outline rest =>
    obtain ⟨next, hfirst, hrest⟩ := graftAll_cons_eq_ok_iff.mp hgraft
    obtain ⟨hlt, hnext⟩ := graft_frame hfirst
    obtain ⟨hle, hlast⟩ := graftAll_frame hrest
    refine ⟨Nat.le_of_lt (Nat.lt_of_lt_of_le hlt hle), ?_⟩
    intro id hid hne
    rw [hlast id (Nat.lt_trans hid hlt) hne, hnext id hid, if_neg hne]

end

/-- The parent of a grafted outline has adopted its root. -/
theorem node?_parent_of_graft {owner : Node} {outline : Outline} (howner : tree.node? parent = some owner)
    (hgraft : tree.graft parent outline = .ok grown) :
    grown.node? parent = some (owner.adopt tree.size outline.kind) := by
  rw [(graft_frame hgraft).2 parent (lt_size_of_node? howner), if_pos rfl, howner, Option.map_some]

mutual

/-- An outline grows under a parent that takes its root, if it is sound. -/
theorem exists_graft_iff {tree : Tree} {parent : NodeId} {owner : Node} {outline : Outline}
    (howner : tree.node? parent = some owner) :
    (∃ grown, tree.graft parent outline = .ok grown) ↔
      owner.kind.allow parent outline.kind = .ok () ∧ outline.Sound := by
  obtain ⟨kind, children⟩ := outline
  rw [Outline.sound_iff]
  simp only [graft_eq_ok_iff]
  constructor
  · rintro ⟨grown, next, hpush, hchildren⟩
    obtain ⟨owner', howner', hallow, -⟩ := push_eq_ok_iff.mp hpush
    cases howner.symm.trans howner'
    exact ⟨hallow, (exists_graftAll_iff (node?_size_of_push hpush)).mp ⟨grown, hchildren⟩⟩
  · rintro ⟨hallow, hsound⟩
    obtain ⟨next, hpush⟩ : ∃ next, tree.push parent kind = .ok next :=
      ⟨_, push_eq_ok_iff.mpr ⟨owner, howner, hallow, rfl⟩⟩
    obtain ⟨grown, hchildren⟩ := (exists_graftAll_iff (node?_size_of_push hpush)).mpr hsound
    exact ⟨grown, next, hpush, hchildren⟩

/-- Outlines grow below a node just when it takes them all and each is sound. -/
theorem exists_graftAll_iff {tree : Tree} {parent : NodeId} {owner : Node} {outlines : List Outline}
    (howner : tree.node? parent = some owner) :
    (∃ grown, tree.graftAll parent outlines = .ok grown) ↔
      owner.kind.Takes (outlines.map (·.kind)) ∧ ∀ outline ∈ outlines, outline.Sound := by
  cases outlines with
  | nil => simp [graftAll, Kind.takes_nil]
  | cons outline rest =>
    rw [List.map_cons, Kind.takes_cons_iff parent tree.size, List.forall_mem_cons]
    simp only [graftAll_cons_eq_ok_iff]
    constructor
    · rintro ⟨grown, next, hfirst, hrest⟩
      obtain ⟨hallow, hsound⟩ := (exists_graft_iff howner).mp ⟨next, hfirst⟩
      obtain ⟨htakes, hall⟩ := (exists_graftAll_iff (node?_parent_of_graft howner hfirst)).mp ⟨grown, hrest⟩
      exact ⟨⟨hallow, htakes⟩, hsound, hall⟩
    · rintro ⟨⟨hallow, htakes⟩, hsound, hall⟩
      obtain ⟨next, hfirst⟩ := (exists_graft_iff howner).mpr ⟨hallow, hsound⟩
      obtain ⟨grown, hrest⟩ :=
        (exists_graftAll_iff (node?_parent_of_graft howner hfirst)).mpr ⟨htakes, hall⟩
      exact ⟨grown, next, hfirst, hrest⟩

end

/-- An outline grows into a tree just when its root is a file and it is sound. -/
theorem exists_ofOutline_iff {outline : Outline} :
    (∃ tree, ofOutline outline = .ok tree) ↔ outline.kind.isUnit = true ∧ outline.Sound := by
  simp only [ofOutline_eq_ok_iff]
  constructor
  · rintro ⟨tree, package, hkind, hchildren⟩
    refine ⟨by rw [hkind, Kind.isUnit], Outline.sound_iff.mpr ?_⟩
    rw [hkind]
    exact (exists_graftAll_iff (node?_leaf_root (.unit package))).mp ⟨tree, hchildren⟩
  · rintro ⟨hunit, hsound⟩
    obtain ⟨package, hkind⟩ := Kind.isUnit_iff.mp hunit
    rw [Outline.sound_iff, hkind] at hsound
    obtain ⟨tree, hchildren⟩ := (exists_graftAll_iff (node?_leaf_root (.unit package))).mpr hsound
    exact ⟨tree, package, hkind, hchildren⟩

mutual

/-- An outline of a subtree is kept where the nodes from its root on stay as they are. -/
theorem HasOutline.of_agree {tree grown : Tree} {first id : NodeId} {outline : Outline}
    (hwf : tree.WellFormed)
    (hagree : ∀ id node, first ≤ id → tree.node? id = some node → grown.node? id = some node)
    (hid : first ≤ id) (houtline : tree.HasOutline id outline) : grown.HasOutline id outline := by
  obtain ⟨kind, children⟩ := outline
  obtain ⟨node, hnode, hdeclared, hchildren⟩ := houtline
  refine ⟨node, hagree id node hid hnode, hdeclared, HasOutlines.of_agree hwf hagree ?_ hchildren⟩
  intro child hchild
  have hmem : child ∈ tree.children id := by rwa [Tree.children, hnode]
  exact Nat.le_of_lt (Nat.lt_of_le_of_lt hid (hwf.lt_of_mem_children hmem).1)

/-- Nodes keep their outlines where the tree has grown only before them. -/
theorem HasOutlines.of_agree {tree grown : Tree} {first : NodeId} {ids : List NodeId}
    {outlines : List Outline} (hwf : tree.WellFormed)
    (hagree : ∀ id node, first ≤ id → tree.node? id = some node → grown.node? id = some node)
    (hids : ∀ id ∈ ids, first ≤ id) (houtlines : tree.HasOutlines ids outlines) :
    grown.HasOutlines ids outlines := by
  cases outlines with
  | nil =>
    cases ids with
    | nil => trivial
    | cons id ids => exact houtlines.elim
  | cons outline rest =>
    cases ids with
    | nil => exact houtlines.elim
    | cons id ids =>
      obtain ⟨hfirst, hrest⟩ := houtlines
      obtain ⟨hid, hids⟩ := List.forall_mem_cons.mp hids
      exact ⟨HasOutline.of_agree hwf hagree hid hfirst, HasOutlines.of_agree hwf hagree hids hrest⟩

end

mutual

/-- A grafted outline can be read back at the node that its root has become. -/
theorem Grown.hasOutline_graft {tree grown : Tree} {parent : NodeId} {outline : Outline}
    (htree : tree.Grown) (hgraft : tree.graft parent outline = .ok grown) :
    grown.HasOutline tree.size outline := by
  obtain ⟨kind, children⟩ := outline
  obtain ⟨next, hpush, hchildren⟩ := graft_eq_ok_iff.mp hgraft
  obtain ⟨node, ids, hnode, hdeclared, hlist, houtlines⟩ :=
    Grown.hasOutlines_graftAll (htree.push hpush) (node?_size_of_push hpush) hchildren
  refine ⟨node, hnode, ?_, ?_⟩
  · rw [hdeclared, Kind.declared_declared]
  · rwa [hlist]

/-- Grafted outlines can be read back at the last children of their parent. -/
theorem Grown.hasOutlines_graftAll {tree grown : Tree} {parent : NodeId} {owner : Node}
    {outlines : List Outline} (htree : tree.Grown) (howner : tree.node? parent = some owner)
    (hgraft : tree.graftAll parent outlines = .ok grown) :
    ∃ node ids, grown.node? parent = some node ∧ node.kind.declared = owner.kind.declared ∧
      node.children = owner.children ++ ids ∧ grown.HasOutlines ids outlines := by
  cases outlines with
  | nil =>
    cases hgraft
    exact ⟨owner, [], howner, rfl, (List.append_nil _).symm, trivial⟩
  | cons outline rest =>
    obtain ⟨next, hfirst, hrest⟩ := graftAll_cons_eq_ok_iff.mp hgraft
    have hnext := htree.graft hfirst
    have houtline := Grown.hasOutline_graft htree hfirst
    obtain ⟨node, ids, hnode, hdeclared, hlist, houtlines⟩ :=
      Grown.hasOutlines_graftAll hnext (node?_parent_of_graft howner hfirst) hrest
    refine ⟨node, tree.size :: ids, hnode, ?_, ?_, ?_, houtlines⟩
    · rw [hdeclared, Node.adopt, Kind.declared_wire]
    · rw [hlist, Node.adopt, List.append_assoc, List.singleton_append]
    · refine houtline.of_agree hnext.wellFormed ?_ (Nat.le_refl _)
      intro id node hid hnode
      have hne : id ≠ parent := Nat.ne_of_gt (Nat.lt_of_lt_of_le (lt_size_of_node? howner) hid)
      rw [(graftAll_frame hrest).2 id (lt_size_of_node? hnode) hne, hnode]

end

/-- The tree of an outline reads back as the outline. -/
theorem hasOutline_ofOutline {outline : Outline} (houtline : ofOutline outline = .ok tree) :
    tree.HasOutline 0 outline := by
  obtain ⟨kind, children⟩ := outline
  obtain ⟨package, rfl, hchildren⟩ := ofOutline_eq_ok_iff.mp houtline
  obtain ⟨node, ids, hnode, hdeclared, hlist, houtlines⟩ :=
    Grown.hasOutlines_graftAll (.unit package) (node?_leaf_root (.unit package)) hchildren
  exact ⟨node, hnode, hdeclared, by rwa [hlist]⟩

end Graft

end Tree

end Pinpoint
