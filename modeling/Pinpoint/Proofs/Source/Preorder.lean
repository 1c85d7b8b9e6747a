import Mathlib.Data.List.Nodup
import Mathlib.Data.List.Range
import Mathlib.Tactic.Common
import Pinpoint.Proofs.Source.Lineage

namespace Pinpoint

namespace Tree

/-- The ids of a node's subtree down to a height, each node before its children. -/
def subtreeUpTo (tree : Tree) : (height : Nat) → NodeId → List NodeId
  | 0, _ => []
  | height + 1, id => id :: (tree.children id).flatMap (tree.subtreeUpTo height)

/-- The ids of a node's subtree, each node before its children. Ids grow towards the leaves, so the
subtree has no more levels than ids from the node's own on. -/
def subtree (tree : Tree) (id : NodeId) : List NodeId := tree.subtreeUpTo (tree.size - id) id

variable {tree : Tree}

/-- The children of a node are the nodes whose parent it is. -/
theorem WellFormed.mem_children (hwf : tree.WellFormed) {id child : NodeId} :
    child ∈ tree.children id ↔ tree.parent? child = some id := by
  constructor
  · intro hchild
    unfold children at hchild
    split at hchild
    · rename_i node hnode
      rw [hwf.children_eq hnode, List.mem_filter] at hchild
      simpa using hchild.2
    · cases hchild
  · intro hparent
    obtain ⟨node, hnode, hlink⟩ := Option.bind_eq_some_iff.mp hparent
    obtain ⟨above, habove⟩ := hwf.exists_parent hnode hlink
    unfold children
    rw [habove]
    dsimp only
    rw [hwf.children_eq habove, List.mem_filter, List.mem_range]
    exact ⟨lt_size_of_node? hnode, by simpa using hparent⟩

/-- Children are nodes of the tree, with greater ids. -/
theorem WellFormed.lt_of_mem_children (hwf : tree.WellFormed) {id child : NodeId}
    (hchild : child ∈ tree.children id) : id < child ∧ child < tree.size := by
  obtain ⟨node, hnode, hparent⟩ := Option.bind_eq_some_iff.mp (hwf.mem_children.mp hchild)
  exact ⟨hwf.lt_of_parent hnode hparent, lt_size_of_node? hnode⟩

/-- No child is listed twice. -/
theorem WellFormed.nodup_children (hwf : tree.WellFormed) (id : NodeId) : (tree.children id).Nodup := by
  unfold children
  split
  · rename_i node hnode
    rw [hwf.children_eq hnode]
    exact List.nodup_range.filter _
  · exact .nil

/-- What holds of a node once it holds of its children holds of every node. -/
theorem WellFormed.subtree_induction (hwf : tree.WellFormed) {motive : NodeId → Prop}
    (step : ∀ id, id < tree.size → (∀ child ∈ tree.children id, motive child) → motive id) :
    ∀ id, id < tree.size → motive id := by
  intro id hid
  induction hroom : tree.size - id using Nat.strongRecOn generalizing id with
  | _ room ih =>
    apply step id hid
    intro child hchild
    obtain ⟨hlt, hsize⟩ := hwf.lt_of_mem_children hchild
    exact ih (tree.size - child) (by rw [← hroom]; exact Nat.sub_lt_sub_left hid hlt) child hsize rfl

/-- A height that reaches all levels below a node may as well be larger. -/
theorem WellFormed.subtreeUpTo_succ (hwf : tree.WellFormed) {height : Nat} {id : NodeId}
    (hid : id < tree.size) (hheight : tree.size ≤ height + id) :
    tree.subtreeUpTo (height + 1) id = tree.subtreeUpTo height id := by
  induction height generalizing id with
  | zero => exact absurd hid (Nat.not_lt_of_le (by simpa using hheight))
  | succ height ih =>
    rw [subtreeUpTo, subtreeUpTo]
    congr 1
    apply List.flatMap_congr
    intro child hchild
    obtain ⟨hlt, hsize⟩ := hwf.lt_of_mem_children hchild
    refine ih hsize (Nat.le_trans hheight ?_)
    rw [Nat.succ_add_eq_add_succ]
    exact Nat.add_le_add_left hlt _

/-- More height than there are nodes makes no difference. -/
theorem WellFormed.subtreeUpTo_eq (hwf : tree.WellFormed) {height : Nat} {id : NodeId}
    (hid : id < tree.size) (hheight : tree.size - id ≤ height) :
    tree.subtreeUpTo height id = tree.subtree id := by
  induction hheight with
  | refl => rfl
  | step hle ih => rw [hwf.subtreeUpTo_succ hid (Nat.sub_le_iff_le_add.mp hle), ih]

/-- The subtree of a node is the node and, in order, the subtrees of its children. -/
theorem WellFormed.subtree_eq (hwf : tree.WellFormed) {id : NodeId} (hid : id < tree.size) :
    tree.subtree id = id :: (tree.children id).flatMap tree.subtree := by
  obtain ⟨height, hheight⟩ := Nat.exists_eq_succ_of_ne_zero (Nat.sub_ne_zero_of_lt hid)
  rw [subtree, hheight, subtreeUpTo]
  congr 1
  apply List.flatMap_congr
  intro child hchild
  obtain ⟨hlt, hsize⟩ := hwf.lt_of_mem_children hchild
  apply hwf.subtreeUpTo_eq hsize
  have hroom := Nat.sub_lt_sub_left hid hlt
  rw [hheight] at hroom
  exact Nat.le_of_lt_succ hroom

/-- Reading pending subtrees lists them one after the other, as far as the fuel goes. -/
theorem WellFormed.visit_eq (hwf : tree.WellFormed) (fuel : Nat) {pending : List NodeId}
    (hpending : ∀ id ∈ pending, id < tree.size) :
    tree.visit fuel pending = (pending.flatMap tree.subtree).take fuel := by
  induction fuel generalizing pending with
  | zero => rfl
  | succ fuel ih =>
    cases pending with
    | nil => rfl
    | cons id pending =>
      have hid := hpending id List.mem_cons_self
      have hnext : ∀ next ∈ tree.children id ++ pending, next < tree.size := by
        intro next hnext
        obtain hchild | hlater := List.mem_append.mp hnext
        · exact (hwf.lt_of_mem_children hchild).2
        · exact hpending next (List.mem_cons_of_mem id hlater)
      rw [visit, ih hnext, List.flatMap_cons, hwf.subtree_eq hid, List.cons_append,
        List.take_succ_cons, List.flatMap_append]

theorem WellFormed.self_mem_subtree (hwf : tree.WellFormed) {id : NodeId} (hid : id < tree.size) :
    id ∈ tree.subtree id := by
  rw [hwf.subtree_eq hid]
  exact List.mem_cons_self

/-- A subtree holds the children of what it holds. -/
theorem WellFormed.child_mem_subtree (hwf : tree.WellFormed) {id other child : NodeId}
    (hid : id < tree.size) (hother : other ∈ tree.subtree id) (hchild : child ∈ tree.children other) :
    child ∈ tree.subtree id := by
  revert hother
  refine hwf.subtree_induction (motive := fun id => other ∈ tree.subtree id → child ∈ tree.subtree id)
    ?_ id hid
  intro id hid ih hother
  rw [hwf.subtree_eq hid, List.mem_cons, List.mem_flatMap] at hother
  rw [hwf.subtree_eq hid, List.mem_cons, List.mem_flatMap]
  obtain rfl | ⟨next, hnext, hother⟩ := hother
  · exact .inr ⟨child, hchild, hwf.self_mem_subtree (hwf.lt_of_mem_children hchild).2⟩
  · exact .inr ⟨next, hnext, ih next hnext hother⟩

/-- A child on a lineage follows the whole lineage of its parent. -/
theorem WellFormed.lineage_through_child (hwf : tree.WellFormed) {id other : NodeId} {node : Node}
    (hchild : node.id ∈ tree.children id) (hmem : node ∈ tree.lineage other) :
    ∃ below, tree.lineage other = tree.lineage id ++ node :: below := by
  obtain ⟨front, below, hsplit⟩ := List.append_of_mem hmem
  obtain ⟨known, hknown, hparent⟩ := Option.bind_eq_some_iff.mp (hwf.mem_children.mp hchild)
  rw [(hwf.lineage_split hsplit).1, Option.some.injEq] at hknown
  rw [hwf.lineage_split_parent hsplit (hknown ▸ hparent)] at hsplit
  exact ⟨below, hsplit⟩

/-- The root of a subtree is on the lineage of each of its nodes. -/
theorem WellFormed.mem_lineage_of_mem_subtree (hwf : tree.WellFormed) {id other : NodeId}
    (hid : id < tree.size) (hother : other ∈ tree.subtree id) :
    ∃ node ∈ tree.lineage other, node.id = id := by
  revert hother
  refine hwf.subtree_induction
    (motive := fun id => other ∈ tree.subtree id → ∃ node ∈ tree.lineage other, node.id = id) ?_ id hid
  intro id hid ih hother
  obtain ⟨node, hnode⟩ := node?_isSome_iff.mpr hid
  obtain ⟨above, habove⟩ := hwf.exists_lineage_eq hnode
  rw [hwf.subtree_eq hid, List.mem_cons, List.mem_flatMap] at hother
  obtain rfl | ⟨child, hchild, hother⟩ := hother
  · exact ⟨node, by simp [habove], hwf.id_eq hnode⟩
  · obtain ⟨link, hlink, rfl⟩ := ih child hchild hother
    obtain ⟨below, hsplit⟩ := hwf.lineage_through_child hchild hlink
    exact ⟨node, by simp [hsplit, habove], hwf.id_eq hnode⟩

/-- A node is in the subtree of each node on its lineage. -/
theorem WellFormed.mem_subtree_of_mem_lineage (hwf : tree.WellFormed) {other : NodeId} {node : Node}
    (hmem : node ∈ tree.lineage other) : other ∈ tree.subtree node.id := by
  induction other using Nat.strongRecOn with
  | _ other ih =>
    cases hleaf : tree.node? other with
    | none =>
      rw [lineage_eq_nil hleaf] at hmem
      cases hmem
    | some leaf =>
      have hself : leaf = node → other ∈ tree.subtree node.id := by
        rintro rfl
        rw [hwf.id_eq hleaf]
        exact hwf.self_mem_subtree (lt_size_of_node? hleaf)
      obtain ⟨-, h⟩ | ⟨parent, hparent, hlt, h⟩ := hwf.lineage_cases hleaf
      · rw [h, List.mem_singleton] at hmem
        exact hself hmem.symm
      · rw [h, List.mem_append, List.mem_singleton] at hmem
        obtain hmem | hmem := hmem
        · have hchild : other ∈ tree.children parent :=
            hwf.mem_children.mpr (by rw [parent?, hleaf, Option.bind_some, hparent])
          obtain ⟨front, back, hsplit⟩ := List.append_of_mem hmem
          exact hwf.child_mem_subtree (lt_size_of_node? (hwf.lineage_split hsplit).1)
            (ih parent hlt hmem) hchild
        · exact hself hmem.symm

/-- A subtree lists no node twice. -/
theorem WellFormed.nodup_subtree (hwf : tree.WellFormed) {id : NodeId} (hid : id < tree.size) :
    (tree.subtree id).Nodup := by
  refine hwf.subtree_induction (motive := fun id => (tree.subtree id).Nodup) ?_ id hid
  intro id hid ih
  rw [hwf.subtree_eq hid, List.nodup_cons, List.nodup_flatMap]
  refine ⟨?_, ih, ?_⟩
  · intro hmem
    obtain ⟨child, hchild, hmem⟩ := List.mem_flatMap.mp hmem
    obtain ⟨hlt, hsize⟩ := hwf.lt_of_mem_children hchild
    obtain ⟨node, hnode, rfl⟩ := hwf.mem_lineage_of_mem_subtree hsize hmem
    exact Nat.lt_irrefl id (Nat.lt_of_lt_of_le hlt (hwf.le_of_mem_lineage hnode))
  · refine (hwf.nodup_children id).imp_of_mem ?_
    intro left right hleft hright hne other hother hother'
    apply hne
    -- Both children are the node that follows `id` on the lineage of a node they share.
    obtain ⟨node, hnode, rfl⟩ :=
      hwf.mem_lineage_of_mem_subtree (hwf.lt_of_mem_children hleft).2 hother
    obtain ⟨node', hnode', rfl⟩ :=
      hwf.mem_lineage_of_mem_subtree (hwf.lt_of_mem_children hright).2 hother'
    obtain ⟨below, hsplit⟩ := hwf.lineage_through_child hleft hnode
    obtain ⟨below', hsplit'⟩ := hwf.lineage_through_child hright hnode'
    rw [hsplit] at hsplit'
    rw [(List.cons.inj (List.append_cancel_left hsplit')).1]

theorem WellFormed.size_pos (hwf : tree.WellFormed) : 0 < tree.size := by
  obtain ⟨root, hroot, -⟩ := hwf.root
  exact lt_size_of_node? hroot

/-- The subtree of the root is the whole tree. -/
theorem WellFormed.mem_subtree_root (hwf : tree.WellFormed) {id : NodeId} :
    id ∈ tree.subtree 0 ↔ id < tree.size := by
  constructor
  · intro hmem
    obtain ⟨node, hnode, -⟩ := hwf.mem_lineage_of_mem_subtree hwf.size_pos hmem
    exact lt_size_of_mem_lineage hnode
  · intro hid
    obtain ⟨root, below, hlineage, hroot, -⟩ := hwf.exists_lineage_eq_cons hid
    have hzero : root.id = 0 :=
      Nat.le_zero.mp (hwf.le_of_mem_lineage (hroot ▸ List.mem_singleton_self root))
    rw [← hzero]
    exact hwf.mem_subtree_of_mem_lineage (by rw [hlineage]; exact List.mem_cons_self)

theorem WellFormed.length_subtree_root (hwf : tree.WellFormed) :
    (tree.subtree 0).length = tree.size := by
  have hperm : (tree.subtree 0).Perm (List.range tree.size) := by
    rw [List.perm_ext_iff_of_nodup (hwf.nodup_subtree hwf.size_pos) List.nodup_range]
    intro id
    rw [hwf.mem_subtree_root, List.mem_range]
  rw [hperm.length_eq, List.length_range]

/-- The fuel is enough: the whole pre-order is that of the root's subtree. -/
theorem WellFormed.preorder_eq (hwf : tree.WellFormed) : tree.preorder = tree.subtree 0 := by
  rw [preorder, hwf.visit_eq _ (by simpa using hwf.size_pos)]
  simpa using List.take_of_length_le (Nat.le_of_eq hwf.length_subtree_root)

/-- The pre-order lists as many nodes as there are. -/
theorem WellFormed.length_preorder (hwf : tree.WellFormed) : tree.preorder.length = tree.size := by
  rw [hwf.preorder_eq, hwf.length_subtree_root]

/-- The pre-order lists no node twice. -/
theorem WellFormed.nodup_preorder (hwf : tree.WellFormed) : tree.preorder.Nodup := by
  rw [hwf.preorder_eq]
  exact hwf.nodup_subtree hwf.size_pos

/-- The pre-order lists all nodes. -/
theorem WellFormed.mem_preorder (hwf : tree.WellFormed) {id : NodeId} :
    id ∈ tree.preorder ↔ id < tree.size := by
  rw [hwf.preorder_eq, hwf.mem_subtree_root]

end Tree

end Pinpoint
