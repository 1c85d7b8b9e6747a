import Mathlib.Data.List.Chain
import Mathlib.Data.List.Induction
import Mathlib.Tactic.Common
import Pinpoint.Proofs.Source.Growth
import Pinpoint.Source.Path

namespace Pinpoint

namespace Tree

variable {tree : Tree}

/-- Parents come before their children, so an id is fuel enough to climb from it to the root. -/
theorem WellFormed.climb_succ (hwf : tree.WellFormed) {fuel : Nat} {id : NodeId} (hfuel : id < fuel)
    (below : List Node) : tree.climb (fuel + 1) id below = tree.climb fuel id below := by
  induction fuel generalizing id below with
  | zero => exact absurd hfuel (Nat.not_lt_zero id)
  | succ fuel ih =>
    rw [climb, climb]
    cases hnode : tree.node? id with
    | none => rfl
    | some node =>
      cases hparent : node.parent with
      | none => simp only [hparent]
      | some parent =>
        simp only [hparent]
        exact ih (Nat.lt_of_lt_of_le (hwf.lt_of_parent hnode hparent) (Nat.le_of_lt_succ hfuel))
          (node :: below)

/-- Climbing ends at the root, so more fuel than the depth of the node makes no difference. -/
theorem WellFormed.climb_eq (hwf : tree.WellFormed) {fuel : Nat} {id : NodeId} (hfuel : id < fuel)
    (below : List Node) : tree.climb fuel id below = tree.climb (id + 1) id below := by
  induction hfuel with
  | refl => rfl
  | step hfuel ih => rw [hwf.climb_succ hfuel, ih]

/-- The lineage of the root is the root alone. -/
theorem WellFormed.lineage_root (hwf : tree.WellFormed) {root : Node}
    (hroot : tree.node? 0 = some root) : tree.lineage 0 = [root] := by
  obtain ⟨node, hnode, hparent, -⟩ := hwf.root
  rw [hnode, Option.some.injEq] at hroot
  subst hroot
  rw [lineage, hwf.climb_eq (lt_size_of_node? hnode)]
  simp [climb, hnode, hparent]

/-- The lineage of any other node extends that of its parent. -/
theorem WellFormed.lineage_child (hwf : tree.WellFormed) {id parent : NodeId} {node : Node}
    (hnode : tree.node? id = some node) (hparent : node.parent = some parent) :
    tree.lineage id = tree.lineage parent ++ [node] := by
  have hlt := hwf.lt_of_parent hnode hparent
  have hsize := lt_size_of_node? hnode
  rw [lineage, hwf.climb_eq hsize, climb, hnode]
  simp only [hparent]
  rw [climb_append, hwf.climb_eq hlt, ← hwf.climb_eq (Nat.lt_trans hlt hsize), lineage]

/-- A node is the root or hangs below an earlier node. -/
theorem WellFormed.lineage_cases (hwf : tree.WellFormed) {id : NodeId} {node : Node}
    (hnode : tree.node? id = some node) :
    (id = 0 ∧ tree.lineage id = [node]) ∨
      ∃ parent, node.parent = some parent ∧ parent < id ∧
        tree.lineage id = tree.lineage parent ++ [node] := by
  by_cases hzero : id = 0
  · subst hzero
    exact .inl ⟨rfl, hwf.lineage_root hnode⟩
  · obtain ⟨-, parent, hparent, hlt⟩ := hwf.parent_lt hnode hzero
    exact .inr ⟨parent, hparent, hlt, hwf.lineage_child hnode hparent⟩

theorem WellFormed.exists_parent (hwf : tree.WellFormed) {id parent : NodeId} {node : Node}
    (hnode : tree.node? id = some node) (hparent : node.parent = some parent) :
    ∃ above, tree.node? parent = some above :=
  node?_isSome_iff.mpr (Nat.lt_trans (hwf.lt_of_parent hnode hparent) (lt_size_of_node? hnode))

/-- A node other than a unit has a parent, from whose lineage its own goes on. -/
theorem WellFormed.lineage_parent (hwf : tree.WellFormed) {id : NodeId} {node : Node}
    (hnode : tree.node? id = some node) (hunit : node.kind.isUnit = false) :
    ∃ parent above, tree.node? parent = some above ∧
      tree.lineage id = tree.lineage parent ++ [node] := by
  obtain ⟨rfl, -⟩ | ⟨parent, hparent, -, hlineage⟩ := hwf.lineage_cases hnode
  · obtain ⟨root, hroot, -, hrootUnit⟩ := hwf.root
    rw [hnode, Option.some.injEq] at hroot
    rw [← hroot, hunit] at hrootUnit
    cases hrootUnit
  · obtain ⟨above, habove⟩ := hwf.exists_parent hnode hparent
    exact ⟨parent, above, habove, hlineage⟩

theorem lineage_eq_nil {id : NodeId} (hnode : tree.node? id = none) : tree.lineage id = [] := by
  unfold lineage
  cases tree.size with
  | zero => rfl
  | succ fuel => simp [climb, hnode]

/-- Only nodes of the tree have a lineage. -/
theorem lt_size_of_mem_lineage {id : NodeId} {node : Node} (hmem : node ∈ tree.lineage id) :
    id < tree.size := by
  cases hleaf : tree.node? id with
  | none =>
    rw [lineage_eq_nil hleaf] at hmem
    cases hmem
  | some leaf => exact lt_size_of_node? hleaf

/-- The lineage of a node ends with the node. -/
theorem WellFormed.exists_lineage_eq (hwf : tree.WellFormed) {id : NodeId} {node : Node}
    (hnode : tree.node? id = some node) : ∃ above, tree.lineage id = above ++ [node] := by
  obtain ⟨-, h⟩ | ⟨parent, -, -, h⟩ := hwf.lineage_cases hnode
  · exact ⟨[], h⟩
  · exact ⟨_, h⟩

/-- Every node of the tree has a path, along its lineage. -/
theorem WellFormed.path?_eq (hwf : tree.WellFormed) {id : NodeId} (hid : id < tree.size) :
    ∃ path, tree.path? id = some path ∧ path.nodes = tree.lineage id := by
  obtain ⟨node, hnode⟩ := node?_isSome_iff.mpr hid
  obtain ⟨above, habove⟩ := hwf.exists_lineage_eq hnode
  refine ⟨⟨tree.lineage id, by simp [habove]⟩, ?_, rfl⟩
  rw [path?, Path.ofNodes?_eq_some_iff]

/-- The path to a node leads to it. -/
theorem WellFormed.leaf_eq (hwf : tree.WellFormed) {id : NodeId} {node : Node} {path : Path}
    (hnode : tree.node? id = some node) (hnodes : path.nodes = tree.lineage id) : path.leaf = node := by
  obtain ⟨above, habove⟩ := hwf.exists_lineage_eq hnode
  simp only [Path.leaf, hnodes, habove, List.getLast_concat]

/-- The nodes before and up to a node of a lineage are its own lineage. -/
theorem WellFormed.lineage_split (hwf : tree.WellFormed) {id : NodeId} {above below : List Node}
    {node : Node} (hsplit : tree.lineage id = above ++ node :: below) :
    tree.node? node.id = some node ∧ tree.lineage node.id = above ++ [node] := by
  induction id using Nat.strongRecOn generalizing below with
  | _ id ih =>
    cases hleaf : tree.node? id with
    | none =>
      rw [lineage_eq_nil hleaf] at hsplit
      simp at hsplit
    | some leaf =>
      have hid := hwf.id_eq hleaf
      cases below using List.reverseRecOn with
      | nil =>
        obtain ⟨front, hfront⟩ := hwf.exists_lineage_eq hleaf
        rw [hfront] at hsplit
        obtain ⟨rfl, hlast⟩ := List.append_inj' hsplit rfl
        cases hlast
        rw [hid]
        exact ⟨hleaf, hfront⟩
      | append_singleton below last =>
        obtain ⟨-, h⟩ | ⟨parent, -, hlt, h⟩ := hwf.lineage_cases hleaf
        · rw [h] at hsplit
          have hlength := congrArg List.length hsplit
          simp only [List.length_append, List.length_cons, List.length_nil] at hlength
          omega
        · rw [h, ← List.cons_append, ← List.append_assoc] at hsplit
          exact ih parent hlt (List.append_inj' hsplit rfl).1

/-- What precedes a child on a lineage is the lineage of its parent. -/
theorem WellFormed.lineage_split_parent (hwf : tree.WellFormed) {id parent : NodeId}
    {above below : List Node} {node : Node} (hsplit : tree.lineage id = above ++ node :: below)
    (hparent : node.parent = some parent) : above = tree.lineage parent := by
  obtain ⟨hnode, hlineage⟩ := hwf.lineage_split hsplit
  rw [hwf.lineage_child hnode hparent] at hlineage
  exact (List.append_inj' hlineage rfl).1.symm

/-- Ancestors have smaller ids. -/
theorem WellFormed.le_of_mem_lineage (hwf : tree.WellFormed) {id : NodeId} {node : Node}
    (hmem : node ∈ tree.lineage id) : node.id ≤ id := by
  induction id using Nat.strongRecOn with
  | _ id ih =>
    cases hleaf : tree.node? id with
    | none =>
      rw [lineage_eq_nil hleaf] at hmem
      cases hmem
    | some leaf =>
      have hid := hwf.id_eq hleaf
      obtain ⟨-, h⟩ | ⟨parent, -, hlt, h⟩ := hwf.lineage_cases hleaf
      · rw [h, List.mem_singleton] at hmem
        exact Nat.le_of_eq (hmem ▸ hid)
      · rw [h, List.mem_append, List.mem_singleton] at hmem
        obtain hmem | hmem := hmem
        · exact Nat.le_of_lt (Nat.lt_of_le_of_lt (ih parent hlt hmem) hlt)
        · exact Nat.le_of_eq (hmem ▸ hid)

/-- Nodes of a tree, each the parent of the next. -/
structure Linked (tree : Tree) (nodes : List Node) : Prop where
  known : ∀ node ∈ nodes, tree.node? node.id = some node
  link : nodes.IsChain fun above node => node.parent = some above.id

namespace Linked

variable {above node : Node} {nodes front : List Node}

/-- The end of a linked list of nodes is linked. -/
theorem of_append (hlinked : tree.Linked (front ++ nodes)) : tree.Linked nodes :=
  ⟨fun node hnode => hlinked.known node (List.mem_append_right front hnode),
    (List.isChain_append.mp hlinked.link).2.1⟩

theorem tail (hlinked : tree.Linked (node :: nodes)) : tree.Linked nodes :=
  ⟨fun other hother => hlinked.known other (List.mem_cons_of_mem node hother), hlinked.link.tail⟩

theorem parent_eq (hlinked : tree.Linked (above :: node :: nodes)) : node.parent = some above.id :=
  (List.isChain_cons_cons.mp hlinked.link).1

/-- The kind a tree knows for the parent of a linked node is that of the node before. -/
theorem parent_kind (hlinked : tree.Linked (above :: node :: nodes)) :
    node.parent.bind tree.kind? = some above.kind := by
  rw [hlinked.parent_eq, Option.bind_some, kind?, hlinked.known above List.mem_cons_self, Option.map_some]

/-- Below another node there is no compilation unit. -/
theorem isUnit_eq_false (hwf : tree.WellFormed) (hlinked : tree.Linked (above :: node :: nodes)) :
    node.kind.isUnit = false := by
  have hnode := hlinked.known node (by simp)
  have hlt := hwf.lt_of_parent hnode hlinked.parent_eq
  exact (hwf.parent_lt hnode (Nat.ne_of_gt (Nat.zero_lt_of_lt hlt))).1

/-- Below the first node of a linked list there is no unit. -/
theorem isUnit_of_mem (hwf : tree.WellFormed) (hlinked : tree.Linked (above :: nodes)) :
    ∀ node ∈ nodes, node.kind.isUnit = false := by
  induction nodes generalizing above with
  | nil => simp
  | cons first nodes ih =>
    intro node hnode
    obtain rfl | hnode := List.mem_cons.mp hnode
    · exact hlinked.isUnit_eq_false hwf
    · exact ih hlinked.tail node hnode

/-- A class below a construction is its body. -/
theorem body?_eq (hwf : tree.WellFormed) (hlinked : tree.Linked (above :: node :: nodes))
    (habove : above.kind.isConstruction = true) (hclass : node.kind.isClass = true) :
    above.kind.body? = some node.id :=
  (hwf.body_iff (hlinked.known above List.mem_cons_self) habove node.id).mpr
    ⟨node, hlinked.known node (by simp), hlinked.parent_eq, hclass⟩

end Linked

/-- A lineage follows the parent links. -/
theorem WellFormed.linked_lineage (hwf : tree.WellFormed) (id : NodeId) :
    tree.Linked (tree.lineage id) := by
  induction id using Nat.strongRecOn with
  | _ id ih =>
    cases hnode : tree.node? id with
    | none =>
      rw [lineage_eq_nil hnode]
      exact ⟨by simp, .nil⟩
    | some node =>
      have hid := hwf.id_eq hnode
      obtain ⟨-, h⟩ | ⟨parent, hparent, hlt, h⟩ := hwf.lineage_cases hnode
      · rw [h]
        exact ⟨by simpa [hid] using hnode, .singleton node⟩
      · obtain ⟨above, habove⟩ := hwf.exists_parent hnode hparent
        obtain ⟨front, hfront⟩ := hwf.exists_lineage_eq habove
        obtain ⟨hknown, hlink⟩ := ih parent hlt
        rw [h]
        refine ⟨?_, ?_⟩
        · intro other hother
          obtain hother | hother := List.mem_append.mp hother
          · exact hknown other hother
          · rw [List.mem_singleton.mp hother, hid, hnode]
        · rw [List.isChain_append]
          refine ⟨hlink, .singleton node, ?_⟩
          rw [hfront]
          simp [hparent, hwf.id_eq habove]

/-- A lineage starts at the root, which is its only compilation unit. -/
theorem WellFormed.exists_lineage_eq_cons (hwf : tree.WellFormed) {id : NodeId} (hid : id < tree.size) :
    ∃ root below, tree.lineage id = root :: below ∧ tree.lineage 0 = [root] ∧
      root.kind.isUnit = true := by
  obtain ⟨root, hroot, -, hunit⟩ := hwf.root
  have hrootLineage := hwf.lineage_root hroot
  induction id using Nat.strongRecOn with
  | _ id ih =>
    obtain ⟨node, hnode⟩ := node?_isSome_iff.mpr hid
    obtain ⟨rfl, -⟩ | ⟨parent, -, hlt, h⟩ := hwf.lineage_cases hnode
    · exact ⟨root, [], hrootLineage, hrootLineage, hunit⟩
    · obtain ⟨top, below, hparent, htop⟩ := ih parent hlt (Nat.lt_trans hlt hid)
      exact ⟨top, below ++ [node], by rw [h, hparent, List.cons_append], htop⟩

/-- The lineage of a node passes through the nearest class above it, or through the root where there is
none, and through no class from there to the node. -/
theorem WellFormed.lineage_scope (hwf : tree.WellFormed) {id : NodeId} {node : Node}
    (hnode : tree.node? id = some node) (hunit : node.kind.isUnit = false) :
    ∃ front top between, tree.lineage ((tree.scope? id).getD 0) = front ++ [top] ∧
      (top.kind.isUnit = true ∨ top.kind.isClass = true) ∧
      tree.lineage id = front ++ top :: (between ++ [node]) ∧
      ∀ other ∈ between, other.kind.isClass = false := by
  obtain ⟨above, habove⟩ := hwf.exists_lineage_eq hnode
  have hscope : tree.scope? id = (above.reverse.find? (·.kind.isClass)).map (·.id) := by
    rw [scope?, habove, List.dropLast_concat]
  cases hfind : above.reverse.find? (·.kind.isClass) with
  | none =>
    -- without a class above, the scope is the root
    have hnone : ∀ other ∈ above, other.kind.isClass = false := by
      simpa using hfind
    obtain ⟨root, below, hroot, htop, hrootUnit⟩ := hwf.exists_lineage_eq_cons (lt_size_of_node? hnode)
    rw [hscope, hfind, Option.map_none, Option.getD_none, htop, habove]
    rw [habove] at hroot
    cases above with
    | nil =>
      cases hroot
      rw [hunit] at hrootUnit
      cases hrootUnit
    | cons first between =>
      obtain ⟨rfl, -⟩ := List.cons.inj hroot
      exact ⟨[], first, between, rfl, .inl hrootUnit, rfl,
        fun other hother => hnone other (List.mem_cons_of_mem first hother)⟩
  | some scope =>
    obtain ⟨hclass, before, after, hsplit, hafter⟩ := List.find?_eq_some_iff_append.mp hfind
    have habove' : above = after.reverse ++ scope :: before.reverse := by
      rw [← List.reverse_reverse above, hsplit]
      simp
    have hlineage : tree.lineage id = after.reverse ++ scope :: (before.reverse ++ [node]) := by
      rw [habove, habove', List.append_assoc, List.cons_append]
    rw [hscope, hfind, Option.map_some, Option.getD_some]
    exact ⟨after.reverse, scope, before.reverse, (hwf.lineage_split hlineage).2, .inr hclass, hlineage,
      by simpa using hafter⟩

end Tree

end Pinpoint
