import Mathlib.Data.List.Sort
import Mathlib.Logic.Relation
import Mathlib.Tactic.Common
import Pinpoint.Proofs.Source.Preorder

namespace Pinpoint

namespace Tree

/-- A node is `top` or below it. -/
def Within (tree : Tree) : (id top : NodeId) → Prop :=
  Relation.ReflTransGen fun child parent => tree.parent? child = some parent

/-- Every node but the root has joined a node that the node before it is within. -/
def InOrder (tree : Tree) : Prop :=
  ∀ id parent, tree.parent? (id + 1) = some parent → tree.Within id parent

variable {tree grown : Tree} {id top : NodeId}

/-- Parents have smaller ids. -/
theorem WellFormed.lt_of_parent? (hwf : tree.WellFormed) {parent : NodeId}
    (hparent : tree.parent? id = some parent) : parent < id := by
  obtain ⟨node, hnode, hlink⟩ := Option.bind_eq_some_iff.mp hparent
  exact hwf.lt_of_parent hnode hlink

/-- What is below a node has no smaller id. -/
theorem WellFormed.le_of_within (hwf : tree.WellFormed) (hwithin : tree.Within id top) : top ≤ id := by
  induction hwithin with
  | refl => exact Nat.le_refl id
  | tail _ hparent ih => exact Nat.le_trans (Nat.le_of_lt (hwf.lt_of_parent? hparent)) ih

/-- The nodes of a subtree are below its top. -/
theorem WellFormed.within_of_mem_subtree (hwf : tree.WellFormed) (htop : top < tree.size)
    (hid : id ∈ tree.subtree top) : tree.Within id top := by
  revert hid
  refine hwf.subtree_induction (motive := fun top => id ∈ tree.subtree top → tree.Within id top) ?_ top htop
  intro top htop ih hid
  rw [hwf.subtree_eq htop, List.mem_cons, List.mem_flatMap] at hid
  obtain rfl | ⟨child, hchild, hid⟩ := hid
  · exact .refl
  · exact (ih child hchild hid).tail (hwf.mem_children.mp hchild)

/-- A subtree has no gaps: it holds every id from its root to any of its nodes. -/
theorem InOrder.within_of_between (horder : tree.InOrder) {middle last : NodeId}
    (hwithin : tree.Within last top) (htop : top ≤ middle) (hlast : middle ≤ last) :
    tree.Within middle top := by
  induction last with
  | zero =>
    rw [Nat.le_zero.mp hlast]
    exact hwithin
  | succ last ih =>
    obtain rfl | hlt := Nat.eq_or_lt_of_le hlast
    · exact hwithin
    · obtain rfl | ⟨parent, hparent, hrest⟩ := hwithin.cases_head
      · exact absurd (Nat.lt_of_lt_of_le hlt htop) (Nat.lt_irrefl _)
      · exact ih ((horder last parent hparent).trans hrest) (Nat.le_of_lt_succ hlt)

/-- Of two children, the first has all its subtree before the second. -/
theorem WellFormed.lt_of_siblings (hwf : tree.WellFormed) (horder : tree.InOrder)
    {left right first second : NodeId}
    (hleft : left ∈ tree.children id) (hright : right ∈ tree.children id) (hlt : left < right)
    (hfirst : first ∈ tree.subtree left) (hsecond : second ∈ tree.subtree right) : first < second := by
  have hrightLe := hwf.le_of_within
    (hwf.within_of_mem_subtree (hwf.lt_of_mem_children hright).2 hsecond)
  refine Nat.lt_of_lt_of_le ?_ hrightLe
  by_contra hnot
  have hinside := horder.within_of_between
    (hwf.within_of_mem_subtree (hwf.lt_of_mem_children hleft).2 hfirst)
    (Nat.le_of_lt hlt) (Nat.le_of_not_lt hnot)
  obtain rfl | ⟨parent, hparent, hrest⟩ := hinside.cases_head
  · exact Nat.lt_irrefl _ hlt
  · rw [hwf.mem_children.mp hright, Option.some.injEq] at hparent
    subst hparent
    have hup := hwf.le_of_within hrest
    exact Nat.lt_irrefl _ (Nat.lt_of_lt_of_le (hwf.lt_of_mem_children hleft).1 hup)

/-- Children are listed in the order of their ids. -/
theorem WellFormed.pairwise_children (hwf : tree.WellFormed) (id : NodeId) :
    (tree.children id).Pairwise (· < ·) := by
  unfold children
  split
  · rename_i node hnode
    rw [hwf.children_eq hnode]
    exact List.pairwise_lt_range.filter _
  · exact .nil

/-- If the ids are in order, so is every subtree. -/
theorem WellFormed.pairwise_subtree (hwf : tree.WellFormed) (horder : tree.InOrder) (hid : id < tree.size) :
    (tree.subtree id).Pairwise (· < ·) := by
  refine hwf.subtree_induction (motive := fun id => (tree.subtree id).Pairwise (· < ·)) ?_ id hid
  intro id hid ih
  rw [hwf.subtree_eq hid, List.pairwise_cons, List.pairwise_flatMap]
  refine ⟨?_, ih, ?_⟩
  · intro other hother
    obtain ⟨child, hchild, hother⟩ := List.mem_flatMap.mp hother
    obtain ⟨hlt, hsize⟩ := hwf.lt_of_mem_children hchild
    exact Nat.lt_of_lt_of_le hlt (hwf.le_of_within (hwf.within_of_mem_subtree hsize hother))
  · refine (hwf.pairwise_children id).imp_of_mem ?_
    intro left right hleft hright hlt first hfirst second hsecond
    exact hwf.lt_of_siblings horder hleft hright hlt hfirst hsecond

/-- The pre-order of a tree that has grown along its edge is the order of the ids. -/
theorem WellFormed.preorder_eq_range (hwf : tree.WellFormed) (horder : tree.InOrder) :
    tree.preorder = List.range tree.size := by
  rw [hwf.preorder_eq]
  refine (hwf.pairwise_subtree horder hwf.size_pos).eq_of_mem_iff List.pairwise_lt_range ?_
  intro id
  rw [hwf.mem_subtree_root, List.mem_range]

/-- A tree that can grow at `parent` and stay in order: its last node is within `parent`. -/
structure Edge (tree : Tree) (parent : NodeId) : Prop where
  wellFormed : tree.WellFormed
  inOrder : tree.InOrder
  last : tree.Within (tree.size - 1) parent

/-- All links of a tree are there after it has grown. -/
def Keeps (tree grown : Tree) : Prop :=
  ∀ child parent, tree.parent? child = some parent → grown.parent? child = some parent

theorem Keeps.within (hkeeps : tree.Keeps grown) (hwithin : tree.Within id top) : grown.Within id top :=
  Relation.ReflTransGen.mono hkeeps _ _ hwithin

section Push

variable {parent : NodeId} {kind : Kind}

/-- A push leaves every parent link as it is. -/
theorem keeps_of_push (hpush : tree.push parent kind = .ok grown) : tree.Keeps grown := by
  intro child above habove
  obtain ⟨node, hnode, -⟩ := Option.bind_eq_some_iff.mp habove
  rw [parent?_of_push hpush, if_neg (Nat.ne_of_lt (lt_size_of_node? hnode)), habove]

/-- A node that is pushed at the edge is the new edge. -/
theorem Edge.push (hedge : tree.Edge parent) (hpush : tree.push parent kind = .ok grown) :
    grown.Edge tree.size := by
  obtain ⟨hwf, horder, hlast⟩ := hedge
  have hkeeps := keeps_of_push hpush
  refine ⟨hwf.push hpush, ?_, ?_⟩
  · intro id above habove
    rw [parent?_of_push hpush] at habove
    by_cases hnew : id + 1 = tree.size
    · rw [if_pos hnew, Option.some.injEq] at habove
      rw [← hnew, Nat.add_sub_cancel, habove] at hlast
      exact hkeeps.within hlast
    · rw [if_neg hnew] at habove
      exact hkeeps.within (horder id above habove)
  · rw [size_of_push hpush, Nat.add_sub_cancel]
    exact .refl

end Push

mutual

/-- Growing an outline at the edge keeps the tree in order, and the edge is where it was. -/
theorem Edge.graft {tree grown : Tree} {parent : NodeId} {outline : Outline} (hedge : tree.Edge parent)
    (hgraft : tree.graft parent outline = .ok grown) : grown.Edge parent ∧ tree.Keeps grown := by
  obtain ⟨kind, children⟩ := outline
  obtain ⟨next, hpush, hchildren⟩ := graft_eq_ok_iff.mp hgraft
  obtain ⟨hgrown, hkeeps⟩ := Edge.graftAll (hedge.push hpush) hchildren
  have hparent : next.parent? tree.size = some parent := by rw [parent?_of_push hpush, if_pos rfl]
  exact ⟨⟨hgrown.wellFormed, hgrown.inOrder, hgrown.last.tail (hkeeps _ _ hparent)⟩,
    fun child above hlink => hkeeps child above (keeps_of_push hpush child above hlink)⟩

/-- Outlines that grow at the edge leave their parent at the edge. -/
theorem Edge.graftAll {tree grown : Tree} {parent : NodeId} {outlines : List Outline}
    (hedge : tree.Edge parent)
    (hgraft : tree.graftAll parent outlines = .ok grown) : grown.Edge parent ∧ tree.Keeps grown := by
  cases outlines with
  | nil =>
    rw [Tree.graftAll] at hgraft
    cases hgraft
    exact ⟨hedge, fun _ _ hlink => hlink⟩
  | cons outline rest =>
    obtain ⟨next, hfirst, hrest⟩ := graftAll_cons_eq_ok_iff.mp hgraft
    obtain ⟨hnext, hkeeps⟩ := Edge.graft hedge hfirst
    obtain ⟨hgrown, hlater⟩ := Edge.graftAll hnext hrest
    exact ⟨hgrown, fun child above hlink => hlater child above (hkeeps child above hlink)⟩

end

theorem edge_leaf (package : Option String) : (leaf (.unit package)).Edge 0 := by
  refine ⟨wellFormed_leaf package, ?_, .refl⟩
  intro id parent hparent
  rw [parent?, node?_leaf, if_neg (Nat.succ_ne_zero id)] at hparent
  cases hparent

/-- The ids of a tree that grows from an outline are in pre-order. -/
theorem preorder_ofOutline {outline : Outline} (houtline : ofOutline outline = .ok tree) :
    tree.preorder = List.range tree.size := by
  obtain ⟨package, -, hchildren⟩ := ofOutline_eq_ok_iff.mp houtline
  have hedge := (Edge.graftAll (edge_leaf package) hchildren).1
  exact hedge.wellFormed.preorder_eq_range hedge.inOrder

end Tree

end Pinpoint
