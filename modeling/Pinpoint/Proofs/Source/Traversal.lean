import Mathlib.Data.List.Perm.Basic
import Mathlib.Tactic.Common
import Pinpoint.Proofs.Source.Arena
import Pinpoint.Proofs.Source.DeclarationOrder

namespace Pinpoint

open scoped List

namespace Tree

/-- The rounds of a traversal by a stack, whose top is its last element: while there is one, it is listed, and its
children take its place, the first of them on top. Rounds end at the empty stack, and only there: there is no round
for an unknown node. -/
inductive Unstacks (tree : Tree) : (listed stack order : List NodeId) → Prop where
  | done {listed : List NodeId} : Unstacks tree listed [] listed
  | round {listed stack order : List NodeId} {id : NodeId} {node : Node} (hnode : tree.node? id = some node)
      (hrounds : Unstacks tree (listed ++ [id]) (stack ++ node.children.reverse) order) :
      Unstacks tree listed (stack ++ [id]) order

/-- The recursion that pre-orders of subtrees obey: each is its root, followed by those of the children in order. -/
def Recurses (tree : Tree) (order : NodeId → List NodeId) : Prop :=
  ∀ id < tree.size, order id = id :: (tree.children id).flatMap order

/-- What a stack leads to: the subtrees of its elements, from the top down. -/
def ahead (tree : Tree) (stack : List NodeId) : List NodeId := stack.reverse.flatMap tree.subtree

variable {tree : Tree} {listed stack : List NodeId} {id : NodeId} {node : Node}

theorem children_of_node? (hnode : tree.node? id = some node) : tree.children id = node.children := by
  rw [children, hnode]

/-- A round lists the first of the nodes ahead and leaves the others there. -/
theorem WellFormed.ahead_concat (hwf : tree.WellFormed) (hid : id < tree.size) (stack : List NodeId) :
    tree.ahead (stack ++ [id]) = id :: tree.ahead (stack ++ (tree.children id).reverse) := by
  rw [ahead, List.reverse_concat, List.flatMap_cons, hwf.subtree_eq hid, List.cons_append, ahead,
    List.reverse_append, List.reverse_reverse, List.flatMap_append]

/-- Rounds that end have listed what was ahead. -/
theorem Unstacks.eq_ahead (hwf : tree.WellFormed) {order : List NodeId} (hrounds : tree.Unstacks listed stack order) :
    order = listed ++ tree.ahead stack := by
  induction hrounds with
  | done => rw [ahead, List.reverse_nil, List.flatMap_nil, List.append_nil]
  | @round listed stack order id node hnode _ ih =>
    rw [ih, hwf.ahead_concat (lt_size_of_node? hnode), children_of_node? hnode, List.append_assoc,
      List.singleton_append]

/-- The rounds end. -/
theorem WellFormed.unstacks_ahead (hwf : tree.WellFormed) (hstack : ∀ id ∈ stack, id < tree.size) :
    tree.Unstacks listed stack (listed ++ tree.ahead stack) := by
  -- every round shortens what is ahead by one node
  induction hlength : (tree.ahead stack).length generalizing listed stack with
  | zero =>
    cases stack using List.reverseRecOn with
    | nil =>
      rw [ahead, List.reverse_nil, List.flatMap_nil, List.append_nil]
      exact .done
    | append_singleton stack id =>
      rw [hwf.ahead_concat (hstack id (by simp))] at hlength
      cases hlength
  | succ length ih =>
    cases stack using List.reverseRecOn with
    | nil => cases hlength
    | append_singleton stack id =>
      have hid := hstack id (by simp)
      obtain ⟨node, hnode⟩ := node?_isSome_iff.mpr hid
      have hnext : ∀ next ∈ stack ++ (tree.children id).reverse, next < tree.size := by
        intro next hnext
        obtain hbelow | hchild := List.mem_append.mp hnext
        · exact hstack next (List.mem_append_left _ hbelow)
        · exact (hwf.lt_of_mem_children (List.mem_reverse.mp hchild)).2
      rw [hwf.ahead_concat hid] at hlength ⊢
      rw [List.append_cons listed]
      refine .round hnode ?_
      rw [← children_of_node? hnode]
      exact ih hnext (Nat.succ.inj hlength)

/-- From the root on, a stack lists the pre-order and nothing else. -/
theorem WellFormed.unstacks_root_iff (hwf : tree.WellFormed) {order : List NodeId} :
    tree.Unstacks [] [0] order ↔ order = tree.preorder := by
  have hahead : tree.ahead [0] = tree.preorder := by
    rw [hwf.preorder_eq]
    simp [ahead]
  constructor
  · intro hrounds
    rw [hrounds.eq_ahead hwf, List.nil_append, hahead]
  · rintro rfl
    have hrounds : tree.Unstacks [] [0] ([] ++ tree.ahead [0]) :=
      hwf.unstacks_ahead (by simpa using hwf.size_pos)
    rwa [List.nil_append, hahead] at hrounds

/-- The recursion has one solution on the nodes of a tree. -/
theorem WellFormed.recurses_eq (hwf : tree.WellFormed) {order : NodeId → List NodeId}
    (horder : tree.Recurses order) (hid : id < tree.size) : order id = tree.subtree id := by
  refine hwf.subtree_induction (motive := fun id => order id = tree.subtree id) ?_ id hid
  intro id hid ih
  rw [horder id hid, hwf.subtree_eq hid]
  congr 1
  exact List.flatMap_congr ih

/-- The pre-order lists each node once. -/
theorem WellFormed.preorder_perm (hwf : tree.WellFormed) : tree.preorder ~ List.range tree.size := by
  rw [List.perm_ext_iff_of_nodup hwf.nodup_preorder List.nodup_range]
  intro id
  rw [hwf.mem_preorder, List.mem_range]

/-- The traversal by a stack ends, and with the pre-order. This is the one that the recursion over the children
gives; it holds every node once, and every node after its parent. -/
theorem preorder_by_stack (htree : tree.Grown) :
    (∀ order, tree.Unstacks [] [0] order ↔ order = tree.preorder) ∧
    (∃ order, tree.Recurses order) ∧ (∀ order, tree.Recurses order → order 0 = tree.preorder) ∧
    tree.preorder ~ List.range tree.size ∧
    ∀ id parent, tree.parent? id = some parent → [parent, id] <+ tree.preorder := by
  have hwf := htree.wellFormed
  refine ⟨fun _ => hwf.unstacks_root_iff, ⟨tree.subtree, fun _ => hwf.subtree_eq⟩, ?_, hwf.preorder_perm, ?_⟩
  · intro order horder
    rw [hwf.preorder_eq, hwf.recurses_eq horder hwf.size_pos]
  · intro id parent hparent
    have habove : tree.Precedes parent id := .above (.single hparent) (Nat.ne_of_lt (hwf.lt_of_parent? hparent))
    exact hwf.sublist_preorder_iff.mpr ⟨lt_size_of_parent? hparent, habove⟩

/-- Two classes that have been given their members in turn. -/
def braided : Tree :=
  (unit none).pushed [(0, .classDecl "A" .ordinary), (0, .classDecl "B" .ordinary), (1, .method "m" [] none),
    (2, .method "n" [] none), (1, .variable "x" false)]

theorem preorder_by_stack_braided :
    braided.Unstacks [] [0] [0, 1, 3, 5, 2, 4] ∧ [1, 5] <+ braided.preorder := by
  have hpreorder : braided.preorder = [0, 1, 3, 5, 2, 4] := by decide +kernel
  obtain ⟨hstack, -, -, -, hparents⟩ := preorder_by_stack (Grown.pushed (.unit none) _ : braided.Grown)
  exact ⟨(hstack _).mpr hpreorder.symm, hparents 5 1 (by decide +kernel)⟩

end Tree

end Pinpoint
