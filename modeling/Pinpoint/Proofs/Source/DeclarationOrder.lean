import Mathlib.Data.List.Lex
import Mathlib.Logic.Relation
import Mathlib.Tactic.Common
import Pinpoint.Proofs.Source.Numbering

namespace Pinpoint

open scoped List

/-- In a list that follows an asymmetric relation, one element stands before another just when they are so
related. -/
theorem pair_sublist_iff {α : Type} {r : α → α → Prop} (hasymm : ∀ a b, r a b → ¬ r b a) {items : List α}
    (hitems : items.Pairwise r) {first second : α} :
    [first, second] <+ items ↔ first ∈ items ∧ second ∈ items ∧ r first second := by
  constructor
  · intro hpair
    exact ⟨hpair.subset (by simp), hpair.subset (by simp), List.pairwise_iff_forall_sublist.mp hitems hpair⟩
  · rintro ⟨hfirst, hsecond, hrel⟩
    obtain ⟨before, after, rfl⟩ := List.append_of_mem hfirst
    obtain ⟨-, hafter, hbefore⟩ := List.pairwise_append.mp hitems
    obtain hsecond | hsecond := List.mem_append.mp hsecond
    · exact absurd (hbefore second hsecond first List.mem_cons_self) (hasymm _ _ hrel)
    · obtain rfl | hsecond := List.mem_cons.mp hsecond
      · exact absurd hrel (hasymm _ _ hrel)
      · apply List.sublist_append_of_sublist_right
        exact (List.singleton_sublist.mpr hsecond).cons_cons first

namespace Tree

/-- A node is declared before another: it is above it, or they are in two children of one node, of which its own
stands first. -/
inductive Precedes (tree : Tree) (id other : NodeId) : Prop where
  | above (hwithin : tree.Within other id) (hne : id ≠ other) : Precedes tree id other
  | aside {parent left right : NodeId} (hsiblings : [left, right] <+ tree.children parent)
      (hid : tree.Within id left) (hother : tree.Within other right) : Precedes tree id other

/-- The ids on the way from the root to a node. -/
def address (tree : Tree) (id : NodeId) : List NodeId := (tree.lineage id).map (·.id)

variable {tree : Tree} {id other top : NodeId}

/-- Children are listed in the order of their ids. -/
theorem WellFormed.sublist_children_iff (hwf : tree.WellFormed) {parent left right : NodeId} :
    [left, right] <+ tree.children parent ↔
      tree.parent? left = some parent ∧ tree.parent? right = some parent ∧ left < right := by
  rw [pair_sublist_iff (fun _ _ => Nat.lt_asymm) (hwf.pairwise_children parent), hwf.mem_children,
    hwf.mem_children]

theorem lt_size_of_parent? {parent : NodeId} (hparent : tree.parent? id = some parent) : id < tree.size := by
  obtain ⟨node, hnode, -⟩ := Option.bind_eq_some_iff.mp hparent
  exact lt_size_of_node? hnode

theorem Within.lt_size (hwithin : tree.Within id top) (htop : top < tree.size) : id < tree.size := by
  obtain rfl | ⟨parent, hparent, -⟩ := hwithin.cases_head
  · exact htop
  · exact lt_size_of_parent? hparent

/-- What is declared before a node is a node too. -/
theorem Precedes.lt_size (hprecedes : tree.Precedes id other) (hwf : tree.WellFormed)
    (hother : other < tree.size) : id < tree.size := by
  cases hprecedes with
  | above hwithin _ => exact Nat.lt_of_le_of_lt (hwf.le_of_within hwithin) hother
  | aside hsiblings hid _ => exact hid.lt_size (lt_size_of_parent? (hwf.sublist_children_iff.mp hsiblings).1)

/-- The address of a child goes on from that of its parent. -/
theorem WellFormed.address_child (hwf : tree.WellFormed) {parent : NodeId}
    (hparent : tree.parent? id = some parent) : tree.address id = tree.address parent ++ [id] := by
  obtain ⟨node, hnode, hlink⟩ := Option.bind_eq_some_iff.mp hparent
  rw [address, hwf.lineage_child hnode hlink, List.map_append, List.map_singleton, hwf.id_eq hnode, address]

/-- The way to a node goes through every node that it is within. -/
theorem WellFormed.lineage_within (hwf : tree.WellFormed) (hwithin : tree.Within id top) :
    ∃ below, tree.lineage id = tree.lineage top ++ below := by
  induction hwithin with
  | refl => exact ⟨[], (List.append_nil _).symm⟩
  | @tail child top _ hparent ih =>
    obtain ⟨below, hbelow⟩ := ih
    obtain ⟨node, hnode, hlink⟩ := Option.bind_eq_some_iff.mp hparent
    refine ⟨node :: below, ?_⟩
    rw [hbelow, hwf.lineage_child hnode hlink, List.append_assoc, List.singleton_append]

/-- The address of what is below a node goes on from that of the node. -/
theorem WellFormed.address_within (hwf : tree.WellFormed) (hwithin : tree.Within id top) :
    ∃ below, tree.address id = tree.address top ++ below := by
  obtain ⟨below, hbelow⟩ := hwf.lineage_within hwithin
  exact ⟨below.map (·.id), by rw [address, hbelow, List.map_append, address]⟩

/-- Of two nodes, the one that is declared first has the smaller address. Children have ascending ids, so the
addresses part at a smaller and a larger one. -/
theorem Precedes.address_lt (hprecedes : tree.Precedes id other) (hwf : tree.WellFormed) :
    tree.address id < tree.address other := by
  cases hprecedes with
  | above hwithin hne =>
    obtain heq | ⟨child, hchild, hparent⟩ := hwithin.cases_tail
    · exact absurd heq hne
    · obtain ⟨below, hbelow⟩ := hwf.address_within hchild
      rw [hbelow, hwf.address_child hparent, List.append_assoc, List.singleton_append]
      conv_lhs => rw [← List.append_nil (tree.address id)]
      exact List.append_left_lt (List.nil_lt_cons child below)
  | @aside parent left right hsiblings hid hother =>
    obtain ⟨hleft, hright, hlt⟩ := hwf.sublist_children_iff.mp hsiblings
    obtain ⟨before, hbefore⟩ := hwf.address_within hid
    obtain ⟨after, hafter⟩ := hwf.address_within hother
    rw [hbefore, hafter, hwf.address_child hleft, hwf.address_child hright, List.append_assoc,
      List.append_assoc]
    exact List.append_left_lt (List.cons_lt_cons_iff.mpr (.inl hlt))

/-- No two nodes come before each other. -/
theorem Precedes.asymm (hwf : tree.WellFormed) (hprecedes : tree.Precedes id other) :
    ¬ tree.Precedes other id := by
  intro hback
  exact List.lt_asymm (hprecedes.address_lt hwf) (hback.address_lt hwf)

/-- A subtree lists its nodes in the order of declaration. -/
theorem WellFormed.pairwise_precedes_subtree (hwf : tree.WellFormed) (hid : id < tree.size) :
    (tree.subtree id).Pairwise tree.Precedes := by
  refine hwf.subtree_induction (motive := fun id => (tree.subtree id).Pairwise tree.Precedes) ?_ id hid
  intro id hid ih
  have hnodup := hwf.nodup_subtree hid
  rw [hwf.subtree_eq hid, List.nodup_cons] at hnodup
  rw [hwf.subtree_eq hid, List.pairwise_cons, List.pairwise_flatMap]
  have hwithin {child other : NodeId} (hchild : child ∈ tree.children id) (hother : other ∈ tree.subtree child) :
      tree.Within other child := hwf.within_of_mem_subtree (hwf.lt_of_mem_children hchild).2 hother
  refine ⟨?_, ih, ?_⟩
  · intro other hother
    obtain ⟨child, hchild, hmem⟩ := List.mem_flatMap.mp hother
    refine .above ((hwithin hchild hmem).tail (hwf.mem_children.mp hchild)) ?_
    rintro rfl
    exact hnodup.1 hother
  · rw [List.pairwise_iff_forall_sublist]
    intro left right hsiblings first hfirst second hsecond
    exact .aside hsiblings (hwithin (hsiblings.subset (by simp)) hfirst)
      (hwithin (hsiblings.subset (by simp)) hsecond)

/-- The pre-order is the order of declaration. -/
theorem WellFormed.sublist_preorder_iff (hwf : tree.WellFormed) :
    [id, other] <+ tree.preorder ↔ other < tree.size ∧ tree.Precedes id other := by
  have hpairwise : tree.preorder.Pairwise tree.Precedes := by
    rw [hwf.preorder_eq]
    exact hwf.pairwise_precedes_subtree hwf.size_pos
  rw [pair_sublist_iff (fun _ _ => Precedes.asymm hwf) hpairwise, hwf.mem_preorder, hwf.mem_preorder]
  constructor
  · rintro ⟨-, hother, hprecedes⟩
    exact ⟨hother, hprecedes⟩
  · rintro ⟨hother, hprecedes⟩
    exact ⟨hprecedes.lt_size hwf hother, hother, hprecedes⟩

/-- What stands before a node in the pre-order is what is declared before it. -/
theorem WellFormed.mem_before_iff (hwf : tree.WellFormed) {before after : List NodeId}
    (hsplit : tree.preorder = before ++ id :: after) : other ∈ before ↔ tree.Precedes other id := by
  have hid : id < tree.size := by
    rw [← hwf.mem_preorder, hsplit]
    simp
  have hnodup := hwf.nodup_preorder
  rw [hsplit, List.nodup_append] at hnodup
  constructor
  · intro hmem
    refine (hwf.sublist_preorder_iff.mp ?_).2
    rw [hsplit]
    exact (List.singleton_sublist.mpr hmem).append (List.singleton_sublist.mpr List.mem_cons_self)
  · intro hprecedes
    have hmem := hwf.mem_preorder.mpr (hprecedes.lt_size hwf hid)
    rw [hsplit, List.mem_append, List.mem_cons] at hmem
    obtain hmem | rfl | hmem := hmem
    · exact hmem
    · exact absurd hprecedes (hprecedes.asymm hwf)
    · refine absurd (hwf.sublist_preorder_iff.mp ?_).2 (hprecedes.asymm hwf)
      rw [hsplit]
      apply List.sublist_append_of_sublist_right
      exact (List.singleton_sublist.mpr hmem).cons_cons id

end Tree

end Pinpoint
