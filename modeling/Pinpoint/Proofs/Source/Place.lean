import Mathlib.Tactic.Common
import Pinpoint.Proofs.Source.Isomorphism
import Pinpoint.Proofs.Source.Outline

namespace Pinpoint

namespace Tree

variable {tree other : Tree} {id id' : NodeId}

theorem WellFormed.parent?_root (hwf : tree.WellFormed) : tree.parent? 0 = none := by
  obtain ⟨root, hroot, hnone, -⟩ := hwf.root
  rw [parent?, hroot, Option.bind_some, hnone]

/-- Two nodes stand at the same place of two trees: they are the roots, or each is the `n`-th child of a node,
and these stand at the same place. -/
inductive SamePlace (tree other : Tree) : NodeId → NodeId → Prop where
  | root : SamePlace tree other 0 0
  | child {id id' child child' : NodeId} {n : Nat} (habove : SamePlace tree other id id')
      (hchild : (tree.children id)[n]? = some child) (hchild' : (other.children id')[n]? = some child') :
      SamePlace tree other child child'

/-- Standing at the same place goes both ways. -/
theorem SamePlace.symm (hsame : tree.SamePlace other id id') : other.SamePlace tree id' id := by
  induction hsame with
  | root => exact .root
  | child _ hchild hchild' ih => exact .child ih hchild' hchild

/-- What stands at a place is a node of its tree. -/
theorem SamePlace.lt_size (hsame : tree.SamePlace other id id') (hwf : tree.WellFormed) :
    id < tree.size := by
  cases hsame with
  | root => exact hwf.size_pos
  | child _ hchild _ => exact (hwf.lt_of_mem_children (List.mem_of_getElem? hchild)).2

/-- A node has one place. -/
theorem SamePlace.unique (hsame : tree.SamePlace other id id') (hwf : tree.WellFormed) {id'' : NodeId}
    (hsame' : tree.SamePlace other id id'') : id' = id'' := by
  have hroot {above : NodeId} {n : Nat} : ¬ (tree.children above)[n]? = some 0 := fun hchild =>
    Nat.not_lt_zero _ (hwf.lt_of_mem_children (List.mem_of_getElem? hchild)).1
  induction hsame generalizing id'' with
  | root =>
    cases hsame' with
    | root => rfl
    | child _ hchild _ => exact absurd hchild hroot
  | @child above above' child child' n _ hchild hchild' ih =>
    cases hsame' with
    | root => exact absurd hchild hroot
    | @child other _ _ _ m hother hfound hfound' =>
      have hparent := hwf.mem_children.mp (List.mem_of_getElem? hchild)
      rw [hwf.mem_children.mp (List.mem_of_getElem? hfound), Option.some.injEq] at hparent
      subst hparent
      have hnumber : n = m := by
        refine (List.getElem?_inj ?_ (hwf.nodup_children other)).mp (hchild.trans hfound.symm)
        exact (List.getElem?_eq_some_iff.mp hchild).1
      rw [← ih hother, ← hnumber, hchild', Option.some.injEq] at hfound'
      exact hfound'

/-- The outlines of several nodes are theirs in order. -/
theorem HasOutlines.rel_getElem? {ids : List NodeId} {outlines : List Outline}
    (houtlines : tree.HasOutlines ids outlines) (n : Nat) :
    Option.Rel tree.HasOutline ids[n]? outlines[n]? := by
  rw [hasOutlines_iff] at houtlines
  induction houtlines generalizing n with
  | nil => exact .none
  | cons hfirst _ ih =>
    cases n with
    | zero => exact .some hfirst
    | succ n => exact ih n

/-- The children of two nodes of one outline have, one by one, one outline. -/
theorem HasOutline.rel_children {outline : Outline} (houtline : tree.HasOutline id outline)
    (houtline' : other.HasOutline id' outline) (n : Nat) :
    Option.Rel (fun child child' => ∃ part, tree.HasOutline child part ∧ other.HasOutline child' part)
      (tree.children id)[n]? (other.children id')[n]? := by
  obtain ⟨kind, children⟩ := outline
  obtain ⟨node, hnode, -, hchildren⟩ := houtline
  obtain ⟨node', hnode', -, hchildren'⟩ := houtline'
  have hrel := hchildren.rel_getElem? n
  have hrel' := hchildren'.rel_getElem? n
  rw [Tree.children, hnode, Tree.children, hnode']
  dsimp only
  generalize node.children[n]? = child at hrel ⊢
  generalize node'.children[n]? = child' at hrel' ⊢
  generalize children[n]? = part at hrel hrel'
  cases hrel with
  | none =>
    cases hrel' with
    | none => exact .none
  | some hpart =>
    cases hrel' with
    | some hpart' => exact .some ⟨_, hpart, hpart'⟩

variable {outline : Outline} (hroot : tree.HasOutline 0 outline) (hroot' : other.HasOutline 0 outline)

include hroot hroot'

/-- Nodes at the same place of two trees of one outline have one outline. -/
theorem SamePlace.exists_outline (hsame : tree.SamePlace other id id') :
    ∃ part, tree.HasOutline id part ∧ other.HasOutline id' part := by
  induction hsame with
  | root => exact ⟨outline, hroot, hroot'⟩
  | @child above above' child child' n _ hchild hchild' ih =>
    obtain ⟨part, hpart, hpart'⟩ := ih
    have hrel := hpart.rel_children hpart' n
    rw [hchild, hchild'] at hrel
    cases hrel with
    | some hsub => exact hsub

/-- The children of nodes at the same place stand, one by one, at the same place. -/
theorem SamePlace.rel_children (hsame : tree.SamePlace other id id') (n : Nat) :
    Option.Rel (tree.SamePlace other) (tree.children id)[n]? (other.children id')[n]? := by
  obtain ⟨part, hpart, hpart'⟩ := hsame.exists_outline hroot hroot'
  have hrel := hpart.rel_children hpart' n
  cases hchild : (tree.children id)[n]? with
  | none =>
    cases hchild' : (other.children id')[n]? with
    | none => exact .none
    | some child' =>
      rw [hchild, hchild'] at hrel
      cases hrel
  | some child =>
    cases hchild' : (other.children id')[n]? with
    | none =>
      rw [hchild, hchild'] at hrel
      cases hrel
    | some child' => exact .some (.child hsame hchild hchild')

/-- Of two trees with one outline, each has all places of the other. -/
theorem WellFormed.exists_samePlace (hwf : tree.WellFormed) (hid : id < tree.size) :
    ∃ id', tree.SamePlace other id id' := by
  induction id using Nat.strongRecOn with
  | _ id ih =>
    by_cases hzero : id = 0
    · rw [hzero]
      exact ⟨0, .root⟩
    · obtain ⟨node, hnode⟩ := node?_isSome_iff.mpr hid
      obtain ⟨-, parent, hparent, hlt⟩ := hwf.parent_lt hnode hzero
      obtain ⟨parent', hsame⟩ := ih parent hlt (Nat.lt_trans hlt hid)
      have hmem : id ∈ tree.children parent := by
        rw [hwf.mem_children, parent?, hnode, Option.bind_some, hparent]
      obtain ⟨n, hchild⟩ := List.mem_iff_getElem?.mp hmem
      have hrel := hsame.rel_children hroot hroot' n
      rw [hchild] at hrel
      generalize (other.children parent')[n]? = child' at hrel
      cases hrel with
      | some hsame' => exact ⟨_, hsame'⟩

/-- The nodes at the same place give the renumbering of a tree into another one of its outline. -/
theorem WellFormed.exists_iso (hwf : tree.WellFormed) (hwf' : other.WellFormed) :
    ∃ f, tree.Iso other f := by
  choose! f hf using fun id (hid : id < tree.size) => hwf.exists_samePlace hroot hroot' hid
  have heq {id id' : NodeId} (hsame : tree.SamePlace other id id') : f id = id' :=
    (hf id (hsame.lt_size hwf)).unique hwf hsame
  -- it is onto and one to one since places can be found both ways, and keeps links, children and kinds
  refine ⟨f, ⟨?_, ?_, ?_⟩, heq .root, ?_, ?_, ?_⟩
  · intro id hid
    exact (hf id hid).symm.lt_size hwf'
  · intro id hid id' hid' himage
    have hsame := (hf id' hid').symm
    rw [← himage] at hsame
    exact (hf id hid).symm.unique hwf' hsame
  · intro id' hid'
    obtain ⟨id, hsame⟩ := hwf'.exists_samePlace hroot' hroot hid'
    exact ⟨id, hsame.symm.lt_size hwf, heq hsame.symm⟩
  · intro id hid
    have hsame := hf id hid
    generalize f id = id' at hsame
    cases hsame with
    | root => rw [hwf.parent?_root, hwf'.parent?_root, Option.map_none]
    | child habove hchild hchild' =>
      rw [hwf.mem_children.mp (List.mem_of_getElem? hchild),
        hwf'.mem_children.mp (List.mem_of_getElem? hchild'), Option.map_some, heq habove]
  · intro id hid
    apply List.ext_getElem?
    intro n
    rw [List.getElem?_map]
    have hrel := (hf id hid).rel_children hroot hroot' n
    generalize (tree.children id)[n]? = child at hrel ⊢
    generalize (other.children (f id))[n]? = child' at hrel ⊢
    cases hrel with
    | none => rfl
    | some hsame => rw [Option.map_some, heq hsame]
  · intro id hid
    obtain ⟨part, hpart, hpart'⟩ := (hf id hid).exists_outline hroot hroot'
    obtain ⟨node, hnode, hdeclared, -⟩ := hasOutline_iff.mp hpart
    obtain ⟨node', hnode', hdeclared', -⟩ := hasOutline_iff.mp hpart'
    rw [kind?, hnode', kind?, hnode, Option.map_some, Option.map_some, Option.map_some, Option.map_some,
      hdeclared, hdeclared']

omit hroot' in
/-- The outline of a tree grows into a tree that differs from it in the numbers of the nodes only. -/
theorem WellFormed.exists_ofOutline (hwf : tree.WellFormed) :
    ∃ built f, ofOutline outline = .ok built ∧ tree.Iso built f := by
  have hunit : outline.kind.isUnit = true := by
    obtain ⟨root, hnode, -, hkind⟩ := hwf.root
    obtain ⟨node, hnode', hdeclared, -⟩ := hasOutline_iff.mp hroot
    cases hnode.symm.trans hnode'
    rw [← Kind.isUnit_declared, ← hdeclared, Kind.isUnit_declared, hkind]
  obtain ⟨built, hbuilt⟩ := exists_ofOutline_iff.mpr ⟨hunit, hwf.sound hroot⟩
  obtain ⟨f, hiso⟩ := hwf.exists_iso hroot (hasOutline_ofOutline hbuilt) (Grown.of_ofOutline hbuilt).wellFormed
  exact ⟨built, f, hbuilt, hiso⟩

end Tree

end Pinpoint
