import Mathlib.Data.List.Basic
import Mathlib.Tactic.Common
import Pinpoint.Proofs.BinaryName.Nesting

namespace Pinpoint

namespace Tree

variable {tree : Tree} {above node : Node} {below : List Node}

/-- A class is reached with just its own name left if it is not numbered. -/
theorem isNamedBy_segment (hlinked : tree.Linked [above, node])
    (hclass : node.kind.isClass = true) (habove : above.kind.isConstruction = false) :
    BinaryName.isNamedBy (some above.kind) node (List.intercalate ['$'] (tree.segments [node])) =
      decide (tree.series? node = none) := by
  obtain ⟨name, hname⟩ := Kind.className?_of_isClass hclass
  have hseries := hlinked.series?_eq hname
  have htext : List.intercalate ['$'] (tree.segments [node]) = tree.rankText node ++ name.toList := by
    rw [segments_class hname]
    exact List.intercalate_singleton
  rw [htext]
  by_cases hblock : above.kind = .block
  · rw [if_pos hblock] at hseries
    simp [BinaryName.isNamedBy, hblock, hseries]
  · rw [if_neg hblock] at hseries
    by_cases hempty : name = ""
    · rw [if_pos hempty] at hseries
      simp [BinaryName.isNamedBy, hname, hempty, hseries]
    · rw [if_neg hempty] at hseries
      have hrank : tree.rankText node = [] := by
        rw [rankText, hseries, Option.bind_none, Option.elim_none]
      simp [BinaryName.isNamedBy, hblock, habove, hname, hempty, hseries, hrank]

/-- At the named class the search is over, unless the class is named by a rank. -/
theorem WellFormed.walk_named_class (hwf : tree.WellFormed) (hids : tree.size ≤ UInt32.size)
    (hlinked : tree.Linked [above, node]) (hnameable : tree.Nameable [above, node])
    (hclass : node.kind.isClass = true) :
    BinaryName.walk tree.ranks false (some above.kind) false
        (List.intercalate ['$'] (tree.pending above.kind [node])) (node :: below) =
      if tree.series? node = none then .ok true
      else BinaryName.walk tree.ranks false (some node.kind) false [] below := by
  rw [BinaryName.walk]
  cases habove : above.kind.isConstruction with
  | true =>
    have hname := ((List.isChain_cons_cons.mp hnameable.body).1 habove).2
    have hblock : above.kind ≠ .block := by
      intro hblock
      rw [hblock] at habove
      cases habove
    have hseries := hlinked.series?_eq hname
    rw [if_neg hblock, if_pos rfl] at hseries
    have htext : tree.pending above.kind [node] = [] := by
      rw [pending, if_pos habove, segments_class hname]
      rfl
    have hbody : (some above.kind).any Kind.isConstruction = true := habove
    rw [BinaryName.readNode_body hclass hbody, htext, hseries]
    rfl
  | false =>
    have hsuits := hwf.suits hids hlinked
    have hconsumes := hwf.consumes_segment hlinked hnameable hclass habove
    rw [pending_eq habove, BinaryName.readNode_inexact, isNamedBy_segment hlinked hclass habove]
    by_cases hseries : tree.series? node = none
    · simp [hseries]
    · rw [hconsumes.readNode_eq hsuits.fits (hsuits.body node (by simp)) (by simp),
        Kind.isConstruction_of_isClass hclass]
      simp [hseries, segments]

/-- A search at any depth for the compiled name of a class finds everything in a class that has a name of its
own. In a class named by a rank it finds what an exact search finds. -/
theorem inClass_below (htree : tree.Grown) (hids : tree.size ≤ UInt32.size) {id leaf : NodeId}
    (hnode : tree.node? id = some node) (hclass : node.kind.isClass = true)
    (hnameable : tree.Nameable (tree.lineage id))
    (hbelow : tree.lineage leaf = tree.lineage id ++ below) :
    (Criterion.inClass (tree.compiledName id) false).holds tree.ranks (tree.path? leaf) =
      .ok (decide (tree.series? node = none ∨ BinaryName.Leaks node below)) := by
  have hwf := htree.wellFormed
  obtain ⟨parent, above, habove, hparent⟩ := hwf.lineage_parent hnode (Kind.isUnit_of_isClass hclass)
  obtain ⟨front, hfront⟩ := hwf.exists_lineage_eq habove
  have hlineage : tree.lineage id = front ++ above :: [node] := by
    rw [hparent, hfront, List.append_assoc, List.singleton_append]
  have hwhole : tree.lineage leaf = front ++ above :: (node :: below) := by
    rw [hbelow, hlineage, List.append_assoc, List.cons_append, List.singleton_append]
  have hlinked : tree.Linked (above :: node :: below) := (hwhole ▸ hwf.linked_lineage leaf).of_append
  have hpair : tree.Linked [above, node] := (hlineage ▸ hwf.linked_lineage id).of_append
  have hleaf : leaf < tree.size :=
    lt_size_of_mem_lineage (hwhole ▸ List.mem_append_right front List.mem_cons_self)
  rw [hwf.holds_inClass hleaf, hwhole,
    hwf.walk_compiledName_upTo hids hlineage hnameable (by simp) (.inr ⟨node, by simp, hclass⟩),
    hwf.walk_named_class hids hpair (hlineage ▸ hnameable).append.2 hclass,
    BinaryName.walk_spent (hlinked.tail.isUnit_of_mem hwf)]
  by_cases hseries : tree.series? node = none
  · simp [hseries]
  · simp [hseries]

end Tree

/-- A local class that holds a class of its own. -/
def Outline.nested : Outline :=
  ⟨.unit (some "a.b"), [⟨.classDecl "Outer" .ordinary, [⟨.method "run" [] none, [⟨.block,
    [⟨.classDecl "Local" .ordinary, [⟨.classDecl "Inner" .ordinary, []⟩]⟩]⟩]⟩]⟩]⟩

namespace Tree

def nested : Tree := Outline.nested.toTree

theorem grown_nested : nested.Grown := Outline.grown_toTree _

theorem found_nested : nested.Nameable (nested.lineage 1) ∧ nested.compiledName 1 = "a.b.Outer" ∧
    (Criterion.inClass (nested.compiledName 1) false).holds nested.ranks (nested.path? 5) = .ok true := by
  have hids : nested.size ≤ UInt32.size := by decide +kernel
  have hnode : nested.node? 1 = some ⟨1, some 0, [2], .classDecl "Outer" .ordinary⟩ := by decide +kernel
  have hnameable : nested.Nameable (nested.lineage 1) := by decide +kernel
  have hbelow : nested.lineage 5 = nested.lineage 1 ++ (nested.lineage 5).drop 2 := by decide +kernel
  refine ⟨hnameable, by decide +kernel, ?_⟩
  rw [inClass_below grown_nested hids hnode rfl hnameable hbelow]
  decide +kernel

/-- The class in a local class is not found by a search at any depth for the local class. -/
theorem missed_nested :
    (∀ node ∈ nested.nodes.toList, ∀ name ∈ node.kind.className?, '$' ∉ name.toList ∧ '.' ∉ name.toList ∧
      '\n' ∉ name.toList ∧ name.toList.head?.any Char.isDigit = false) ∧
    nested.Nameable (nested.lineage 4) ∧ nested.compiledName 4 = "a.b.Outer$0Local" ∧
    nested.lineage 5 = nested.lineage 4 ++ (nested.lineage 5).drop 5 ∧
    (Criterion.inClass (nested.compiledName 4) false).holds nested.ranks (nested.path? 5) = .ok false := by
  decide +kernel

end Tree

end Pinpoint
