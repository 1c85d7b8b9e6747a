import Mathlib.Data.List.Chain
import Mathlib.Tactic.Common
import Pinpoint.Proofs.BinaryName.CompilerName

namespace Pinpoint

namespace BinaryName

/-- The way down from a class to a node of a class inside it that an exact search takes for its own: it
enters classes only as bodies of constructions, and passes no method or variable below a construction. -/
@[mk_iff]
structure Leaks (above : Node) (below : List Node) : Prop where
  bodies : (above :: below).IsChain fun above node =>
    node.kind.isClass = true → above.kind.isConstruction = true
  members : below.Pairwise fun above node =>
    above.kind.isConstruction = true → node.kind.isMember = false

instance (above : Node) (below : List Node) : Decidable (Leaks above below) :=
  decidable_of_iff _ (leaks_iff above below).symm

variable {ranks : RankIndex} {exact inside : Bool} {above node : Node} {below : List Node}

/-- Where nothing of the name is left, a class needs a construction to have read it, and a method or
variable needs to stand outside every construction. -/
theorem readNode_spent (hunit : node.kind.isUnit = false) :
    readNode ranks exact (some above.kind) inside [] node =
      .ok (if (node.kind.isClass = true ∧ above.kind.isConstruction = false) ∨
          (inside = true ∧ node.kind.isMember = true) then .decided false
        else .onward (inside || node.kind.isConstruction) []) := by
  cases hkind : node.kind with
  | unit package => simp [hkind, Kind.isUnit] at hunit
  | classDecl name flavor =>
    have hclass : node.kind.isClass = true := by rw [hkind, Kind.isClass]
    cases habove : above.kind.isConstruction with
    | true =>
      have hbody : (some above.kind).any Kind.isConstruction = true := habove
      rw [readNode_body hclass hbody]
      simp [Kind.isConstruction, Kind.isMember, Kind.isMethod, Kind.isVariable]
    | false =>
      -- the class wants a part of the name, and there is none
      rw [if_pos (.inl ⟨rfl, rfl⟩)]
      have hbody : (some above.kind).any Kind.isConstruction = false := habove
      by_cases hblock : some above.kind = some .block
      · rw [hblock, readNode_local hkind]
        rfl
      · rw [readNode_class hkind hblock hbody]
        by_cases hname : name = ""
        · subst hname
          rfl
        · have hnone : name.toList ≠ [] := by simpa using hname
          rw [if_neg (by simpa using hname), readMember, if_neg hnone.symm]
          cases hlist : name.toList with
          | nil => exact absurd hlist hnone
          | cons c rest => rfl
  | construction body =>
    rw [readNode_construction hkind]
    simp [Kind.isClass, Kind.isMember, Kind.isMethod, Kind.isVariable, Kind.isConstruction]
  | _ =>
    have hclass : node.kind.isClass = false := by rw [hkind]; rfl
    have hconstruction : node.kind.isConstruction = false := by rw [hkind]; rfl
    rw [readNode_plain hunit hclass hconstruction, ← hkind, hclass, hconstruction]
    simp

theorem leaks_cons_iff (hbody : node.kind.isClass = true → above.kind.isConstruction = true)
    (hmember : inside = true → node.kind.isMember = false) :
    (Leaks above (node :: below) ∧
        (inside = true → ∀ other ∈ node :: below, other.kind.isMember = false)) ↔
      Leaks node below ∧ ((inside || node.kind.isConstruction) = true →
        ∀ other ∈ below, other.kind.isMember = false) := by
  constructor
  · rintro ⟨⟨hbodies, hmembers⟩, hquiet⟩
    obtain ⟨hnode, hbelow⟩ := List.pairwise_cons.mp hmembers
    refine ⟨⟨(List.isChain_cons_cons.mp hbodies).2, hbelow⟩, ?_⟩
    intro hmark other hother
    obtain hinside | hconstruction := Bool.or_eq_true_iff.mp hmark
    · exact hquiet hinside other (List.mem_cons_of_mem node hother)
    · exact hnode other hother hconstruction
  · rintro ⟨⟨hbodies, hmembers⟩, hquiet⟩
    refine ⟨⟨List.isChain_cons_cons.mpr ⟨hbody, hbodies⟩, List.pairwise_cons.mpr ⟨?_, hmembers⟩⟩, ?_⟩
    · intro other hother hconstruction
      exact hquiet (by simp [hconstruction]) other hother
    · intro hinside other hother
      obtain rfl | hother := List.mem_cons.mp hother
      · exact hmember hinside
      · exact hquiet (by simp [hinside]) other hother

/-- The walk goes on from a used-up name as far as the way down leaks. -/
theorem walk_spent (hunit : ∀ node ∈ below, node.kind.isUnit = false) :
    walk ranks exact (some above.kind) inside [] below =
      .ok (decide (Leaks above below ∧
        (inside = true → ∀ node ∈ below, node.kind.isMember = false))) := by
  induction below generalizing above inside with
  | nil =>
    have hleaks : Leaks above [] := ⟨.singleton above, .nil⟩
    simp [walk, hleaks]
  | cons node below ih =>
    rw [walk, readNode_spent (hunit node List.mem_cons_self)]
    by_cases hstop : (node.kind.isClass = true ∧ above.kind.isConstruction = false) ∨
        (inside = true ∧ node.kind.isMember = true)
    · rw [if_pos hstop]
      simp only [Except.ok.injEq, false_eq_decide_iff]
      rintro ⟨⟨hbodies, -⟩, hmembers⟩
      obtain ⟨hclass, habove⟩ | ⟨hinside, hmember⟩ := hstop
      · rw [(List.isChain_cons_cons.mp hbodies).1 hclass] at habove
        cases habove
      · rw [hmembers hinside node List.mem_cons_self] at hmember
        cases hmember
    · rw [if_neg hstop]
      rw [not_or] at hstop
      have hbody : node.kind.isClass = true → above.kind.isConstruction = true := by
        simpa using hstop.1
      have hmember : inside = true → node.kind.isMember = false := by
        simpa using hstop.2
      simp only [ih fun other hother => hunit other (List.mem_cons_of_mem node hother),
        leaks_cons_iff hbody hmember]

end BinaryName

namespace Tree

variable {tree : Tree} {node : Node} {below : List Node}

/-- Below a class, an exact search for its compiled name answers yes just on a way down that leaks. -/
theorem inClass_exact_below (htree : tree.Grown) (hids : tree.size ≤ UInt32.size) {id leaf : NodeId}
    (hnode : tree.node? id = some node) (hclass : node.kind.isClass = true)
    (hnameable : tree.Nameable (tree.lineage id))
    (hbelow : tree.lineage leaf = tree.lineage id ++ below) :
    (Criterion.inClass (tree.compiledName id) true).holds tree.ranks (tree.path? leaf) =
      .ok (decide (BinaryName.Leaks node below)) := by
  have hwf := htree.wellFormed
  obtain ⟨front, hfront⟩ := hwf.exists_lineage_eq hnode
  have hleaf : leaf < tree.size := by
    cases hsome : tree.node? leaf with
    | none =>
      rw [lineage_eq_nil hsome, hfront] at hbelow
      simp at hbelow
    | some last => exact lt_size_of_node? hsome
  have hlinked : tree.Linked (node :: below) := by
    have hlinked := hwf.linked_lineage leaf
    rw [hbelow, hfront, List.append_assoc] at hlinked
    exact hlinked.of_append
  rw [hwf.holds_inClass hleaf, hbelow,
    hwf.walk_compiledName hids hnode hnameable (Kind.isConstruction_of_isClass hclass),
    BinaryName.walk_spent (hlinked.isUnit_of_mem hwf)]
  simp

theorem below_sample : sample.Nameable (sample.lineage 1) ∧ sample.compiledName 1 = "a.b.Outer" ∧
    (Criterion.inClass (sample.compiledName 1) true).holds sample.ranks (sample.path? 6) = .ok false := by
  have hids : sample.size ≤ UInt32.size := by decide +kernel
  have hnode : sample.node? 1 = some ⟨1, some 0, [2], .classDecl "Outer" .ordinary⟩ := by decide +kernel
  have hnameable : sample.Nameable (sample.lineage 1) := by decide +kernel
  have hbelow : sample.lineage 6 = sample.lineage 1 ++ (sample.lineage 6).drop 2 := by decide +kernel
  refine ⟨hnameable, by decide +kernel, ?_⟩
  rw [inClass_exact_below grown_sample hids hnode rfl hnameable hbelow]
  decide +kernel

/-- The block in the body of an object that is made in a method of `Outer` is in a class of its own, but
is found as a part of `Outer`. -/
theorem leaks_sample :
    (∀ node ∈ sample.nodes.toList, ∀ name ∈ node.kind.className?, '$' ∉ name.toList ∧ '.' ∉ name.toList ∧
      '\n' ∉ name.toList ∧ name.toList.head?.any Char.isDigit = false) ∧
    sample.Nameable (sample.lineage 1) ∧ sample.compiledName 1 = "a.b.Outer" ∧
    (∃ inner ∈ (sample.lineage 7).drop 2, inner.kind.isClass = true) ∧
    sample.lineage 7 = sample.lineage 1 ++ (sample.lineage 7).drop 2 ∧
    (Criterion.inClass (sample.compiledName 1) true).holds sample.ranks (sample.path? 7) = .ok true := by
  decide +kernel

end Tree

end Pinpoint
