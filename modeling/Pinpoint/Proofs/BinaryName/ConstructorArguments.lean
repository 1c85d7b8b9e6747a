import Mathlib.Data.List.Chain
import Mathlib.Tactic.Common
import Pinpoint.Proofs.BinaryName.Nesting
import Pinpoint.Proofs.Source.Arena

namespace Pinpoint

namespace BinaryName

variable {above construction : Node} {between below : List Node}

/-- A way down without classes can only be cut off at a method or variable. -/
theorem leaks_iff_pairwise (hclass : ∀ node ∈ below, node.kind.isClass = false) :
    Leaks above below ↔
      below.Pairwise fun above node => above.kind.isConstruction = true → node.kind.isMember = false := by
  have hbodies : (above :: below).IsChain fun above node =>
      node.kind.isClass = true → above.kind.isConstruction = true := by
    induction below generalizing above with
    | nil => exact .singleton above
    | cons node below ih =>
      obtain ⟨hnode, hbelow⟩ := List.forall_mem_cons.mp hclass
      refine List.isChain_cons_cons.mpr ⟨?_, ih hbelow⟩
      intro htrue
      rw [hnode] at htrue
      cases htrue
  rw [leaks_iff, and_iff_right hbodies]

theorem pairwise_of_no_construction (hplain : ∀ node ∈ below, node.kind.isConstruction = false) :
    below.Pairwise fun above node => above.kind.isConstruction = true → node.kind.isMember = false := by
  induction below with
  | nil => exact .nil
  | cons node below ih =>
    obtain ⟨hnode, hbelow⟩ := List.forall_mem_cons.mp hplain
    refine List.pairwise_cons.mpr ⟨?_, ih hbelow⟩
    intro _ _ htrue
    rw [hnode] at htrue
    cases htrue

/-- Below the only construction on a way down, methods and variables cut it off. -/
theorem pairwise_of_one_construction (hconstruction : construction.kind.isConstruction = true)
    (hbetween : ∀ node ∈ between, node.kind.isConstruction = false)
    (hbelow : ∀ node ∈ below, node.kind.isConstruction = false) :
    (between ++ construction :: below).Pairwise (fun above node =>
        above.kind.isConstruction = true → node.kind.isMember = false) ↔
      ∀ node ∈ below, node.kind.isMember = false := by
  rw [List.pairwise_append, List.pairwise_cons]
  constructor
  · rintro ⟨-, ⟨hmembers, -⟩, -⟩ node hnode
    exact hmembers node hnode hconstruction
  · intro hmembers
    refine ⟨pairwise_of_no_construction hbetween,
      ⟨fun node hnode _ => hmembers node hnode, pairwise_of_no_construction hbelow⟩, ?_⟩
    intro first hfirst _ _ htrue
    rw [hbetween first hfirst] at htrue
    cases htrue

end BinaryName

namespace Tree

variable {tree : Tree} {node last : Node} {front more between below : List Node}

/-- Where the nodes of a path have used up a compiled name, the answer depends on the way down from there. -/
theorem WellFormed.holds_spent (hwf : tree.WellFormed) (hids : tree.size ≤ UInt32.size) {id leaf : NodeId}
    (hlineage : tree.lineage id = front ++ node :: more) (hnameable : tree.Nameable (tree.lineage id))
    (hlast : node.kind.isConstruction = true → more ≠ []) (hspent : tree.pending node.kind more = [])
    (hleaf : tree.lineage leaf = front ++ node :: below) :
    (Criterion.inClass (tree.compiledName id) true).holds tree.ranks (tree.path? leaf) =
      .ok (decide (BinaryName.Leaks node below)) := by
  have hid : leaf < tree.size := lt_size_of_mem_lineage (hleaf ▸ List.mem_append_right front List.mem_cons_self)
  have hlinked : tree.Linked (node :: below) := (hleaf ▸ hwf.linked_lineage leaf).of_append
  rw [hwf.holds_inClass hid, hleaf, hwf.walk_compiledName_upTo hids hlineage hnameable hlast (.inl rfl), hspent,
    List.intercalate_nil, BinaryName.walk_spent (hlinked.isUnit_of_mem hwf)]
  simp

/-- No construction lies between nodes of a nameable path that has no class after it. -/
theorem Nameable.isConstruction_between (hnameable : tree.Nameable (between ++ [last]))
    (hbetween : ∀ node ∈ between, node.kind.isClass = false) (hlast : last.kind.isClass = false) :
    ∀ node ∈ between, node.kind.isConstruction = false := by
  induction between with
  | nil => exact List.forall_mem_nil _
  | cons node between ih =>
    rw [List.cons_append] at hnameable
    refine List.forall_mem_cons.mpr ⟨?_, ih hnameable.tail (List.forall_mem_cons.mp hbetween).2⟩
    cases between with
    | nil => exact hnameable.isConstruction_eq_false hlast
    | cons next between => exact hnameable.isConstruction_eq_false (hbetween next (by simp))

/-- A construction with a body and the body at the ends of their paths. -/
theorem WellFormed.lineage_body (hwf : tree.WellFormed) {construction body : NodeId}
    (hbody : (tree.kind? construction).bind Kind.body? = some body) :
    ∃ own inner, tree.node? construction = some own ∧ own.kind.isConstruction = true ∧
      inner.kind.isClass = true ∧ tree.lineage body = tree.lineage construction ++ [inner] := by
  obtain ⟨kind, hkind, hwired⟩ := Option.bind_eq_some_iff.mp hbody
  obtain ⟨own, hown, rfl⟩ := Option.map_eq_some_iff.mp hkind
  have hconstruction : own.kind.isConstruction = true := by
    cases hkind : own.kind <;> simp [hkind, Kind.body?, Kind.isConstruction] at hwired ⊢
  obtain ⟨inner, hinner, hparent, hclass⟩ := (hwf.body_iff hown hconstruction body).mp hwired
  exact ⟨own, inner, hown, hconstruction, hclass, hwf.lineage_child hinner hparent⟩

section Arguments

variable {construction body scope leaf : NodeId} (hwf : tree.WellFormed) (hids : tree.size ≤ UInt32.size)
  (hbelow : tree.lineage leaf = tree.lineage construction ++ below)
  (hclass : ∀ node ∈ below, node.kind.isClass = false)
  (hplain : ∀ node ∈ below, node.kind.isConstruction = false)

include hwf hids hbelow hclass hplain

/-- A construction has read the rank of its body, whatever follows it. -/
theorem WellFormed.holds_body_argument (hbody : (tree.kind? construction).bind Kind.body? = some body)
    (hnameable : tree.Nameable (tree.lineage body)) :
    (Criterion.inClass (tree.compiledName body) true).holds tree.ranks (tree.path? leaf) = .ok true := by
  obtain ⟨own, inner, hown, hconstruction, hinner, hlineage⟩ := hwf.lineage_body hbody
  obtain ⟨front, hfront⟩ := hwf.exists_lineage_eq hown
  rw [hfront, List.append_assoc, List.singleton_append] at hlineage hbelow
  have hspent : tree.pending own.kind [inner] = [] := by
    obtain ⟨name, hname⟩ := Kind.className?_of_isClass hinner
    rw [pending, if_pos hconstruction, segments_class hname, List.tail_cons]
    rfl
  have hleaks : BinaryName.Leaks own below := by
    rw [BinaryName.leaks_iff_pairwise hclass]
    exact BinaryName.pairwise_of_no_construction hplain
  rw [hwf.holds_spent hids hlineage hnameable (by simp) hspent hbelow, decide_eq_true hleaks]

/-- The name of the class around a construction is used up at the class, and on a nameable path no other
construction follows. -/
theorem WellFormed.holds_scope_argument {own : Node} (hown : tree.node? construction = some own)
    (hconstruction : own.kind.isConstruction = true) (hnameable : tree.Nameable (tree.lineage construction))
    (hscope : tree.scope? construction = some scope) :
    (Criterion.inClass (tree.compiledName scope) true).holds tree.ranks (tree.path? leaf) =
      .ok (decide (∀ node ∈ below, node.kind.isMember = false)) := by
  have hownClass := Kind.isClass_of_isConstruction hconstruction
  have hunit := Kind.isUnit_of_isConstruction hconstruction
  obtain ⟨front, top, between, htop, htopKind, hlineage, hbetween⟩ := hwf.lineage_scope hown hunit
  rw [hscope, Option.getD_some] at htop
  have htopPlain : top.kind.isConstruction = false := by
    obtain htopUnit | htopClass := htopKind
    · exact Kind.isConstruction_of_isUnit htopUnit
    · exact Kind.isConstruction_of_isClass htopClass
  have hspent : tree.pending top.kind [] = [] := pending_eq htopPlain
  have hleaf : tree.lineage leaf = front ++ top :: (between ++ own :: below) := by
    rw [hbelow, hlineage]
    simp
  rw [hlineage, List.append_cons] at hnameable
  obtain ⟨hscopePath, hpath⟩ := hnameable.append
  have hbetweenPlain := hpath.isConstruction_between hbetween hownClass
  have hnoClass : ∀ node ∈ between ++ own :: below, node.kind.isClass = false := by
    rw [List.forall_mem_append, List.forall_mem_cons]
    exact ⟨hbetween, hownClass, hclass⟩
  rw [hwf.holds_spent hids htop (htop ▸ hscopePath) (by simp [htopPlain]) hspent hleaf]
  simp only [BinaryName.leaks_iff_pairwise hnoClass,
    BinaryName.pairwise_of_one_construction hconstruction hbetweenPlain hplain]

end Arguments

/-- An exact search for the body of a construction finds everything in the arguments of the construction that is
in no class or construction of its own. One for the class around the construction finds the same, except what is in
a method or a variable of the arguments. -/
theorem inClass_exact_argument (htree : tree.Grown) (hids : tree.size ≤ UInt32.size)
    {construction body scope leaf : NodeId}
    (hbody : (tree.kind? construction).bind Kind.body? = some body)
    (hnameable : tree.Nameable (tree.lineage body)) (hscope : tree.scope? construction = some scope)
    (hbelow : tree.lineage leaf = tree.lineage construction ++ below)
    (hplain : ∀ node ∈ below, node.kind.isClass = false ∧ node.kind.isConstruction = false) :
    (Criterion.inClass (tree.compiledName body) true).holds tree.ranks (tree.path? leaf) = .ok true ∧
    (Criterion.inClass (tree.compiledName scope) true).holds tree.ranks (tree.path? leaf) =
      .ok (decide (∀ node ∈ below, node.kind.isMember = false)) := by
  have hwf := htree.wellFormed
  have hclass : ∀ node ∈ below, node.kind.isClass = false := fun node hnode => (hplain node hnode).1
  have hquiet : ∀ node ∈ below, node.kind.isConstruction = false := fun node hnode => (hplain node hnode).2
  obtain ⟨own, inner, hown, hconstruction, -, hlineage⟩ := hwf.lineage_body hbody
  have hpath := (hlineage ▸ hnameable).append.1
  exact ⟨hwf.holds_body_argument hids hbelow hclass hquiet hbody hnameable,
    hwf.holds_scope_argument hids hbelow hclass hquiet hown hconstruction hpath hscope⟩

/-- A class that makes an object with a body of its own from an argument in which a variable is declared. -/
def passing : Tree :=
  (unit none).pushed [(0, .classDecl "Outer" .ordinary), (1, .construction none), (2, .namelessClass),
    (2, .other "lambda"), (4, .variable "x" false)]

theorem grown_passing : passing.Grown := Grown.pushed (.unit none) _

theorem argument_passing : passing.Nameable (passing.lineage 3) ∧ passing.scope? 2 = some 1 ∧
    (Criterion.inClass (passing.compiledName 1) true).holds passing.ranks (passing.path? 4) = .ok true := by
  have hids : passing.size ≤ UInt32.size := by decide +kernel
  have hbody : (passing.kind? 2).bind Kind.body? = some 3 := by decide +kernel
  have hnameable : passing.Nameable (passing.lineage 3) := by decide +kernel
  have hscope : passing.scope? 2 = some 1 := by decide +kernel
  have hbelow : passing.lineage 4 = passing.lineage 2 ++ [⟨4, some 2, [5], .other "lambda"⟩] := by decide +kernel
  exact ⟨hnameable, hscope, (inClass_exact_argument grown_passing hids hbody hnameable hscope hbelow
    (by decide)).2⟩

/-- The argument is found in the anonymous class, and its variable is not found in the class around them. -/
theorem argument_misplaced :
    (∀ node ∈ passing.nodes.toList, ∀ name ∈ node.kind.className?, '$' ∉ name.toList ∧ '.' ∉ name.toList ∧
      '\n' ∉ name.toList ∧ name.toList.head?.any Char.isDigit = false) ∧
    (passing.kind? 2).bind Kind.body? = some 3 ∧ passing.Nameable (passing.lineage 3) ∧
    passing.scope? 2 = some 1 ∧ passing.compiledName 3 = "Outer$0" ∧ passing.compiledName 1 = "Outer" ∧
    passing.lineage 5 = passing.lineage 2 ++ (passing.lineage 5).drop 3 ∧
    (∀ node ∈ (passing.lineage 5).drop 3, node.kind.isClass = false ∧ node.kind.isConstruction = false) ∧
    (Criterion.inClass "Outer$0" true).holds passing.ranks (passing.path? 4) = .ok true ∧
    (Criterion.inClass "Outer" true).holds passing.ranks (passing.path? 5) = .ok false := by
  decide +kernel

end Tree

end Pinpoint
