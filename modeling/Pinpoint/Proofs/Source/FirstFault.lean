import Mathlib.Data.List.Basic
import Mathlib.Tactic.Common
import Pinpoint.Proofs.Source.Arena
import Pinpoint.Proofs.Source.Outline

namespace Pinpoint

/-- The first faulty item of a list has the given fault. -/
def FirstFault {α ε : Type} (faulty : α → ε → Prop) (items : List α) (fault : ε) : Prop :=
  ∃ before item after, items = before ++ item :: after ∧
    (∀ earlier ∈ before, ∀ other, ¬ faulty earlier other) ∧ faulty item fault

namespace FirstFault

variable {α ε : Type} {faulty : α → ε → Prop} {fault : ε}

theorem not_nil : ¬ FirstFault faulty [] fault := by
  rintro ⟨before, item, after, hsplit, -⟩
  simp at hsplit

/-- The first fault of a list is that of its first item, or if that has none the first of the others. -/
theorem cons_iff {item : α} {rest : List α} :
    FirstFault faulty (item :: rest) fault ↔
      faulty item fault ∨ (∀ other, ¬ faulty item other) ∧ FirstFault faulty rest fault := by
  constructor
  · rintro ⟨before, found, after, hsplit, hbefore, hfault⟩
    cases before with
    | nil =>
      cases hsplit
      exact .inl hfault
    | cons first before =>
      cases hsplit
      obtain ⟨hfirst, hbefore⟩ := List.forall_mem_cons.mp hbefore
      exact .inr ⟨hfirst, before, found, after, rfl, hbefore, hfault⟩
  · rintro (hfault | ⟨hitem, before, found, after, rfl, hbefore, hfault⟩)
    · exact ⟨[], item, rest, rfl, List.forall_mem_nil _, hfault⟩
    · exact ⟨item :: before, found, after, rfl, List.forall_mem_cons.mpr ⟨hitem, hbefore⟩, hfault⟩

theorem none_cons_iff {item : α} {rest : List α} :
    (∀ fault, ¬ FirstFault faulty (item :: rest) fault) ↔
      (∀ fault, ¬ faulty item fault) ∧ ∀ fault, ¬ FirstFault faulty rest fault := by
  simp only [cons_iff]
  constructor
  · intro hnone
    have hitem : ∀ fault, ¬ faulty item fault := fun fault hfault => hnone fault (.inl hfault)
    exact ⟨hitem, fun fault hfault => hnone fault (.inr ⟨hitem, hfault⟩)⟩
  · rintro ⟨hitem, hrest⟩ fault (hfault | ⟨-, hfault⟩)
    · exact hitem fault hfault
    · exact hrest fault hfault

/-- There is no first fault just when there is no fault. -/
theorem none_iff {items : List α} :
    (∀ fault, ¬ FirstFault faulty items fault) ↔ ∀ item ∈ items, ∀ fault, ¬ faulty item fault := by
  induction items with
  | nil => simp [not_nil]
  | cons item rest ih => rw [none_cons_iff, ih, List.forall_mem_cons]

/-- The first fault of two lists is the first of the one, or if that has none the first of the other. -/
theorem append_iff {first second : List α} :
    FirstFault faulty (first ++ second) fault ↔
      FirstFault faulty first fault ∨
        (∀ other, ¬ FirstFault faulty first other) ∧ FirstFault faulty second fault := by
  induction first with
  | nil => simp [not_nil]
  | cons item first ih =>
    rw [List.cons_append, cons_iff, ih, cons_iff, none_cons_iff]
    tauto

end FirstFault

namespace Outline

mutual

/-- The number of nodes. -/
def size : Outline → Nat
  | ⟨_, children⟩ => sizeAll children + 1

/-- The number of nodes of several outlines. -/
def sizeAll : List Outline → Nat
  | [] => 0
  | outline :: rest => outline.size + sizeAll rest

end

/-- Where a node stands in an outline: at its root, or below a node of a number and a kind, as a child behind
others whose kinds are known. -/
inductive Standing where
  | root
  | below (parent : NodeId) (owner : Kind) (before : List Kind)

mutual

/-- The nodes of an outline in pre-order, each with its standing. The root has the given number, and the others
are numbered from there on. -/
def nodesFrom (number : NodeId) (standing : Standing) : Outline → List (Standing × Kind)
  | ⟨kind, children⟩ => (standing, kind) :: childrenFrom (number + 1) number kind [] children

/-- The nodes of the outlines that follow the children of the kinds `before`, numbered from `number` on. -/
def childrenFrom (number parent : NodeId) (owner : Kind) (before : List Kind) :
    List Outline → List (Standing × Kind)
  | [] => []
  | child :: rest =>
    child.nodesFrom number (.below parent owner before) ++
      childrenFrom (number + child.size) parent owner (before ++ [child.kind]) rest

end

/-- The nodes of a whole document in pre-order. -/
def nodes (outline : Outline) : List (Standing × Kind) := outline.nodesFrom 0 .root

/-- A node breaks a rule of trees where it stands. -/
inductive Breaks : Standing × Kind → TreeFault → Prop where
  | rootNotUnit {kind : Kind} (hunit : kind.isUnit = false) : Breaks (.root, kind) (.rootNotUnit kind.tag)
  | nestedUnit {parent : NodeId} {owner kind : Kind} {before : List Kind} (hunit : kind.isUnit = true) :
      Breaks (.below parent owner before, kind) (.nestedUnit parent)
  | secondBody {parent : NodeId} {owner kind : Kind} {before : List Kind}
      (hown : owner.isConstruction = true) (hbefore : ∃ earlier ∈ before, earlier.isClass = true)
      (hclass : kind.isClass = true) : Breaks (.below parent owner before, kind) (.secondBody parent)
  | secondReceiver {parent : NodeId} {owner kind : Kind} {before : List Kind}
      (hown : owner.isMethod = true) (hbefore : ∃ earlier ∈ before, earlier.isReceiver = true)
      (hreceiver : kind.isReceiver = true) :
      Breaks (.below parent owner before, kind) (.secondReceiver parent)
  | strayReceiver {parent : NodeId} {owner kind : Kind} {before : List Kind}
      (hown : owner.isMethod = false) (hreceiver : kind.isReceiver = true) :
      Breaks (.below parent owner before, kind) (.strayReceiver parent)

end Outline

namespace Kind

/-- What a node that was declared as `owner` has become by children of the kinds `before`: it is still a
construction or a method, and it is wired once a fitting child has joined. -/
structure Becomes (owner : Kind) (before : List Kind) (own : Kind) : Prop where
  isConstruction_eq : own.isConstruction = owner.isConstruction
  isMethod_eq : own.isMethod = owner.isMethod
  body_iff : own.isConstruction = true →
    (own.body?.isSome = true ↔ ∃ earlier ∈ before, earlier.isClass = true)
  receiver_iff : own.isMethod = true →
    (own.receiver?.isSome = true ↔ ∃ earlier ∈ before, earlier.isReceiver = true)

/-- A node without children is as it was declared. -/
theorem Becomes.declared (kind : Kind) : kind.Becomes [] kind.declared := by
  refine ⟨isConstruction_declared kind, isMethod_declared kind, ?_, ?_⟩
  · simp
  · simp

theorem exists_mem_concat_iff {p : Kind → Bool} {before : List Kind} {child : Kind} :
    (∃ earlier ∈ before ++ [child], p earlier = true) ↔
      (∃ earlier ∈ before, p earlier = true) ∨ p child = true := by
  simp [or_and_right, exists_or]

/-- One more child is wired if it fits. -/
theorem Becomes.wire {owner own : Kind} {before : List Kind} (hown : owner.Becomes before own)
    (id : NodeId) (child : Kind) : owner.Becomes (before ++ [child]) (own.wire id child) := by
  refine ⟨by rw [isConstruction_wire, hown.isConstruction_eq], by rw [isMethod_wire, hown.isMethod_eq],
    ?_, ?_⟩
  · intro hconstruction
    rw [isConstruction_wire] at hconstruction
    rw [body?_wire, exists_mem_concat_iff, ← hown.body_iff hconstruction]
    cases child.isClass <;> simp [hconstruction]
  · intro hmethod
    rw [isMethod_wire] at hmethod
    rw [receiver?_wire, exists_mem_concat_iff, ← hown.receiver_iff hmethod]
    cases child.isReceiver <;> simp [hmethod]

/-- A child is refused just where it breaks a rule, and for that reason. -/
theorem Becomes.allow_eq_error_iff {owner own child : Kind} {before : List Kind} {parent : NodeId}
    {fault : TreeFault} (hown : owner.Becomes before own) :
    own.allow parent child = .error fault ↔ Outline.Breaks (.below parent owner before, child) fault := by
  rw [Kind.allow_eq_error_iff]
  constructor
  · rintro (⟨hunit, rfl⟩ | ⟨hclass, hconstruction, hbody, rfl⟩ | ⟨hreceiver, hmethod, hsome, rfl⟩ |
      ⟨hreceiver, hmethod, rfl⟩)
    · exact .nestedUnit hunit
    · exact .secondBody (hown.isConstruction_eq ▸ hconstruction) ((hown.body_iff hconstruction).mp hbody)
        hclass
    · exact .secondReceiver (hown.isMethod_eq ▸ hmethod) ((hown.receiver_iff hmethod).mp hsome) hreceiver
    · exact .strayReceiver (hown.isMethod_eq ▸ hmethod) hreceiver
  · intro hbreaks
    cases hbreaks with
    | nestedUnit hunit => exact .inl ⟨hunit, rfl⟩
    | secondBody hconstruction hbefore hclass =>
      rw [← hown.isConstruction_eq] at hconstruction
      exact .inr (.inl ⟨hclass, hconstruction, (hown.body_iff hconstruction).mpr hbefore, rfl⟩)
    | secondReceiver hmethod hbefore hreceiver =>
      rw [← hown.isMethod_eq] at hmethod
      exact .inr (.inr (.inl ⟨hreceiver, hmethod, (hown.receiver_iff hmethod).mpr hbefore, rfl⟩))
    | strayReceiver hmethod hreceiver =>
      rw [← hown.isMethod_eq] at hmethod
      exact .inr (.inr (.inr ⟨hreceiver, hmethod, rfl⟩))

end Kind

namespace Tree

mutual

/-- A grafted outline adds as many nodes as it has. -/
theorem size_of_graft {tree grown : Tree} {parent : NodeId} {outline : Outline}
    (hgraft : tree.graft parent outline = .ok grown) : grown.size = tree.size + outline.size := by
  obtain ⟨kind, children⟩ := outline
  obtain ⟨next, hpush, hchildren⟩ := graft_eq_ok_iff.mp hgraft
  rw [size_of_graftAll hchildren, size_of_push hpush, Outline.size, Nat.add_assoc, Nat.add_comm 1]

/-- Outlines add as many nodes as they have. -/
theorem size_of_graftAll {tree grown : Tree} {parent : NodeId} {outlines : List Outline}
    (hgraft : tree.graftAll parent outlines = .ok grown) :
    grown.size = tree.size + Outline.sizeAll outlines := by
  cases outlines with
  | nil =>
    cases hgraft
    rfl
  | cons outline rest =>
    obtain ⟨next, hfirst, hrest⟩ := graftAll_cons_eq_ok_iff.mp hgraft
    rw [size_of_graftAll hrest, size_of_graft hfirst, Outline.sizeAll, Nat.add_assoc]

end

/-- The tree of an outline has as many nodes as the outline. -/
theorem size_ofOutline {outline : Outline} {tree : Tree} (houtline : ofOutline outline = .ok tree) :
    tree.size = outline.size := by
  obtain ⟨kind, children⟩ := outline
  obtain ⟨package, -, hchildren⟩ := ofOutline_eq_ok_iff.mp houtline
  rw [size_of_graftAll hchildren, Outline.size, Nat.add_comm]
  rfl

mutual

/-- Grafting stops at the first node that breaks a rule. -/
theorem graft_eq_error_iff {tree : Tree} {parent : NodeId} {node : Node} {owner : Kind}
    {before : List Kind} (hnode : tree.node? parent = some node) (hown : owner.Becomes before node.kind)
    (outline : Outline) (fault : TreeFault) :
    tree.graft parent outline = .error fault ↔
      FirstFault Outline.Breaks (outline.nodesFrom tree.size (.below parent owner before)) fault := by
  obtain ⟨kind, children⟩ := outline
  have hallow {fault : TreeFault} : tree.push parent kind = .error fault ↔
      Outline.Breaks (.below parent owner before, kind) fault := by
    rw [← hown.allow_eq_error_iff, push_eq_error_iff, hnode]
    simp
  rw [graft, Outline.nodesFrom, FirstFault.cons_iff]
  simp only [← hallow]
  cases hpush : tree.push parent kind with
  | error error => simp
  | ok next =>
    have hchildren := graftAll_eq_error_iff (node?_size_of_push hpush) (Kind.Becomes.declared kind)
      children fault
    rw [size_of_push hpush] at hchildren
    simp [hchildren]

/-- Outlines fail to grow with the first fault of their nodes, in pre-order. -/
theorem graftAll_eq_error_iff {tree : Tree} {parent : NodeId} {node : Node} {owner : Kind}
    {before : List Kind} (hnode : tree.node? parent = some node) (hown : owner.Becomes before node.kind)
    (outlines : List Outline) (fault : TreeFault) :
    tree.graftAll parent outlines = .error fault ↔
      FirstFault Outline.Breaks (Outline.childrenFrom tree.size parent owner before outlines) fault := by
  cases outlines with
  | nil => simp [graftAll, Outline.childrenFrom, FirstFault.not_nil]
  | cons outline rest =>
    rw [graftAll, Outline.childrenFrom, FirstFault.append_iff]
    simp only [← graft_eq_error_iff hnode hown]
    cases hfirst : tree.graft parent outline with
    | error error => simp
    | ok next =>
      have hrest := graftAll_eq_error_iff (node?_parent_of_graft hnode hfirst)
        (hown.wire tree.size outline.kind) rest fault
      rw [size_of_graft hfirst] at hrest
      simp [hrest]

end

/-- An outline is refused for the first of its nodes in pre-order that breaks a rule. -/
theorem ofOutline_eq_error_iff {outline : Outline} {fault : TreeFault} :
    ofOutline outline = .error fault ↔ FirstFault Outline.Breaks outline.nodes fault := by
  obtain ⟨kind, children⟩ := outline
  rw [ofOutline, Outline.nodes, Outline.nodesFrom, FirstFault.cons_iff, ofRoot]
  cases hunit : kind.isUnit with
  | false =>
    have hroot {fault : TreeFault} : Outline.Breaks (.root, kind) fault ↔ .rootNotUnit kind.tag = fault := by
      constructor
      · rintro ⟨-⟩
        rfl
      · rintro rfl
        exact .rootNotUnit hunit
    simp [hroot]
  | true =>
    have hroot {fault : TreeFault} : ¬ Outline.Breaks (.root, kind) fault := by
      rintro ⟨hnot⟩
      rw [hunit] at hnot
      cases hnot
    obtain ⟨package, rfl⟩ := Kind.isUnit_iff.mp hunit
    have hchildren := graftAll_eq_error_iff (node?_leaf_root (.unit package))
      (Kind.Becomes.declared (.unit package)) children fault
    have hsize : (leaf (.unit package)).size = 1 := rfl
    rw [hsize] at hchildren
    simpa [hroot] using hchildren

end Tree

end Pinpoint
