import Mathlib.Data.List.Forall2
import Mathlib.Tactic.Common
import Pinpoint.Proofs.Source.FirstFault
import Pinpoint.Proofs.Source.Numbering

namespace Pinpoint

namespace Outline

mutual

/-- The outlines of the nodes of an outline, in pre-order. -/
def parts : Outline → List Outline
  | ⟨kind, children⟩ => ⟨kind, children⟩ :: partsAll children

/-- The outlines of the nodes of several outlines, one outline after the other. -/
def partsAll : List Outline → List Outline
  | [] => []
  | outline :: rest => outline.parts ++ partsAll rest

end

mutual

/-- The outline as it is declared, without what is wired. -/
def declared : Outline → Outline
  | ⟨kind, children⟩ => ⟨kind.declared, declaredAll children⟩

def declaredAll : List Outline → List Outline
  | [] => []
  | outline :: rest => outline.declared :: declaredAll rest

end

/-- The numbers of the roots of outlines whose nodes are numbered from `number` on. -/
def rootNumbers (number : NodeId) : List Outline → List NodeId
  | [] => []
  | outline :: rest => number :: rootNumbers (number + outline.size) rest

/-- The rules for documents: the root is the only file, a construction has at most one body, a method has at most
one receiver parameter, and all receiver parameters are those of methods. -/
structure Admissible (outline : Outline) : Prop where
  root : outline.kind.isUnit = true
  nested : ∀ part ∈ outline.parts.tail, part.kind.isUnit = false
  body : ∀ part ∈ outline.parts, part.kind.isConstruction = true →
    part.children.countP (·.kind.isClass) ≤ 1
  receiver : ∀ part ∈ outline.parts, part.kind.isMethod = true →
    part.children.countP (·.kind.isReceiver) ≤ 1
  stray : ∀ part ∈ outline.parts, part.kind.isMethod = false →
    ∀ child ∈ part.children, child.kind.isReceiver = false

theorem parts_eq (outline : Outline) : outline.parts = outline :: partsAll outline.children := by
  obtain ⟨kind, children⟩ := outline
  rw [parts]

theorem size_eq (outline : Outline) : outline.size = sizeAll outline.children + 1 := by
  obtain ⟨kind, children⟩ := outline
  rw [size]

theorem declaredAll_eq_map (outlines : List Outline) : declaredAll outlines = outlines.map declared := by
  induction outlines with
  | nil => rfl
  | cons outline rest ih => rw [declaredAll, ih, List.map_cons]

mutual

/-- An outline is sound just when each of its nodes takes its children. -/
theorem sound_iff_parts (outline : Outline) :
    outline.Sound ↔ ∀ part ∈ outline.parts, part.kind.declared.Takes (part.children.map (·.kind)) := by
  obtain ⟨kind, children⟩ := outline
  rw [sound_iff, parts, List.forall_mem_cons, sound_all_iff_parts children]

/-- Outlines are sound just when each of their parts takes its children. -/
theorem sound_all_iff_parts (outlines : List Outline) :
    (∀ outline ∈ outlines, outline.Sound) ↔
      ∀ part ∈ partsAll outlines, part.kind.declared.Takes (part.children.map (·.kind)) := by
  cases outlines with
  | nil => simp [partsAll]
  | cons outline rest =>
    rw [List.forall_mem_cons, partsAll, List.forall_mem_append, sound_iff_parts outline,
      sound_all_iff_parts rest]

end

mutual

/-- The nodes below the root are the children of nodes. -/
theorem mem_tail_parts_iff (part outline : Outline) :
    part ∈ outline.parts.tail ↔ ∃ owner ∈ outline.parts, part ∈ owner.children := by
  obtain ⟨kind, children⟩ := outline
  rw [parts, List.tail_cons, mem_partsAll_iff_children part children, List.exists_mem_cons_iff]

/-- The parts of outlines are these themselves and the children of parts. -/
theorem mem_partsAll_iff_children (part : Outline) (outlines : List Outline) :
    part ∈ partsAll outlines ↔ part ∈ outlines ∨ ∃ owner ∈ partsAll outlines, part ∈ owner.children := by
  cases outlines with
  | nil => simp [partsAll]
  | cons outline rest =>
    have hfirst : part ∈ outline.parts ↔ part = outline ∨ part ∈ outline.parts.tail := by
      rw [parts_eq, List.mem_cons, List.tail_cons]
    rw [partsAll, List.mem_append, hfirst, mem_tail_parts_iff part outline,
      mem_partsAll_iff_children part rest, List.mem_cons]
    simp only [List.mem_append, or_and_right, exists_or]
    exact or_or_or_comm

end

/-- The rules for documents say that the root is a file and each node takes its children. -/
theorem admissible_iff {outline : Outline} : outline.Admissible ↔ outline.kind.isUnit = true ∧ outline.Sound := by
  have hcount {fits : Kind → Bool} (children : List Outline) :
      (children.map (·.kind)).countP fits = children.countP fun child => fits child.kind := List.countP_map
  rw [sound_iff_parts]
  constructor
  · rintro ⟨hroot, hnested, hbody, hreceiver, hstray⟩
    refine ⟨hroot, ?_⟩
    intro part hpart
    refine ⟨?_, ?_, ?_, ?_⟩
    · rw [hcount, List.countP_eq_zero]
      intro child hchild
      have hchild' := hnested child ((mem_tail_parts_iff child outline).mpr ⟨part, hpart, hchild⟩)
      simp [hchild']
    · intro hown
      rw [Kind.isConstruction_declared] at hown
      simpa [hcount] using hbody part hpart hown
    · intro hown
      rw [Kind.isMethod_declared] at hown
      simpa [hcount] using hreceiver part hpart hown
    · intro hown
      rw [Kind.isMethod_declared] at hown
      rw [hcount, List.countP_eq_zero]
      intro child hchild
      simp [hstray part hpart hown child hchild]
  · rintro ⟨hroot, htakes⟩
    refine ⟨hroot, ?_, ?_, ?_, ?_⟩
    · intro part hpart
      obtain ⟨owner, howner, hchild⟩ := (mem_tail_parts_iff part outline).mp hpart
      have hnone := (htakes owner howner).unit
      rw [hcount, List.countP_eq_zero] at hnone
      simpa using hnone part hchild
    · intro part hpart hown
      simpa [hcount] using (htakes part hpart).body (by rwa [Kind.isConstruction_declared])
    · intro part hpart hown
      simpa [hcount] using (htakes part hpart).receiver (by rwa [Kind.isMethod_declared])
    · intro part hpart hown child hchild
      have hnone := (htakes part hpart).stray (by rwa [Kind.isMethod_declared])
      rw [hcount, List.countP_eq_zero] at hnone
      simpa using hnone child hchild

mutual

/-- The nodes that join a tree are those of the document. -/
theorem nodesFrom_map_snd (number : NodeId) (standing : Standing) (outline : Outline) :
    (outline.nodesFrom number standing).map (·.2) = outline.parts.map (·.kind) := by
  obtain ⟨kind, children⟩ := outline
  rw [nodesFrom, parts, List.map_cons, List.map_cons, childrenFrom_map_snd]

/-- Whatever the numbers are, the nodes of outlines have the kinds of their parts. -/
theorem childrenFrom_map_snd (number parent : NodeId) (owner : Kind) (before : List Kind)
    (outlines : List Outline) :
    (childrenFrom number parent owner before outlines).map (·.2) = (partsAll outlines).map (·.kind) := by
  cases outlines with
  | nil => rfl
  | cons outline rest =>
    rw [childrenFrom, partsAll, List.map_append, List.map_append, nodesFrom_map_snd, childrenFrom_map_snd]

end

end Outline

namespace Tree

/-- Reads the outline of a node back, as far as `height` levels below it; there is none if the subtree goes
deeper or has unknown nodes. -/
def outlineUpTo (tree : Tree) : (height : Nat) → NodeId → Option Outline
  | 0, _ => none
  | height + 1, id =>
    (tree.node? id).bind fun node =>
      (node.children.mapM (tree.outlineUpTo height)).map fun children => ⟨node.kind.declared, children⟩

/-- The document of a tree, read from the root. -/
def outline? (tree : Tree) : Option Outline := tree.outlineUpTo tree.size 0

/-- The node of a number is declared as the root of an outline, and its children are those of the outline if the
nodes of the outline are numbered in pre-order from there on. -/
def Stands (tree : Tree) (number : NodeId) (outline : Outline) : Prop :=
  ∃ node, tree.node? number = some node ∧ node.id = number ∧ node.kind.declared = outline.kind.declared ∧
    node.children = Outline.rootNumbers (number + 1) outline.children

variable {tree : Tree}

theorem HasOutline.lt_size {id : NodeId} {outline : Outline} (houtline : tree.HasOutline id outline) :
    id < tree.size := by
  obtain ⟨node, hnode, -⟩ := hasOutline_iff.mp houtline
  exact lt_size_of_node? hnode

/-- Outlines are read back one by one. -/
theorem mapM_eq_some_declared {read : NodeId → Option Outline} {ids : List NodeId} {outlines : List Outline}
    (houtlines : List.Forall₂ tree.HasOutline ids outlines)
    (hread : ∀ id ∈ ids, ∀ outline, tree.HasOutline id outline → read id = some outline.declared) :
    ids.mapM read = some (outlines.map Outline.declared) := by
  induction houtlines with
  | nil => rfl
  | cons houtline _ ih =>
    rw [List.forall_mem_cons] at hread
    simp [hread.1 _ houtline, ih hread.2]

/-- A subtree is read back as its outline. -/
theorem WellFormed.outlineUpTo_eq (hwf : tree.WellFormed) {height : Nat} {id : NodeId} {outline : Outline}
    (houtline : tree.HasOutline id outline) (hheight : tree.size ≤ height + id) :
    tree.outlineUpTo height id = some outline.declared := by
  induction height generalizing id outline with
  | zero =>
    exact absurd houtline.lt_size (Nat.not_lt_of_le (by simpa using hheight))
  | succ height ih =>
    obtain ⟨node, hnode, hdeclared, hchildren⟩ := hasOutline_iff.mp houtline
    have hread : ∀ child ∈ node.children, ∀ outline, tree.HasOutline child outline →
        tree.outlineUpTo height child = some outline.declared := by
      intro child hchild outline houtline
      have hmem : child ∈ tree.children id := by rwa [children, hnode]
      have hlt := (hwf.lt_of_mem_children hmem).1
      apply ih houtline
      calc tree.size ≤ height + 1 + id := hheight
        _ = height + (id + 1) := by rw [Nat.add_right_comm, Nat.add_assoc]
        _ ≤ height + child := Nat.add_le_add_left hlt height
    obtain ⟨kind, outlines⟩ := outline
    rw [outlineUpTo, hnode, Option.bind_some, mapM_eq_some_declared hchildren hread, Option.map_some, hdeclared,
      Outline.declared, Outline.declaredAll_eq_map]

mutual

/-- A subtree has as many nodes as its outline. -/
theorem WellFormed.length_subtree {tree : Tree} {id : NodeId} {outline : Outline} (hwf : tree.WellFormed)
    (houtline : tree.HasOutline id outline) : (tree.subtree id).length = outline.size := by
  obtain ⟨kind, outlines⟩ := outline
  obtain ⟨node, hnode, -, hchildren⟩ := houtline
  rw [hwf.subtree_eq (lt_size_of_node? hnode), Tree.children, hnode, List.length_cons, Outline.size]
  exact congrArg (· + 1) (WellFormed.length_subtrees hwf hchildren)

/-- Subtrees have as many nodes as their outlines. -/
theorem WellFormed.length_subtrees {tree : Tree} {ids : List NodeId} {outlines : List Outline}
    (hwf : tree.WellFormed) (houtlines : tree.HasOutlines ids outlines) :
    (ids.flatMap tree.subtree).length = Outline.sizeAll outlines := by
  cases outlines with
  | nil =>
    cases ids with
    | nil => rfl
    | cons id ids => exact houtlines.elim
  | cons outline rest =>
    cases ids with
    | nil => exact houtlines.elim
    | cons id ids =>
      obtain ⟨hfirst, hrest⟩ := houtlines
      rw [List.flatMap_cons, List.length_append, WellFormed.length_subtree hwf hfirst,
        WellFormed.length_subtrees hwf hrest, Outline.sizeAll]

end

mutual

/-- A subtree that lists consecutive numbers holds the nodes of its outline under these numbers. -/
theorem WellFormed.stands_parts {tree : Tree} {id : NodeId} {outline : Outline} (hwf : tree.WellFormed)
    (houtline : tree.HasOutline id outline) (hsubtree : tree.subtree id = List.range' id outline.size) :
    List.Forall₂ tree.Stands (List.range' id outline.size) outline.parts := by
  obtain ⟨kind, children⟩ := outline
  obtain ⟨node, hnode, hdeclared, hchildren⟩ := houtline
  have hnumbers : node.children.flatMap tree.subtree = List.range' (id + 1) (Outline.sizeAll children) := by
    rw [hwf.subtree_eq (lt_size_of_node? hnode), Tree.children, hnode, Outline.size, List.range'_succ] at hsubtree
    exact (List.cons.inj hsubtree).2
  obtain ⟨hroots, hstands⟩ := WellFormed.stands_partsAll hwf hchildren hnumbers
  rw [Outline.size, Outline.parts, List.range'_succ]
  exact .cons ⟨node, hnode, hwf.id_eq hnode, hdeclared, hroots⟩ hstands

/-- Where subtrees have consecutive ids, each part of their outlines stands at its number. -/
theorem WellFormed.stands_partsAll {tree : Tree} {first : NodeId} {ids : List NodeId} {outlines : List Outline}
    (hwf : tree.WellFormed) (houtlines : tree.HasOutlines ids outlines)
    (hsubtrees : ids.flatMap tree.subtree = List.range' first (Outline.sizeAll outlines)) :
    ids = Outline.rootNumbers first outlines ∧
      List.Forall₂ tree.Stands (List.range' first (Outline.sizeAll outlines)) (Outline.partsAll outlines) := by
  cases outlines with
  | nil =>
    cases ids with
    | nil => exact ⟨rfl, .nil⟩
    | cons id ids => exact houtlines.elim
  | cons outline rest =>
    cases ids with
    | nil => exact houtlines.elim
    | cons id ids =>
      obtain ⟨houtline, hrest⟩ := houtlines
      -- Subtrees have the sizes of their outlines, so the run of numbers divides between them.
      have hlength := hwf.length_subtree houtline
      rw [List.flatMap_cons, Outline.sizeAll, ← List.range'_append_1] at hsubtrees
      obtain ⟨hsubtree, hsubtrees⟩ := List.append_inj hsubtrees (by rw [hlength, List.length_range'])
      have hfirst : id = first := by
        have hlist := hsubtree
        rw [hwf.subtree_eq houtline.lt_size, Outline.size_eq, List.range'_succ] at hlist
        exact (List.cons.inj hlist).1
      subst hfirst
      obtain ⟨hroots, hstands⟩ := WellFormed.stands_partsAll hwf hrest hsubtrees
      rw [Outline.rootNumbers, ← hroots, Outline.sizeAll, ← List.range'_append_1, Outline.partsAll]
      exact ⟨rfl, List.rel_append (WellFormed.stands_parts hwf houtline hsubtree) hstands⟩

end

/-- Documents grow faithfully. A document grows into a tree just when it follows the rules. The tree has the
document's nodes, numbered in pre-order, each declared as in the document and with its children in order; so its
pre-order is the order of the numbers, and what is read back is the document without what is wired. A document
that does not grow is refused for the first of its nodes in pre-order that breaks a rule. -/
theorem ofOutline_faithful (outline : Outline) :
    ((∃ tree, ofOutline outline = .ok tree) ↔ outline.Admissible) ∧
    (∀ tree, ofOutline outline = .ok tree →
      List.Forall₂ tree.Stands (List.range tree.size) outline.parts ∧
      tree.preorder = List.range tree.size ∧ tree.outline? = some outline.declared) ∧
    outline.nodes.map (·.2) = outline.parts.map (·.kind) ∧
    ∀ fault, ofOutline outline = .error fault ↔ FirstFault Outline.Breaks outline.nodes fault := by
  refine ⟨?_, ?_, Outline.nodesFrom_map_snd 0 .root outline, fun _ => ofOutline_eq_error_iff⟩
  · rw [exists_ofOutline_iff, Outline.admissible_iff]
  · intro tree htree
    have hwf := (Grown.of_ofOutline htree).wellFormed
    have houtline := hasOutline_ofOutline htree
    have horder := preorder_ofOutline htree
    have hsubtree : tree.subtree 0 = List.range' 0 outline.size := by
      rw [← hwf.preorder_eq, horder, size_ofOutline htree, List.range_eq_range']
    refine ⟨?_, horder, hwf.outlineUpTo_eq houtline (Nat.le_refl _)⟩
    rw [size_ofOutline htree, List.range_eq_range']
    exact hwf.stands_parts houtline hsubtree

end Tree

/-- A class with a construction, whose body is given under a number that it does not get, and a block. -/
def Outline.misnumbered : Outline :=
  ⟨.unit none, [⟨.classDecl "A" .ordinary,
    [⟨.construction (some 9), [⟨.namelessClass, []⟩]⟩, ⟨.block, []⟩]⟩]⟩

namespace Tree

theorem ofOutline_faithful_misnumbered :
    Outline.misnumbered.Admissible ∧ ∃ tree, ofOutline .misnumbered = .ok tree ∧
      tree.kind? 2 = some (.construction (some 3)) ∧ (tree.node? 1).map (·.children) = some [2, 4] ∧
      tree.outline? = some ⟨.unit none, [⟨.classDecl "A" .ordinary,
        [⟨.construction none, [⟨.namelessClass, []⟩]⟩, ⟨.block, []⟩]⟩]⟩ := by
  obtain ⟨hgrows, hfaithful, -⟩ := ofOutline_faithful .misnumbered
  obtain ⟨tree, htree, hkind⟩ : ∃ tree, ofOutline .misnumbered = .ok tree ∧
      tree.kind? 2 = some (.construction (some 3)) := ⟨_, rfl, rfl⟩
  obtain ⟨hstands, -, hread⟩ := hfaithful tree htree
  refine ⟨hgrows.mp ⟨tree, htree⟩, tree, htree, hkind, ?_, hread⟩
  have hsize : tree.size = 5 := List.length_range.symm.trans hstands.length_eq
  rw [hsize] at hstands
  change List.Forall₂ tree.Stands [0, 1, 2, 3, 4] [_, _, _, _, _] at hstands
  rw [List.forall₂_cons, List.forall₂_cons] at hstands
  obtain ⟨-, ⟨node, hnode, -, -, hchildren⟩, -⟩ := hstands
  rw [hnode, Option.map_some, hchildren]
  rfl

end Tree

end Pinpoint
