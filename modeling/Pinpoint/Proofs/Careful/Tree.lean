import Mathlib.Data.List.Basic
import Mathlib.Tactic.Common
import Pinpoint.Proofs.BinaryName.Grammar
import Pinpoint.Proofs.Source.FirstFault

namespace Pinpoint

/-- What work breaks down on. -/
inductive Breakdown where
  /-- An id that no node of the tree has. -/
  | missingNode (id : NodeId)
  /-- An id that needs more than 32 bits. -/
  | wideId (id : NodeId)
  /-- A place below the end of a path. -/
  | missingDepth (depth : Nat)
  /-- A part of a text that ends before it starts or after the text. -/
  | badSlice (first last : Nat)
  /-- A path that leads to another node than the one asked about. -/
  | wrongLeaf (leaf : NodeId)
  /-- A count of classes that needs more than 32 bits. -/
  | fullCounter (scope : Option NodeId) (series : RankSeries)
  /-- More rounds than a tree has nodes. -/
  | endless
  /-- A rank in a class name that needs more than 32 bits. -/
  | rankOverflow (overflow : RankOverflow)
deriving DecidableEq

/-- Work that can break down. What is elsewhere looked up with a default in reserve, counted without a bound or
repeated while fuel lasts is done here with nothing in reserve. -/
abbrev Careful := Except Breakdown

namespace Careful

/-- The node of an id that is taken to be known. -/
def node (tree : Tree) (id : NodeId) : Careful Node :=
  match tree.node? id with
  | some node => .ok node
  | none => .error (.missingNode id)

/-- Adds a last child to `parent`, which is looked up once to be asked and once to be written to. -/
def push (tree : Tree) (parent : NodeId) (kind : Kind) : Careful (Except TreeFault Tree) :=
  match tree.node? parent with
  | none => .ok (.error (.unknownParent parent))
  | some owner =>
    match owner.kind.allow parent kind with
    | .error fault => .ok (.error fault)
    | .ok () =>
      if tree.size < UInt32.size then do
        let owner ← node tree parent
        return .ok ⟨(tree.nodes.setIfInBounds parent (owner.adopt tree.size kind)).push
          ⟨tree.size, some parent, [], kind.declared⟩⟩
      else throw (.wideId tree.size)

mutual

/-- Grows an outline under `parent`. -/
def graft (tree : Tree) (parent : NodeId) : Outline → Careful (Except TreeFault Tree)
  | ⟨kind, children⟩ => do
    match ← push tree parent kind with
    | .error fault => return .error fault
    | .ok grown => graftAll grown tree.size children

/-- Grows outlines under `parent`, one after the other. -/
def graftAll (tree : Tree) (parent : NodeId) : List Outline → Careful (Except TreeFault Tree)
  | [] => return .ok tree
  | outline :: rest => do
    match ← graft tree parent outline with
    | .error fault => return .error fault
    | .ok grown => graftAll grown parent rest

end

/-- The tree of an outline. -/
def ofOutline (outline : Outline) : Careful (Except TreeFault Tree) :=
  match Tree.ofRoot outline.kind with
  | .error fault => .ok (.error fault)
  | .ok tree => graftAll tree 0 outline.children

/-- Reads the subtrees of a list of nodes. -/
def visit (tree : Tree) : (fuel : Nat) → List NodeId → Careful (List NodeId)
  | _, [] => return []
  | 0, _ :: _ => throw .endless
  | fuel + 1, id :: pending => do
    let node ← node tree id
    return id :: (← visit tree fuel (node.children ++ pending))

/-- All ids in pre-order. -/
def preorder (tree : Tree) : Careful (List NodeId) := visit tree tree.size [0]

/-- The nearest class from a node up, if there is a node to start from. -/
def nearestClass (tree : Tree) : (fuel : Nat) → Option NodeId → Careful (Option NodeId)
  | _, none => return none
  | 0, some _ => throw .endless
  | fuel + 1, some id => do
    let node ← node tree id
    if node.kind.isClass then return some id else nearestClass tree fuel node.parent

/-- The nearest class-like ancestor of a node. -/
def scope (tree : Tree) (id : NodeId) : Careful (Option NodeId) := do
  let node ← node tree id
  nearestClass tree tree.size node.parent

/-- The series in which a class is numbered. -/
def series (tree : Tree) (node : Node) : Careful (Option RankSeries) :=
  match node.kind with
  | .classDecl name _ => do
    let inBlock ← match node.parent with
      | none => pure false
      | some parent => do
        let owner ← Careful.node tree parent
        pure owner.kind.isBlock
    return if inBlock then some .localClass else if name.isEmpty then some .anonymous else none
  | _ => return none

/-- Takes the next node in pre-order. -/
def addRank (tree : Tree) (state : RankTable × RankTable.Counters) (id : NodeId) :
    Careful (RankTable × RankTable.Counters) := do
  let (table, counters) := state
  let node ← node tree id
  let table := table.addBody node
  match ← series tree node with
  | none => return (table, counters)
  | some series =>
    let scope ← scope tree id
    if counters scope series + 1 < UInt32.size then
      return ({ table with ranks := ((id, series), counters scope series) :: table.ranks },
        counters.bump scope series)
    else throw (.fullCounter scope series)

/-- The index of the ranks of a tree's classes. -/
def ranks (tree : Tree) : Careful RankIndex := do
  let order ← preorder tree
  let (table, _) ← order.foldlM (addRank tree) (⟨[], []⟩, fun _ _ => 0)
  return table.index

/-- Puts the ids of a node and of its ancestors before `below`, root first. -/
def climb (tree : Tree) : (fuel : Nat) → NodeId → (below : List NodeId) → Careful (List NodeId)
  | 0, _, _ => throw .endless
  | fuel + 1, id, below => do
    let node ← node tree id
    match node.parent with
    | none => return id :: below
    | some parent => climb tree fuel parent (id :: below)

/-- The ids on the path to a node of the tree. -/
def path (tree : Tree) (id : NodeId) : Careful (Option (List NodeId)) :=
  match tree.node? id with
  | none => return none
  | some node => some <$> climb tree tree.size node.id []

variable {tree : Tree} {id parent : NodeId}

theorem ok_bind {α β : Type} (value : α) (next : α → Careful β) :
    ((.ok value : Careful α) >>= next) = next value := rfl

theorem node_eq {node : Node} (hnode : tree.node? id = some node) : Careful.node tree id = .ok node := by
  rw [Careful.node, hnode]

theorem modify_eq_setIfInBounds {nodes : Array Node} {node : Node} (hnode : nodes[id]? = some node)
    (change : Node → Node) : nodes.modify id change = nodes.setIfInBounds id (change node) := by
  apply Array.ext_getElem?
  intro other
  rw [Array.getElem?_modify, Array.getElem?_setIfInBounds]
  by_cases hother : id = other
  · subst hother
    obtain ⟨hsize, hget⟩ := Array.getElem?_eq_some_iff.mp hnode
    simp [hget, hsize]
  · simp [hother]

/-- A push breaks down on nothing as long as the new node can be numbered: the parent that has been asked is
there to be written to. -/
theorem push_eq (hsize : tree.size < UInt32.size) (parent : NodeId) (kind : Kind) :
    push tree parent kind = .ok (tree.push parent kind) := by
  rw [push, Tree.push]
  cases hnode : tree.node? parent with
  | none => rfl
  | some owner =>
    dsimp only
    cases owner.kind.allow parent kind with
    | error fault => rfl
    | ok _ =>
      dsimp only
      rw [if_pos hsize, node_eq hnode, ok_bind, modify_eq_setIfInBounds hnode]
      rfl

mutual

/-- An outline grows as long as its nodes can be numbered. -/
theorem graft_eq {tree : Tree} {parent : NodeId} (outline : Outline)
    (hsize : tree.size + outline.size ≤ UInt32.size) :
    graft tree parent outline = .ok (tree.graft parent outline) := by
  obtain ⟨kind, children⟩ := outline
  rw [Outline.size] at hsize
  rw [graft, Tree.graft, push_eq (by omega), ok_bind]
  cases hpush : tree.push parent kind with
  | error fault => rfl
  | ok grown =>
    have hgrown := Tree.size_of_push hpush
    exact graftAll_eq children (by omega)

/-- The same of outlines that grow one after the other. -/
theorem graftAll_eq {tree : Tree} {parent : NodeId} (outlines : List Outline)
    (hsize : tree.size + Outline.sizeAll outlines ≤ UInt32.size) :
    graftAll tree parent outlines = .ok (tree.graftAll parent outlines) := by
  cases outlines with
  | nil => rfl
  | cons outline rest =>
    rw [Outline.sizeAll] at hsize
    rw [graftAll, Tree.graftAll, graft_eq outline (by omega), ok_bind]
    cases hfirst : tree.graft parent outline with
    | error fault => rfl
    | ok grown =>
      have hgrown := Tree.size_of_graft hfirst
      exact graftAll_eq rest (by omega)

end

/-- The tree of an outline grows if its nodes can be numbered. -/
theorem ofOutline_eq {outline : Outline} (hsize : outline.size ≤ UInt32.size) :
    ofOutline outline = .ok (Tree.ofOutline outline) := by
  obtain ⟨kind, children⟩ := outline
  rw [ofOutline, Tree.ofOutline, Tree.ofRoot]
  cases kind.isUnit with
  | false => rfl
  | true =>
    rw [Outline.size, Nat.add_comm] at hsize
    exact graftAll_eq children hsize

/-- Reading subtrees ends when all their nodes have been listed. -/
theorem visit_eq (hwf : tree.WellFormed) {fuel : Nat} {pending : List NodeId}
    (hpending : ∀ id ∈ pending, id < tree.size) (hfuel : (pending.flatMap tree.subtree).length ≤ fuel) :
    visit tree fuel pending = .ok (pending.flatMap tree.subtree) := by
  induction fuel generalizing pending with
  | zero =>
    cases pending with
    | nil => rfl
    | cons id pending =>
      rw [List.flatMap_cons, hwf.subtree_eq (hpending id List.mem_cons_self)] at hfuel
      simp at hfuel
  | succ fuel ih =>
    cases pending with
    | nil => rfl
    | cons id pending =>
      have hid := hpending id List.mem_cons_self
      obtain ⟨node, hnode⟩ := Tree.node?_isSome_iff.mpr hid
      have hchildren : tree.children id = node.children := by rw [Tree.children, hnode]
      have hnext : ∀ next ∈ node.children ++ pending, next < tree.size := by
        intro next hnext
        obtain hchild | hlater := List.mem_append.mp hnext
        · exact (hwf.lt_of_mem_children (hchildren ▸ hchild)).2
        · exact hpending next (List.mem_cons_of_mem id hlater)
      -- a round lists one node of the pending subtrees; its children's subtrees take its place
      rw [List.flatMap_cons, hwf.subtree_eq hid, hchildren, List.cons_append, ← List.flatMap_append]
        at hfuel ⊢
      rw [visit, node_eq hnode, ok_bind, ih hnext (Nat.le_of_succ_le_succ hfuel), ok_bind]
      rfl

/-- The pre-order of a tree is listed before the rounds run out. -/
theorem preorder_eq (hwf : tree.WellFormed) : preorder tree = .ok tree.preorder := by
  have hroot : ∀ id ∈ [0], id < tree.size := by simpa using hwf.size_pos
  have hlength := hwf.length_subtree_root
  rw [preorder, visit_eq hwf hroot (by simp [hlength]), hwf.preorder_eq]
  simp

/-- The root has no parent and is a unit. -/
theorem root_eq (hwf : tree.WellFormed) {root : Node} (hroot : tree.node? 0 = some root) :
    root.parent = none ∧ root.kind.isUnit = true := by
  obtain ⟨node, hnode, hroot'⟩ := hwf.root
  cases hnode.symm.trans hroot
  exact hroot'

/-- The nearest class from a node up is the last one on its lineage. -/
theorem nearestClass_eq (hwf : tree.WellFormed) {fuel : Nat} (hid : id < tree.size) (hfuel : id < fuel) :
    nearestClass tree fuel (some id) =
      .ok (((tree.lineage id).reverse.find? (·.kind.isClass)).map (·.id)) := by
  induction fuel generalizing id with
  | zero => exact absurd hfuel (Nat.not_lt_zero id)
  | succ fuel ih =>
    obtain ⟨node, hnode⟩ := Tree.node?_isSome_iff.mpr hid
    rw [nearestClass, node_eq hnode, ok_bind]
    obtain ⟨rfl, hlineage⟩ | ⟨parent, hparent, hlt, hlineage⟩ := hwf.lineage_cases hnode
    · obtain ⟨hnone, hunit⟩ := root_eq hwf hnode
      rw [hlineage, hnone, nearestClass, List.reverse_singleton, List.find?_cons,
        Kind.isClass_of_isUnit hunit]
      rfl
    · rw [hlineage, List.reverse_concat, List.find?_cons]
      cases node.kind.isClass with
      | true =>
        rw [if_pos rfl, Option.map_some, hwf.id_eq hnode]
        rfl
      | false =>
        rw [if_neg Bool.false_ne_true, hparent]
        exact ih (Nat.lt_trans hlt hid) (Nat.lt_of_lt_of_le hlt (Nat.le_of_lt_succ hfuel))

/-- The nearest class is found before the fuel runs out. -/
theorem scope_eq (hwf : tree.WellFormed) (hid : id < tree.size) :
    scope tree id = .ok (tree.scope? id) := by
  obtain ⟨node, hnode⟩ := Tree.node?_isSome_iff.mpr hid
  rw [scope, node_eq hnode, ok_bind, Tree.scope?]
  obtain ⟨rfl, hlineage⟩ | ⟨parent, hparent, hlt, hlineage⟩ := hwf.lineage_cases hnode
  · rw [hlineage, (root_eq hwf hnode).1, nearestClass]
    rfl
  · have hsize := Nat.lt_trans hlt hid
    rw [hlineage, List.dropLast_concat, hparent, nearestClass_eq hwf hsize hsize]

/-- The parent that tells the series of a class is there. -/
theorem series_eq (hwf : tree.WellFormed) {node : Node} (hnode : tree.node? id = some node) :
    series tree node = .ok (tree.series? node) := by
  rw [series, Tree.series?]
  cases node.kind with
  | classDecl name flavor =>
    cases hparent : node.parent with
    | none => rfl
    | some parent =>
      obtain ⟨owner, howner⟩ := hwf.exists_parent hnode hparent
      have hblock : owner.kind.isBlock = true ↔ owner.kind = .block := by
        cases owner.kind <;> simp [Kind.isBlock]
      simp only [node_eq howner, Option.bind_some, Tree.kind?, howner, Option.map_some, Option.some.injEq,
        ← hblock]
      rfl
  | _ => rfl

/-- A node is taken while its scope has ranks left. -/
theorem addRank_eq (hwf : tree.WellFormed) {table : RankTable} {counters : RankTable.Counters}
    (hid : id < tree.size) (hroom : ∀ scope series, counters scope series + 1 < UInt32.size) :
    addRank tree (table, counters) id = .ok (RankTable.add tree (table, counters) id) := by
  obtain ⟨node, hnode⟩ := Tree.node?_isSome_iff.mpr hid
  rw [addRank, RankTable.add]
  dsimp only
  rw [hnode, node_eq hnode, ok_bind, series_eq hwf hnode, ok_bind]
  dsimp only
  cases tree.series? node with
  | none => rfl
  | some series =>
    dsimp only
    rw [scope_eq hwf hid, ok_bind, if_pos (hroom _ series)]
    rfl

/-- No scope has more classes than the tree has nodes, so ranks never run out. -/
theorem foldlM_addRank_eq (hwf : tree.WellFormed) (hsize : tree.size < UInt32.size)
    (order : List NodeId) {done : List NodeId} {table : RankTable} {counters : RankTable.Counters}
    (hcovers : RankTable.Covers tree done table counters) (horder : ∀ id ∈ order, id < tree.size)
    (hnodup : (done ++ order).Nodup) (hlength : (done ++ order).length ≤ tree.size) :
    order.foldlM (addRank tree) (table, counters) =
      .ok (order.foldl (RankTable.add tree) (table, counters)) := by
  induction order generalizing done table counters with
  | nil => rfl
  | cons id order ih =>
    have hnew : id ∉ done := fun hmem =>
      (List.nodup_append.mp hnodup).2.2 id hmem id List.mem_cons_self rfl
    have hid := horder id List.mem_cons_self
    -- a counter counts nodes that are done, and this one is not
    have hroom : ∀ scope series, counters scope series + 1 < UInt32.size := by
      intro scope series
      have hcount := List.countP_le_length (p := RankTable.isNumbered tree scope series) (l := done)
      rw [List.length_append, List.length_cons] at hlength
      rw [hcovers.counted]
      omega
    rw [List.foldlM_cons, addRank_eq hwf hid hroom, ok_bind, List.foldl_cons]
    exact ih (hcovers.add hwf hid hnew) (fun other hother => horder other (List.mem_cons_of_mem id hother))
      (by simpa using hnodup) (by simpa using hlength)

/-- Ranking the classes of a tree that can be numbered fills no counter. -/
theorem ranks_eq (hwf : tree.WellFormed) (hsize : tree.size < UInt32.size) :
    ranks tree = .ok tree.ranks := by
  rw [ranks, preorder_eq hwf, ok_bind, foldlM_addRank_eq hwf hsize _ RankTable.covers_nil
    (fun _ hid => hwf.mem_preorder.mp hid) hwf.nodup_preorder (Nat.le_of_eq hwf.length_preorder)]
  rfl

/-- Climbing lists the lineage. -/
theorem climb_eq (hwf : tree.WellFormed) {fuel : Nat} (hid : id < tree.size) (hfuel : id < fuel)
    (below : List NodeId) :
    climb tree fuel id below = .ok ((tree.lineage id).map (·.id) ++ below) := by
  induction fuel generalizing id below with
  | zero => exact absurd hfuel (Nat.not_lt_zero id)
  | succ fuel ih =>
    obtain ⟨node, hnode⟩ := Tree.node?_isSome_iff.mpr hid
    have hnodeId := hwf.id_eq hnode
    rw [climb, node_eq hnode, ok_bind]
    obtain ⟨rfl, hlineage⟩ | ⟨parent, hparent, hlt, hlineage⟩ := hwf.lineage_cases hnode
    · rw [(root_eq hwf hnode).1, hlineage, List.map_singleton, hnodeId]
      rfl
    · rw [hparent, hlineage]
      dsimp only
      rw [ih (Nat.lt_trans hlt hid) (Nat.lt_of_lt_of_le hlt (Nat.le_of_lt_succ hfuel))]
      simp [hnodeId]

/-- The path to a node is that of its lineage. -/
theorem path_eq (hwf : tree.WellFormed) (id : NodeId) :
    path tree id = .ok ((tree.path? id).map (·.ids)) := by
  rw [path]
  cases hnode : tree.node? id with
  | none =>
    rw [Tree.path?, Tree.lineage_eq_nil hnode]
    rfl
  | some node =>
    have hid := Tree.lt_size_of_node? hnode
    obtain ⟨found, hfound, hnodes⟩ := hwf.path?_eq hid
    dsimp only
    rw [hwf.id_eq hnode, climb_eq hwf hid hid, hfound, Option.map_some, Path.ids, hnodes, List.append_nil]
    rfl

end Careful

end Pinpoint
