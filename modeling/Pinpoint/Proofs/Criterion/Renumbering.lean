import Mathlib.Tactic.Common
import Pinpoint.Criterion.Basic
import Pinpoint.Proofs.BinaryName.Rank
import Pinpoint.Proofs.Source.Arena
import Pinpoint.Proofs.Source.Place

namespace Pinpoint

theorem Kind.rename_eq_block_iff {f : NodeId → NodeId} {kind : Kind} :
    kind.rename f = .block ↔ kind = .block := by
  cases kind <;> simp [rename]

/-- The path with new numbers for its nodes. -/
def Path.rename (f : NodeId → NodeId) (path : Path) : Path :=
  ⟨path.nodes.map (Node.rename f), by simpa using path.nonempty⟩

/-- A path of renumbered nodes is the renumbered path. -/
theorem Path.ofNodes?_map_rename (f : NodeId → NodeId) (nodes : List Node) :
    ofNodes? (nodes.map (Node.rename f)) = (ofNodes? nodes).map (Path.rename f) := by
  cases nodes <;> rfl

theorem Path.leaf_rename (f : NodeId → NodeId) (path : Path) :
    (path.rename f).leaf = path.leaf.rename f := by
  rw [leaf, leaf]
  exact List.getLast_map _

namespace Tree

variable {tree other : Tree} {f : NodeId → NodeId}

/-- The scope of a node is a node of the tree. -/
theorem WellFormed.scope?_lt (hwf : tree.WellFormed) {id scope : NodeId} (hid : id < tree.size)
    (hscope : tree.scope? id = some scope) : scope < tree.size := by
  obtain ⟨node, hnode, rfl⟩ := Option.map_eq_some_iff.mp hscope
  have hmem := List.dropLast_subset _ (List.mem_reverse.mp (List.mem_of_find?_eq_some hnode))
  exact Nat.lt_of_le_of_lt (hwf.le_of_mem_lineage hmem) hid

/-- What is wired to a node is a node. -/
theorem Wires.lt_size {owns fits : Kind → Bool} {wired? : Kind → Option NodeId}
    (hwires : tree.Wires owns fits wired?) (hnone : ∀ kind : Kind, owns kind = false → wired? kind = none)
    {id child : NodeId} {node : Node} (hnode : tree.node? id = some node)
    (hwired : wired? node.kind = some child) : child < tree.size := by
  cases hown : owns node.kind with
  | false =>
    rw [hnone _ hown] at hwired
    cases hwired
  | true =>
    obtain ⟨found, hfound, -⟩ := (hwires hnode hown child).mp hwired
    exact lt_size_of_node? hfound

theorem WellFormed.rankedClass_lt (hwf : tree.WellFormed) {id : NodeId} (hid : id < tree.size)
    (series : RankSeries) : tree.rankedClass id series < tree.size := by
  cases series with
  | localClass => exact hid
  | anonymous =>
    obtain ⟨node, hnode⟩ := node?_isSome_iff.mpr hid
    rw [rankedClass, kind?, hnode, Option.map_some, Option.bind_some]
    cases hbody : node.kind.body? with
    | none => exact hid
    | some body => exact Wires.lt_size hwf.body_iff (fun _ => Kind.body?_eq_none) hnode hbody

namespace Iso

section

variable (hiso : tree.Iso other f)

include hiso

/-- New numbers are equal where the old ones are. -/
theorem map_eq_map_iff {left right : Option NodeId} (hleft : ∀ id, left = some id → id < tree.size)
    (hright : ∀ id, right = some id → id < tree.size) : left.map f = right.map f ↔ left = right := by
  cases left with
  | none => cases right <;> simp
  | some left =>
    cases right with
    | none => simp
    | some right =>
      rw [Option.map_some, Option.map_some, Option.some.injEq, Option.some.injEq]
      exact ⟨hiso.eq_of_eq (hleft left rfl) (hright right rfl), congrArg f⟩

variable (hwf : tree.WellFormed) (hwf' : other.WellFormed)

include hwf hwf'

/-- Kinds are the same under the new numbers. -/
theorem kind?_eq {id : NodeId} (hid : id < tree.size) :
    other.kind? (f id) = (tree.kind? id).map (Kind.rename f) := by
  obtain ⟨node, hnode⟩ := node?_isSome_iff.mpr hid
  rw [kind?, hiso.node?_eq hwf hwf' hnode, kind?, hnode]
  rfl

/-- Paths are the same under the new numbers. -/
theorem path?_eq {id : NodeId} (hid : id < tree.size) :
    other.path? (f id) = (tree.path? id).map (Path.rename f) := by
  rw [path?, hiso.lineage_eq hwf hwf' hid, Path.ofNodes?_map_rename, path?]

/-- A class is numbered in the same series. -/
theorem seriesAt?_eq {id : NodeId} (hid : id < tree.size) : other.seriesAt? (f id) = tree.seriesAt? id := by
  obtain ⟨node, hnode⟩ := node?_isSome_iff.mpr hid
  have hblock : (node.parent.map f).bind other.kind? = some .block ↔
      node.parent.bind tree.kind? = some .block := by
    cases hparent : node.parent with
    | none => simp
    | some parent =>
      have hlt := Nat.lt_trans (hwf.lt_of_parent hnode hparent) hid
      rw [Option.map_some, Option.bind_some, Option.bind_some, hiso.kind?_eq hwf hwf' hlt,
        Option.map_eq_some_iff]
      simp [Kind.rename_eq_block_iff]
  rw [seriesAt?, hiso.node?_eq hwf hwf' hnode, seriesAt?, hnode, Option.bind_some, Option.bind_some]
  cases hkind : node.kind with
  | classDecl name flavor => simp only [series?, Node.rename, hkind, Kind.rename, hblock]
  | _ => simp only [series?, Node.rename, hkind, Kind.rename]

/-- Classes that are numbered together stay so. -/
theorem alike_eq {id id' : NodeId} (hid : id < tree.size) (hid' : id' < tree.size) :
    other.alike (f id) (f id') = tree.alike id id' := by
  rw [alike, hiso.seriesAt?_eq hwf hwf' hid, hiso.seriesAt?_eq hwf hwf' hid', hiso.scope?_eq hwf hwf' hid,
    hiso.scope?_eq hwf hwf' hid', alike]
  simp only [hiso.map_eq_map_iff (fun _ => hwf.scope?_lt hid') (fun _ => hwf.scope?_lt hid)]

/-- A class has as many classes of its series and scope before it. -/
theorem rank_eq {id : NodeId} (hid : id < tree.size) : other.rank (f id) = tree.rank id := by
  obtain ⟨before, after, hsplit, hbefore⟩ := List.eq_append_cons_of_mem (hwf.mem_preorder.mpr hid)
  have hlt : ∀ class' ∈ before, class' < tree.size := by
    intro class' hclass
    rw [← hwf.mem_preorder, hsplit]
    exact List.mem_append_left _ hclass
  have hbefore' : f id ∉ before.map f := by
    rw [List.mem_map]
    rintro ⟨class', hclass, heq⟩
    rw [hiso.eq_of_eq (hlt class' hclass) hid heq] at hclass
    exact hbefore hclass
  rw [rank, hiso.preorder_eq hwf hwf', hsplit, List.map_append, List.map_cons, rankIn_split hbefore', rank,
    hsplit, rankIn_split hbefore, List.countP_map]
  apply List.countP_congr
  intro class' hclass
  rw [Function.comp_apply, hiso.alike_eq hwf hwf' hid (hlt class' hclass)]

/-- A construction is ranked for its body, whatever the numbers are. -/
theorem rankedClass_eq {id : NodeId} (hid : id < tree.size) (series : RankSeries) :
    other.rankedClass (f id) series = f (tree.rankedClass id series) := by
  cases series with
  | localClass => rfl
  | anonymous =>
    obtain ⟨node, hnode⟩ := node?_isSome_iff.mpr hid
    rw [rankedClass, hiso.kind?_eq hwf hwf' hid, rankedClass, kind?, hnode, Option.map_some, Option.map_some,
      Option.bind_some, Option.bind_some, Kind.body?_rename]
    cases node.kind.body? <;> rfl

/-- The index of ranks answers the same. -/
theorem rank?_eq {id : NodeId} (hid : id < tree.size) (series : RankSeries) :
    other.ranks.rank? (f id) series = tree.ranks.rank? id series := by
  have hlt := hwf.rankedClass_lt hid series
  rw [hwf'.ranks_rank?, hiso.rankedClass_eq hwf hwf' hid, hiso.seriesAt?_eq hwf hwf' hlt,
    hiso.rank_eq hwf hwf' hlt, hwf.ranks_rank?]

end

end Iso

end Tree

namespace BinaryName

variable {ranks ranks' : RankIndex} {exact : Bool} {f : NodeId → NodeId}

/-- A node is read the same under its new number if its ranks are found there. -/
theorem readNode_rename {node : Node}
    (hranks : ∀ series, ranks'.rank? (f node.id) series = ranks.rank? node.id series) (above : Option Kind)
    (inside : Bool) (rest : List Char) :
    readNode ranks' exact (above.map (Kind.rename f)) inside rest (node.rename f) =
      readNode ranks exact above inside rest node := by
  obtain ⟨id, parent, children, kind⟩ := node
  cases kind with
  | classDecl name flavor =>
    cases above with
    | none => simp [readNode, Node.rename, Kind.rename, readAnonymous, hranks]
    | some above =>
      cases above <;> simp [readNode, Node.rename, Kind.rename, readAnonymous, readLocal, hranks]
  | construction body => simp [readNode, Node.rename, Kind.rename, readAnonymous, hranks]
  | _ => rfl

/-- A class name is read the same along a path with new numbers. -/
theorem walk_rename {nodes : List Node}
    (hranks : ∀ node ∈ nodes, ∀ series, ranks'.rank? (f node.id) series = ranks.rank? node.id series)
    (above : Option Kind) (inside : Bool) (rest : List Char) :
    walk ranks' exact (above.map (Kind.rename f)) inside rest (nodes.map (Node.rename f)) =
      walk ranks exact above inside rest nodes := by
  induction nodes generalizing above inside rest with
  | nil => rfl
  | cons node below ih =>
    obtain ⟨hnode, hbelow⟩ := List.forall_mem_cons.mp hranks
    rw [List.map_cons, walk, readNode_rename hnode, walk]
    cases readNode ranks exact above inside rest node with
    | error overflow => rfl
    | ok step =>
      cases step with
      | decided answer => rfl
      | onward inside rest => exact ih hbelow (some node.kind) inside rest

end BinaryName

namespace Tree

variable {tree other : Tree} {f : NodeId → NodeId}

namespace Iso

variable (hiso : tree.Iso other f) (hwf : tree.WellFormed)

include hiso hwf

/-- The climb to a method is the same along nodes with new numbers, since those it compares are told
apart. -/
theorem climb_eq (signature : MethodSignature) {nodes : List Node}
    (hknown : ∀ node ∈ nodes, tree.node? node.id = some node) (passed : Option NodeId)
    (hpassed : ∀ id, passed = some id → id < tree.size) :
    Receiver.climb signature (passed.map f) (nodes.map (Node.rename f)) =
      Receiver.climb signature passed nodes := by
  induction nodes generalizing passed with
  | nil => rfl
  | cons node above ih =>
    obtain ⟨hnode, habove⟩ := List.forall_mem_cons.mp hknown
    have honward := ih habove passed hpassed
    rw [List.map_cons, Receiver.climb, Receiver.climb]
    cases hkind : node.kind with
    | method name parameters receiver =>
      have hreceiver : ∀ id, receiver = some id → id < tree.size := by
        intro id hid
        refine Wires.lt_size hwf.receiver_iff (fun _ => Kind.receiver?_eq_none) hnode ?_
        rw [hkind, Kind.receiver?, hid]
      simp [Node.rename, hkind, Kind.rename, hiso.map_eq_map_iff hreceiver hpassed]
    | «variable» name isReceiver =>
      have hpast := ih habove (some node.id) (by simpa using lt_size_of_node? hnode)
      rw [Option.map_some] at hpast
      simp [Node.rename, hkind, Kind.rename, hpast]
    | _ => simp [Node.rename, hkind, Kind.rename, honward]

/-- Whether a path leads to the place of a receiver annotation does not depend on the numbers. -/
theorem isPlace_eq (signature : MethodSignature) {path : Path}
    (hknown : ∀ node ∈ path.nodes, tree.node? node.id = some node) :
    Receiver.isPlace signature (path.rename f) = Receiver.isPlace signature path := by
  have hreverse : ∀ node ∈ path.nodes.reverse, tree.node? node.id = some node := by simpa using hknown
  have hclimb := hiso.climb_eq hwf signature hreverse none (by simp)
  rw [Receiver.isPlace, Path.leaf_rename, Receiver.isPlace]
  cases hkind : path.leaf.kind with
  | method name parameters receiver => simp [Node.rename, hkind, Kind.rename]
  | _ =>
    simp only [Node.rename, hkind, Kind.rename]
    rw [← hclimb, List.map_reverse]
    rfl

end Iso

end Tree

theorem Criterion.isMethodOf_rename (f : NodeId → NodeId) (signature : MethodSignature) (path : Path) :
    isMethodOf signature (path.rename f) = isMethodOf signature path := by
  rw [isMethodOf, Path.leaf_rename, isMethodOf]
  cases hkind : path.leaf.kind <;> simp [Node.rename, hkind, Kind.rename]

namespace Tree

variable {tree other : Tree} {f : NodeId → NodeId}

/-- Every criterion has the same answer. -/
theorem Iso.holds_eq (hiso : tree.Iso other f) (hwf : tree.WellFormed) (hwf' : other.WellFormed)
    {id : NodeId} (hid : id < tree.size) (criterion : Criterion) :
    criterion.holds other.ranks (other.path? (f id)) = criterion.holds tree.ranks (tree.path? id) := by
  obtain ⟨path, hpath, hnodes⟩ := hwf.path?_eq hid
  have hknown := (hwf.linked_lineage id).known
  rw [← hnodes] at hknown
  rw [hiso.path?_eq hwf hwf' hid, hpath, Option.map_some, Criterion.holds, Criterion.holds]
  cases criterion with
  | inClass className exact =>
    refine BinaryName.walk_rename ?_ none false className.toList
    intro node hnode series
    exact hiso.rank?_eq hwf hwf' (lt_size_of_node? (hknown node hnode)) series
  | onReceiver methodName signature =>
    rw [Criterion.holdsAt, Criterion.holdsAt, hiso.isPlace_eq hwf signature hknown]
  | hasSignature signature => rw [Criterion.holdsAt, Criterion.holdsAt, Criterion.isMethodOf_rename]

/-- Two trees give the same ranks and the same answers at corresponding nodes. -/
structure Agrees (tree other : Tree) (f : NodeId → NodeId) : Prop where
  ranks : ∀ id < tree.size, ∀ series, other.ranks.rank? (f id) series = tree.ranks.rank? id series
  answers : ∀ id < tree.size, ∀ criterion : Criterion,
    criterion.holds other.ranks (other.path? (f id)) = criterion.holds tree.ranks (tree.path? id)

/-- Trees that differ in the numbers only agree on ranks and answers. -/
theorem Iso.agrees (hiso : tree.Iso other f) (hwf : tree.WellFormed) (hwf' : other.WellFormed) :
    tree.Agrees other f :=
  ⟨fun _ hid series => hiso.rank?_eq hwf hwf' hid series,
    fun _ hid criterion => hiso.holds_eq hwf hwf' hid criterion⟩

/-- Ranks and answers do not depend on the order in which a tree has grown. They are the same in every tree
that differs in the numbers of its nodes only, and in particular in the tree that grows from the outline of
the tree, where the number of a node is its position in pre-order. -/
theorem agrees_renumbered (htree : tree.Grown) :
    (∀ other f, other.Grown → tree.Iso other f → tree.Agrees other f) ∧
    (∃ outline, tree.HasOutline 0 outline) ∧
    ∀ outline, tree.HasOutline 0 outline →
      ∃ built f, ofOutline outline = .ok built ∧ tree.Iso built f ∧ tree.Agrees built f ∧
        tree.preorder.map f = List.range built.size := by
  have hwf := htree.wellFormed
  refine ⟨?_, hwf.exists_outline hwf.size_pos, ?_⟩
  · intro other f hother hiso
    exact hiso.agrees hwf hother.wellFormed
  · intro outline houtline
    obtain ⟨built, f, hbuilt, hiso⟩ := hwf.exists_ofOutline houtline
    have hwf' := (Grown.of_ofOutline hbuilt).wellFormed
    refine ⟨built, f, hbuilt, hiso, hiso.agrees hwf hwf', ?_⟩
    rw [← hiso.preorder_eq hwf hwf', preorder_ofOutline hbuilt]

/-- A class with two methods, of which the second gets its anonymous class first. -/
def scattered : Tree :=
  (unit none).pushed [(0, .classDecl "A" .ordinary), (1, .method "m" [] none), (1, .method "n" [] none),
    (3, .construction none), (4, .namelessClass), (2, .construction none), (6, .namelessClass)]

theorem grown_scattered : scattered.Grown := Grown.pushed (.unit none) _

end Tree

/-- The outline of the class, each method with its anonymous class. -/
def Outline.scattered : Outline :=
  ⟨.unit none, [⟨.classDecl "A" .ordinary,
    [⟨.method "m" [] none, [⟨.construction none, [⟨.namelessClass, []⟩]⟩]⟩,
      ⟨.method "n" [] none, [⟨.construction none, [⟨.namelessClass, []⟩]⟩]⟩]⟩]⟩

namespace Tree

theorem hasOutline_scattered : scattered.HasOutline 0 .scattered := by
  have hnodes : scattered = ⟨#[⟨0, none, [1], .unit none⟩, ⟨1, some 0, [2, 3], .classDecl "A" .ordinary⟩,
      ⟨2, some 1, [6], .method "m" [] none⟩, ⟨3, some 1, [4], .method "n" [] none⟩,
      ⟨4, some 3, [5], .construction (some 5)⟩, ⟨5, some 4, [], .namelessClass⟩,
      ⟨6, some 2, [7], .construction (some 7)⟩, ⟨7, some 6, [], .namelessClass⟩]⟩ := by decide +kernel
  simp [hnodes, Outline.scattered, HasOutline, HasOutlines, node?, Kind.declared]

theorem agrees_renumbered_scattered : scattered.preorder = [0, 1, 2, 6, 7, 3, 4, 5] ∧
    ∃ built f, ofOutline .scattered = .ok built ∧ scattered.Iso built f ∧ f 5 = 7 ∧ f 7 = 4 ∧
      built.ranks.rank? 7 .anonymous = some 1 ∧ built.ranks.rank? 4 .anonymous = some 0 ∧
      (Criterion.inClass "A$1" true).holds built.ranks (built.path? 7) = .ok true := by
  have horder : scattered.preorder = [0, 1, 2, 6, 7, 3, 4, 5] := by decide +kernel
  have hsecond : scattered.ranks.rank? 5 .anonymous = some 1 := by decide +kernel
  have hfirst : scattered.ranks.rank? 7 .anonymous = some 0 := by decide +kernel
  have hanswer : (Criterion.inClass "A$1" true).holds scattered.ranks (scattered.path? 5) = .ok true := by
    decide +kernel
  obtain ⟨-, -, houtlines⟩ := agrees_renumbered grown_scattered
  obtain ⟨built, f, hbuilt, hiso, ⟨hranks, hanswers⟩, hpositions⟩ :=
    houtlines .scattered hasOutline_scattered
  have hsize : built.size = 8 := by
    have hlength := congrArg List.length hpositions
    rwa [List.length_map, horder, List.length_range, eq_comm] at hlength
  have hlist : [f 0, f 1, f 2, f 6, f 7, f 3, f 4, f 5] = [0, 1, 2, 3, 4, 5, 6, 7] := by
    rwa [horder, hsize] at hpositions
  simp only [List.cons.injEq, and_true] at hlist
  obtain ⟨-, -, -, -, hseven, -, -, hfive⟩ := hlist
  have hlt : 5 < scattered.size ∧ 7 < scattered.size := by decide +kernel
  refine ⟨horder, built, f, hbuilt, hiso, hfive, hseven, ?_, ?_, ?_⟩
  · rw [← hfive, hranks 5 hlt.1, hsecond]
  · rw [← hseven, hranks 7 hlt.2, hfirst]
  · rw [← hfive, hanswers 5 hlt.1, hanswer]

end Tree

end Pinpoint
