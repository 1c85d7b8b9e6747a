import Mathlib.Data.List.Nodup
import Mathlib.Tactic.Common
import Pinpoint.BinaryName.Rank
import Pinpoint.Proofs.Source.Preorder

namespace Pinpoint

namespace Kind

/-- The simple name of a class, which is empty for an anonymous one. -/
def className? : Kind → Option String
  | .classDecl name _ => some name
  | _ => none

theorem className?_eq_some_iff {kind : Kind} {name : String} :
    kind.className? = some name ↔ ∃ flavor, kind = .classDecl name flavor := by
  cases kind <;> simp [className?, eq_comm]

theorem isClass_of_className? {kind : Kind} {name : String} (hname : kind.className? = some name) :
    kind.isClass = true := by
  obtain ⟨flavor, rfl⟩ := className?_eq_some_iff.mp hname
  rfl

theorem className?_of_isClass {kind : Kind} (hclass : kind.isClass = true) :
    ∃ name, kind.className? = some name := by
  cases kind with
  | classDecl name flavor => exact ⟨name, rfl⟩
  | _ => cases hclass

end Kind

namespace Tree

/-- The series in which the class `id` is numbered, if it is. -/
def seriesAt? (tree : Tree) (id : NodeId) : Option RankSeries := (tree.node? id).bind tree.series?

/-- Whether two classes are numbered together: in one series and one scope. -/
def alike (tree : Tree) (id other : NodeId) : Bool :=
  tree.seriesAt? other = tree.seriesAt? id ∧ tree.scope? other = tree.scope? id

/-- How many classes that are numbered together with `id` stand before it in an order. -/
def rankIn (tree : Tree) (order : List NodeId) (id : NodeId) : Nat :=
  (order.takeWhile (· ≠ id)).countP (tree.alike id)

/-- How many classes that are numbered together with `id` are declared before it. -/
def rank (tree : Tree) (id : NodeId) : Nat := tree.rankIn tree.preorder id

/-- The class whose rank is meant when that of `id` in a series is asked for. -/
def rankedClass (tree : Tree) (id : NodeId) : RankSeries → NodeId
  | .anonymous => ((tree.kind? id).bind Kind.body?).getD id
  | .localClass => id

variable {tree : Tree}

/-- In a list that holds a class once, its rank counts the classes alike before it. -/
theorem rankIn_split {id : NodeId} {before after : List NodeId} (hbefore : id ∉ before) :
    tree.rankIn (before ++ id :: after) id = before.countP (tree.alike id) := by
  have hne : ∀ other ∈ before, decide (other ≠ id) = true := by
    intro other hother
    rw [decide_eq_true_eq]
    rintro rfl
    exact hbefore hother
  rw [rankIn, List.takeWhile_append_of_pos hne, List.takeWhile_cons_of_neg (by simp), List.append_nil]

/-- What follows in an order does not change the rank of a class that is listed. -/
theorem rankIn_append {id : NodeId} {order : List NodeId} (hid : id ∈ order) (after : List NodeId) :
    tree.rankIn (order ++ after) id = tree.rankIn order id := by
  obtain ⟨front, back, rfl, hfront⟩ := List.eq_append_cons_of_mem hid
  rw [List.append_assoc, List.cons_append, rankIn_split hfront, rankIn_split hfront]

end Tree

namespace RankTable

/-- Whether `id` is a class of a series in a scope. -/
def isNumbered (tree : Tree) (scope : Option NodeId) (series : RankSeries) (id : NodeId) : Bool :=
  tree.seriesAt? id = some series ∧ tree.scope? id = scope

/-- What the table and the counters hold once the nodes `done` have been taken: the ranks of their classes,
the bodies of their constructions, and how many classes of each series each scope has so far. -/
structure Covers (tree : Tree) (done : List NodeId) (table : RankTable) (counters : Counters) :
    Prop where
  counted : ∀ scope series, counters scope series = done.countP (isNumbered tree scope series)
  ranked : ∀ id series, table.ranks.lookup (id, series) =
    if id ∈ done ∧ tree.seriesAt? id = some series then some (tree.rankIn done id) else none
  bodied : ∀ id, table.bodies.lookup id =
    if id ∈ done then (tree.kind? id).bind Kind.body? else none

variable {tree : Tree}

theorem covers_nil : Covers tree [] ⟨[], []⟩ fun _ _ => 0 := ⟨by simp, by simp, by simp⟩

/-- Classes alike are numbered together: in one series within one scope. -/
theorem alike_eq_isNumbered {id : NodeId} {series : RankSeries}
    (hseries : tree.seriesAt? id = some series) :
    tree.alike id = isNumbered tree (tree.scope? id) series := by
  funext other
  rw [Tree.alike, isNumbered, hseries]

/-- A node adds its own body, if it has one, and changes no other. -/
theorem lookup_addBody (table : RankTable) (node : Node) (id : NodeId) :
    (table.addBody node).bodies.lookup id =
      if id = node.id ∧ node.kind.body?.isSome then node.kind.body? else table.bodies.lookup id := by
  unfold addBody
  cases hbody : node.kind.body? with
  | none => simp
  | some body =>
    by_cases hid : id = node.id
    · simp [hid]
    · simp [hid, List.lookup_cons, beq_eq_false_iff_ne.mpr hid]

theorem ranks_addBody (table : RankTable) (node : Node) : (table.addBody node).ranks = table.ranks := by
  unfold addBody
  split <;> rfl

/-- Taking one more node of the tree keeps the table right. -/
theorem Covers.add (hwf : tree.WellFormed) {done : List NodeId} {table : RankTable} {counters : Counters}
    (hcovers : Covers tree done table counters) {id : NodeId} (hid : id < tree.size) (hnew : id ∉ done) :
    Covers tree (done ++ [id]) (RankTable.add tree (table, counters) id).1
      (RankTable.add tree (table, counters) id).2 := by
  obtain ⟨hcounted, hranked, hbodied⟩ := hcovers
  obtain ⟨node, hnode⟩ := Tree.node?_isSome_iff.mpr hid
  have hseries : tree.seriesAt? id = tree.series? node := by
    rw [Tree.seriesAt?, hnode, Option.bind_some]
  -- whatever the node is, the bodies and the ranks of the other nodes come out right
  have hbodies (other : NodeId) : (table.addBody node).bodies.lookup other =
      if other ∈ done ++ [id] then (tree.kind? other).bind Kind.body? else none := by
    rw [lookup_addBody, hwf.id_eq hnode, hbodied]
    by_cases hother : other = id
    · subst hother
      cases hbody : node.kind.body? <;> simp [hnew, Tree.kind?, hnode, hbody]
    · simp [hother]
  have hrank (other : NodeId) (series : RankSeries) (hother : other ≠ id) :
      table.ranks.lookup (other, series) =
        if other ∈ done ++ [id] ∧ tree.seriesAt? other = some series
        then some (tree.rankIn (done ++ [id]) other) else none := by
    rw [hranked]
    by_cases hmem : other ∈ done
    · simp [hmem, Tree.rankIn_append hmem]
    · simp [hmem, hother]
  cases hclass : tree.series? node with
  | none =>
    rw [hclass] at hseries
    have hadd : RankTable.add tree (table, counters) id = (table.addBody node, counters) := by
      simp [RankTable.add, hnode, hclass]
    rw [hadd]
    refine ⟨?_, ?_, hbodies⟩
    · intro scope series
      rw [List.countP_append, ← hcounted]
      simp [isNumbered, hseries]
    · intro other series
      rw [ranks_addBody]
      by_cases hother : other = id
      · simp [hranked, hother, hnew, hseries]
      · exact hrank other series hother
  | some series =>
    rw [hclass] at hseries
    have hadd : RankTable.add tree (table, counters) id =
        (⟨((id, series), counters (tree.scope? id) series) :: table.ranks,
          (table.addBody node).bodies⟩, counters.bump (tree.scope? id) series) := by
      simp [RankTable.add, hnode, hclass, ranks_addBody]
    rw [hadd]
    refine ⟨?_, ?_, hbodies⟩
    · intro scope other
      rw [List.countP_append, ← hcounted]
      by_cases hsame : scope = tree.scope? id ∧ other = series
      · obtain ⟨rfl, rfl⟩ := hsame
        simp [Counters.bump, isNumbered, hseries]
      · have hnot : isNumbered tree scope other id = false := by
          rw [isNumbered, decide_eq_false_iff_not, hseries]
          rintro ⟨heq, hscope⟩
          exact hsame ⟨hscope.symm, (Option.some.inj heq).symm⟩
        simp [Counters.bump, hsame, hnot]
    · intro other series'
      by_cases hother : other = id
      · subst hother
        -- the counter is what counts the classes alike, so the new rank is the one to be given
        have hfree : table.ranks.lookup (other, series') = none := by simp [hranked, hnew]
        by_cases hsame : series' = series
        · subst hsame
          simp [hseries, Tree.rankIn_split hnew, hcounted, alike_eq_isNumbered hseries]
        · have hkey : ((other, series') == (other, series)) = false := by simpa using hsame
          simp [List.lookup_cons, hkey, hfree, hseries, Ne.symm hsame]
      · have hkey : ((other, series') == (id, series)) = false := by simp [hother]
        simp only [List.lookup_cons, hkey]
        exact hrank other series' hother

/-- The pass over further nodes keeps the table right. -/
theorem Covers.foldl (hwf : tree.WellFormed) (order : List NodeId) {done : List NodeId}
    {table : RankTable} {counters : Counters} (hcovers : Covers tree done table counters)
    (horder : ∀ id ∈ order, id < tree.size) (hnodup : (done ++ order).Nodup) :
    Covers tree (done ++ order) (order.foldl (RankTable.add tree) (table, counters)).1
      (order.foldl (RankTable.add tree) (table, counters)).2 := by
  induction order generalizing done table counters with
  | nil => simpa using hcovers
  | cons id order ih =>
    have hnew : id ∉ done := fun hmem =>
      (List.nodup_append.mp hnodup).2.2 id hmem id List.mem_cons_self rfl
    have hstep := hcovers.add hwf (horder id List.mem_cons_self) hnew
    have hlater : ∀ other ∈ order, other < tree.size := fun other hother =>
      horder other (List.mem_cons_of_mem id hother)
    simpa using ih hstep hlater (by simpa using hnodup)

end RankTable

namespace Tree

variable {tree : Tree}

/-- The table of a tree ranks the classes of its whole pre-order. -/
theorem WellFormed.covers (hwf : tree.WellFormed) :
    ∃ counters, RankTable.Covers tree tree.preorder (RankTable.ofTree tree) counters := by
  have hcovers := RankTable.covers_nil.foldl hwf tree.preorder
    (fun _ hid => hwf.mem_preorder.mp hid) hwf.nodup_preorder
  exact ⟨_, hcovers⟩

theorem lt_size_of_seriesAt? {id : NodeId} {series : RankSeries}
    (hseries : tree.seriesAt? id = some series) : id < tree.size := by
  obtain ⟨node, hnode, -⟩ := Option.bind_eq_some_iff.mp hseries
  exact lt_size_of_node? hnode

/-- The index knows the ranks of just the classes of each series, and they are what the classes before them
make them. -/
theorem WellFormed.ranks_rank? (hwf : tree.WellFormed) (id : NodeId) (series : RankSeries) :
    tree.ranks.rank? id series =
      if tree.seriesAt? (tree.rankedClass id series) = some series
      then some (tree.rank (tree.rankedClass id series)) else none := by
  obtain ⟨counters, -, hranked, hbodied⟩ := hwf.covers
  have hlookup (class' : NodeId) : (RankTable.ofTree tree).ranks.lookup (class', series) =
      if tree.seriesAt? class' = some series then some (tree.rank class') else none := by
    rw [hranked, rank]
    by_cases hseries : tree.seriesAt? class' = some series
    · simp [hseries, hwf.mem_preorder.mpr (lt_size_of_seriesAt? hseries)]
    · simp [hseries]
  cases series with
  | localClass => exact hlookup id
  | anonymous =>
    have hbody : (RankTable.ofTree tree).bodies.lookup id = (tree.kind? id).bind Kind.body? := by
      rw [hbodied]
      by_cases hid : id < tree.size
      · rw [if_pos (hwf.mem_preorder.mpr hid)]
      · rw [if_neg (mt hwf.mem_preorder.mp hid), kind?, node?_eq_none hid, Option.map_none,
          Option.bind_none]
    change (RankTable.ofTree tree).rank? id .anonymous = _
    simp only [RankTable.rank?, hbody]
    exact hlookup _

/-- The series of a class is read off its name and the node before it. -/
theorem Linked.series?_eq {above node : Node} {nodes : List Node}
    (hlinked : tree.Linked (above :: node :: nodes)) {name : String}
    (hname : node.kind.className? = some name) :
    tree.series? node =
      if above.kind = .block then some .localClass else if name = "" then some .anonymous else none := by
  obtain ⟨flavor, hkind⟩ := Kind.className?_eq_some_iff.mp hname
  simp only [series?, hkind, hlinked.parent_kind, Option.some.injEq, String.isEmpty_iff]

/-- A class is asked for its own rank. -/
theorem rankedClass_of_isClass {id : NodeId} {node : Node} (hnode : tree.node? id = some node)
    (hclass : node.kind.isClass = true) (series : RankSeries) : tree.rankedClass id series = id := by
  have hbody : node.kind.body? = none := by
    cases hkind : node.kind with
    | classDecl name flavor => rfl
    | _ => simp [hkind, Kind.isClass] at hclass
  cases series with
  | localClass => rfl
  | anonymous =>
    rw [rankedClass, kind?, hnode, Option.map_some, Option.bind_some, hbody, Option.getD_none]

/-- A class has a rank in its own series and no other. -/
theorem WellFormed.rank?_class (hwf : tree.WellFormed) {id : NodeId} {node : Node}
    (hnode : tree.node? id = some node) (hclass : node.kind.isClass = true) (series : RankSeries) :
    tree.ranks.rank? id series =
      if tree.series? node = some series then some (tree.rank id) else none := by
  rw [hwf.ranks_rank?, rankedClass_of_isClass hnode hclass, seriesAt?, hnode, Option.bind_some]

/-- A class has a rank in the series it is numbered in, and in no other. -/
theorem WellFormed.rank?_eq_some_iff (hwf : tree.WellFormed) {id : NodeId} {node : Node}
    (hnode : tree.node? id = some node) (hclass : node.kind.isClass = true) {series : RankSeries}
    {rank : Nat} : tree.ranks.rank? id series = some rank ↔
      tree.series? node = some series ∧ tree.rank id = rank := by
  rw [hwf.rank?_class hnode hclass]
  split <;> simp_all

/-- A construction is asked for its body. -/
theorem WellFormed.rank?_construction (hwf : tree.WellFormed) {id body : NodeId} {node : Node}
    (hnode : tree.node? id = some node) (hbody : node.kind.body? = some body) :
    tree.ranks.rank? id .anonymous = tree.ranks.rank? body .anonymous := by
  have hconstruction : node.kind.isConstruction = true := by
    cases hkind : node.kind with
    | construction body => rfl
    | _ => simp [hkind, Kind.body?] at hbody
  obtain ⟨child, hchild, -, hclass⟩ := (hwf.body_iff hnode hconstruction body).mp hbody
  have hasked : tree.rankedClass id .anonymous = body := by
    rw [rankedClass, kind?, hnode, Option.map_some, Option.bind_some, hbody, Option.getD_some]
  rw [hwf.ranks_rank?, hwf.ranks_rank?, hasked, rankedClass_of_isClass hchild hclass]

/-- The rank of a class is below the number of nodes. -/
theorem WellFormed.rank_lt (hwf : tree.WellFormed) {id : NodeId} (hid : id < tree.size) :
    tree.rank id < tree.size := by
  obtain ⟨before, after, hsplit, hbefore⟩ := List.eq_append_cons_of_mem (hwf.mem_preorder.mpr hid)
  have hlength := hwf.length_preorder
  have hcount := List.countP_le_length (p := tree.alike id) (l := before)
  rw [hsplit, List.length_append, List.length_cons] at hlength
  rw [rank, hsplit, rankIn_split hbefore]
  omega

/-- So is every rank that can be looked up. -/
theorem WellFormed.rank?_lt (hwf : tree.WellFormed) {id : NodeId} {series : RankSeries} {rank : Nat}
    (hrank : tree.ranks.rank? id series = some rank) : rank < tree.size := by
  rw [hwf.ranks_rank?] at hrank
  split at hrank
  · rename_i hseries
    cases hrank
    exact hwf.rank_lt (lt_size_of_seriesAt? hseries)
  · cases hrank

/-- Of two classes that are numbered together, the one declared first has the smaller rank. -/
theorem WellFormed.rank_lt_rank (hwf : tree.WellFormed) {id other : NodeId}
    {before between after : List NodeId}
    (hsplit : tree.preorder = before ++ id :: between ++ other :: after)
    (halike : tree.alike id other = true) :
    tree.rank id < tree.rank other := by
  have hnodup := hwf.nodup_preorder
  rw [hsplit] at hnodup
  have hother : other ∉ before ++ id :: between := fun hmem =>
    (List.nodup_append.mp hnodup).2.2 other hmem other List.mem_cons_self rfl
  have hid : id ∉ before := fun hmem =>
    (List.nodup_append.mp (List.nodup_append.mp hnodup).1).2.2 id hmem id List.mem_cons_self rfl
  have hsame : tree.alike other = tree.alike id := by
    obtain ⟨hseries, hscope⟩ := of_decide_eq_true halike
    funext class'
    rw [alike, alike, hseries, hscope]
  have hfirst : tree.rank id = before.countP (tree.alike id) := by
    rw [rank, hsplit, List.append_assoc, List.cons_append, rankIn_split hid]
  have hself : tree.alike id id = true := decide_eq_true ⟨rfl, rfl⟩
  rw [hfirst, rank, hsplit, rankIn_split hother, hsame, List.countP_append,
    List.countP_cons_of_pos hself]
  omega

/-- Classes that are numbered together differ in rank. -/
theorem WellFormed.rank_injective (hwf : tree.WellFormed) {id other : NodeId} (hid : id < tree.size)
    (hother : other < tree.size) (halike : tree.alike id other = true)
    (hrank : tree.rank id = tree.rank other) : id = other := by
  by_contra hne
  obtain ⟨before, after, hsplit⟩ := List.append_of_mem (hwf.mem_preorder.mpr hid)
  have hmem := hwf.mem_preorder.mpr hother
  rw [hsplit, List.mem_append, List.mem_cons] at hmem
  obtain hmem | rfl | hmem := hmem
  · obtain ⟨front, back, rfl⟩ := List.append_of_mem hmem
    obtain ⟨hseries, hscope⟩ := of_decide_eq_true halike
    have hlt := hwf.rank_lt_rank hsplit (decide_eq_true ⟨hseries.symm, hscope.symm⟩)
    omega
  · exact hne rfl
  · obtain ⟨front, back, rfl⟩ := List.append_of_mem hmem
    rw [← List.cons_append, ← List.append_assoc] at hsplit
    have hlt := hwf.rank_lt_rank hsplit halike
    omega

end Tree

end Pinpoint
