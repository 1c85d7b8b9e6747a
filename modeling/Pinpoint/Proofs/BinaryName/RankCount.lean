import Mathlib.Data.Set.Card
import Mathlib.Tactic.Common
import Pinpoint.Proofs.BinaryName.Rank
import Pinpoint.Proofs.Source.Arena
import Pinpoint.Proofs.Source.DeclarationOrder

namespace Pinpoint

open scoped List

/-- A list without repetitions has as many elements as its length says. -/
theorem ncard_mem_list {α : Type} [DecidableEq α] {items : List α} (hitems : items.Nodup) :
    {item | item ∈ items}.ncard = items.length := by
  rw [← List.coe_toFinset, Set.ncard_coe_finset, List.toFinset_card_of_nodup hitems]

namespace Tree

/-- The series of a class: local directly in a block, with or without a name, and else anonymous if it has no
name. -/
inductive InSeries (tree : Tree) (id : NodeId) : RankSeries → Prop where
  | localClass {parent : NodeId} {name : String} {flavor : Flavor}
      (hkind : tree.kind? id = some (.classDecl name flavor)) (hparent : tree.parent? id = some parent)
      (hblock : tree.kind? parent = some .block) : InSeries tree id .localClass
  | anonymous {flavor : Flavor} (hkind : tree.kind? id = some (.classDecl "" flavor))
      (hblock : ∀ parent, tree.parent? id = some parent → tree.kind? parent ≠ some .block) :
      InSeries tree id .anonymous

/-- The nearest class around a node: a class above it such that all others are above that class. -/
structure Encloses (tree : Tree) (scope id : NodeId) : Prop where
  isClass : (tree.kind? scope).any Kind.isClass = true
  within : tree.Within id scope
  ne : scope ≠ id
  nearest : ∀ other, (tree.kind? other).any Kind.isClass = true → tree.Within id other → other ≠ id →
    tree.Within scope other

/-- The classes that are numbered together, in one series and around which one class, or none, is the
nearest. -/
def peers (tree : Tree) (scope : Option NodeId) (series : RankSeries) : Set NodeId :=
  {id | tree.InSeries id series ∧ tree.scope? id = scope}

/-- The classes that are numbered together with `id` in a series and declared before it. -/
def earlierPeers (tree : Tree) (id : NodeId) (series : RankSeries) : Set NodeId :=
  {other | other ∈ tree.peers (tree.scope? id) series ∧ tree.Precedes other id}

variable {tree : Tree} {id scope : NodeId} {series : RankSeries}

/-- The series that is looked up is the one that the links of the tree tell. -/
theorem seriesAt?_eq_some_iff : tree.seriesAt? id = some series ↔ tree.InSeries id series := by
  rw [seriesAt?]
  cases hnode : tree.node? id with
  | none =>
    constructor
    · intro hnone
      cases hnone
    · rintro (⟨hkind, -, -⟩ | ⟨hkind, -⟩) <;> simp [kind?, hnode] at hkind
  | some node =>
    have hkind : tree.kind? id = some node.kind := by rw [kind?, hnode, Option.map_some]
    have hparent : tree.parent? id = node.parent := by rw [parent?, hnode, Option.bind_some]
    rw [Option.bind_some, series?]
    constructor
    · intro hseries
      split at hseries
      · rename_i name flavor hclass
        rw [hclass] at hkind
        split at hseries
        · rename_i hblock
          cases hseries
          obtain ⟨parent, hlink, hblock⟩ := Option.bind_eq_some_iff.mp hblock
          exact .localClass hkind (hparent.trans hlink) hblock
        · rename_i hblock
          split at hseries
          · rename_i hname
            cases hseries
            rw [String.isEmpty_iff.mp hname] at hkind
            refine .anonymous hkind ?_
            intro parent hlink habove
            rw [← hparent, hlink] at hblock
            exact hblock habove
          · cases hseries
      · cases hseries
    · rintro (⟨hclass, hlink, hblock⟩ | ⟨hclass, hblock⟩)
      · rw [hkind, Option.some.injEq] at hclass
        simp only [hclass, ← hparent, hlink, Option.bind_some, hblock, if_true]
      · rw [hkind, Option.some.injEq] at hclass
        have hnot : node.parent.bind tree.kind? ≠ some .block := by
          intro habove
          obtain ⟨parent, hlink, habove⟩ := Option.bind_eq_some_iff.mp habove
          exact hblock parent (hparent.trans hlink) habove
        simp only [hclass, if_neg hnot]
        rfl

theorem InSeries.lt_size (hseries : tree.InSeries id series) : id < tree.size :=
  lt_size_of_seriesAt? (seriesAt?_eq_some_iff.mpr hseries)

theorem InSeries.exists_node (hseries : tree.InSeries id series) :
    ∃ node, tree.node? id = some node ∧ node.kind.isClass = true := by
  obtain ⟨hkind, -, -⟩ | ⟨hkind, -⟩ := hseries
  all_goals
    obtain ⟨node, hnode, hclass⟩ := Option.map_eq_some_iff.mp hkind
    exact ⟨node, hnode, by rw [hclass, Kind.isClass]⟩

/-- A class is in one series at most. -/
theorem InSeries.unique (hseries : tree.InSeries id series) {series' : RankSeries}
    (hseries' : tree.InSeries id series') : series = series' := by
  rw [← seriesAt?_eq_some_iff] at hseries hseries'
  exact Option.some.inj (hseries.symm.trans hseries')

theorem peers_finite (tree : Tree) (scope : Option NodeId) (series : RankSeries) :
    (tree.peers scope series).Finite :=
  (Set.finite_lt_nat tree.size).subset fun _ hid => hid.1.lt_size

/-- Only the root has no parent. -/
theorem WellFormed.eq_root (hwf : tree.WellFormed) (hid : id < tree.size) (hparent : tree.parent? id = none) :
    id = 0 := by
  obtain ⟨node, hnode⟩ := node?_isSome_iff.mpr hid
  obtain ⟨hzero, -⟩ | ⟨parent, hlink, -, -⟩ := hwf.lineage_cases hnode
  · exact hzero
  · rw [parent?, hnode, Option.bind_some, hlink] at hparent
    cases hparent

/-- No class is around the root. -/
theorem WellFormed.scope?_root (hwf : tree.WellFormed) : tree.scope? 0 = none := by
  obtain ⟨root, hroot, -⟩ := hwf.root
  rw [scope?, hwf.lineage_root hroot]
  rfl

/-- The nearest class around a node is its parent, or the nearest one around its parent. -/
theorem WellFormed.scope?_of_parent (hwf : tree.WellFormed) {parent : NodeId}
    (hparent : tree.parent? id = some parent) :
    tree.scope? id =
      if (tree.kind? parent).any Kind.isClass = true then some parent else tree.scope? parent := by
  obtain ⟨node, hnode, hlink⟩ := Option.bind_eq_some_iff.mp hparent
  obtain ⟨above, habove⟩ := hwf.exists_parent hnode hlink
  obtain ⟨front, hfront⟩ := hwf.exists_lineage_eq habove
  rw [scope?, hwf.lineage_child hnode hlink, List.dropLast_concat, scope?, hfront, List.dropLast_concat,
    List.reverse_append, List.reverse_singleton, List.singleton_append, List.find?_cons, kind?, habove,
    Option.map_some, Option.any_some]
  cases above.kind.isClass with
  | true => rw [if_pos rfl, Option.map_some, hwf.id_eq habove]
  | false => rw [if_neg (by simp)]

/-- The scope of a node is a class around it. -/
theorem WellFormed.encloses_scope? (hwf : tree.WellFormed) (hscope : tree.scope? id = some scope) :
    tree.Encloses scope id := by
  induction id using Nat.strongRecOn with
  | _ id ih =>
    cases hparent : tree.parent? id with
    | none =>
      by_cases hid : id < tree.size
      · rw [hwf.eq_root hid hparent, hwf.scope?_root] at hscope
        cases hscope
      · rw [scope?, lineage_eq_nil (node?_eq_none hid)] at hscope
        cases hscope
    | some parent =>
      have hlt := hwf.lt_of_parent? hparent
      -- Every other class around the node is one around its parent, or the parent.
      have hup {other : NodeId} (hwithin : tree.Within id other) (hne : other ≠ id) :
          tree.Within parent other := by
        obtain rfl | ⟨above, habove, hrest⟩ := hwithin.cases_head
        · exact absurd rfl hne
        · rw [hparent, Option.some.injEq] at habove
          rwa [habove]
      rw [hwf.scope?_of_parent hparent] at hscope
      split at hscope
      · rename_i hclass
        cases hscope
        exact ⟨hclass, .single hparent, Nat.ne_of_lt hlt, fun other _ hwithin hne => hup hwithin hne⟩
      · rename_i hclass
        obtain ⟨hscopeClass, hwithin, -, hnearest⟩ := ih parent hlt hscope
        refine ⟨hscopeClass, .head hparent hwithin, ?_, ?_⟩
        · exact Nat.ne_of_lt (Nat.lt_of_le_of_lt (hwf.le_of_within hwithin) hlt)
        · intro other hother hbelow hne
          refine hnearest other hother (hup hbelow hne) ?_
          rintro rfl
          exact hclass hother

/-- The scope of a node is the nearest class around it. -/
theorem WellFormed.scope?_eq_some_iff (hwf : tree.WellFormed) :
    tree.scope? id = some scope ↔ tree.Encloses scope id := by
  refine ⟨hwf.encloses_scope?, ?_⟩
  rintro ⟨hclass, hwithin, hne, hnearest⟩
  induction hwithin using Relation.ReflTransGen.head_induction_on with
  | refl => exact absurd rfl hne
  | @head id parent hparent hrest ih =>
    have hlt := hwf.lt_of_parent? hparent
    rw [hwf.scope?_of_parent hparent]
    split
    · rename_i hparentClass
      have hback := hnearest parent hparentClass (.single hparent) (Nat.ne_of_lt hlt)
      rw [Nat.le_antisymm (hwf.le_of_within hback) (hwf.le_of_within hrest)]
    · rename_i hparentClass
      apply ih
      · rintro rfl
        exact hparentClass hclass
      · intro other hother hbelow _
        refine hnearest other hother (.head hparent hbelow) ?_
        exact Nat.ne_of_lt (Nat.lt_of_le_of_lt (hwf.le_of_within hbelow) hlt)

/-- The rank of a class is the number of the classes numbered together with it that are declared before it. -/
theorem WellFormed.rank_eq_ncard (hwf : tree.WellFormed) (hseries : tree.InSeries id series) :
    tree.rank id = (tree.earlierPeers id series).ncard := by
  obtain ⟨before, after, hsplit, hbefore⟩ :=
    List.eq_append_cons_of_mem (hwf.mem_preorder.mpr hseries.lt_size)
  have hnodup := hwf.nodup_preorder
  rw [hsplit, List.nodup_append] at hnodup
  have hpeers : tree.earlierPeers id series = {other | other ∈ before.filter (tree.alike id)} := by
    ext other
    rw [Set.mem_ofPred_eq, List.mem_filter, hwf.mem_before_iff hsplit, alike, decide_eq_true_iff,
      seriesAt?_eq_some_iff.mpr hseries, seriesAt?_eq_some_iff, and_comm]
    rfl
  rw [hpeers, ncard_mem_list (hnodup.1.filter _), rank, hsplit, rankIn_split hbefore,
    List.countP_eq_length_filter]

/-- The rank that is looked up is the number of peers that are declared before. -/
theorem WellFormed.rank?_eq_some_iff_ncard (hwf : tree.WellFormed) {rank : Nat} :
    tree.ranks.rank? id series = some rank ↔ tree.InSeries (tree.rankedClass id series) series ∧
      rank = (tree.earlierPeers (tree.rankedClass id series) series).ncard := by
  rw [hwf.ranks_rank?, ← seriesAt?_eq_some_iff]
  split
  · rename_i hseries
    rw [hwf.rank_eq_ncard (seriesAt?_eq_some_iff.mp hseries), Option.some.injEq]
    simp [hseries, eq_comm]
  · rename_i hseries
    simp [hseries]

/-- A class has the rank that its earlier peers make. -/
theorem WellFormed.rank?_of_inSeries (hwf : tree.WellFormed) (hseries : tree.InSeries id series) :
    tree.ranks.rank? id series = some (tree.earlierPeers id series).ncard := by
  obtain ⟨node, hnode, hclass⟩ := hseries.exists_node
  rw [hwf.rank?_eq_some_iff_ncard, rankedClass_of_isClass hnode hclass]
  exact ⟨hseries, rfl⟩

/-- A class that is numbered in one series has no rank in the other. -/
theorem WellFormed.rank?_of_inSeries_ne (hwf : tree.WellFormed) (hseries : tree.InSeries id series)
    {series' : RankSeries} (hne : series' ≠ series) : tree.ranks.rank? id series' = none := by
  obtain ⟨node, hnode, hclass⟩ := hseries.exists_node
  rw [Option.eq_none_iff_forall_ne_some]
  intro rank hrank
  have hseries' := (hwf.rank?_eq_some_iff_ncard.mp hrank).1
  rw [rankedClass_of_isClass hnode hclass] at hseries'
  exact hne (hseries'.unique hseries)

/-- No node has a rank in both series. -/
theorem WellFormed.rank?_exclusive (hwf : tree.WellFormed) (id : NodeId) :
    tree.ranks.rank? id .localClass = none ∨ tree.ranks.rank? id .anonymous = none := by
  cases hlocal : tree.ranks.rank? id .localClass with
  | none => exact .inl rfl
  | some rank =>
    have hseries : tree.InSeries id .localClass := (hwf.rank?_eq_some_iff_ncard.mp hlocal).1
    exact .inr (hwf.rank?_of_inSeries_ne hseries (by decide))

/-- The ranks of classes that are numbered together are the numbers below their number. -/
theorem WellFormed.bijOn_rank? (hwf : tree.WellFormed) (scope : Option NodeId) (series : RankSeries) :
    Set.BijOn (fun id => tree.ranks.rank? id series) (tree.peers scope series)
      (some '' Set.Iio (tree.peers scope series).ncard) := by
  have hfinite := tree.peers_finite scope series
  have hmaps : Set.MapsTo (fun id => tree.ranks.rank? id series) (tree.peers scope series)
      (some '' Set.Iio (tree.peers scope series).ncard) := by
    rintro id ⟨hseries, rfl⟩
    refine ⟨_, ?_, (hwf.rank?_of_inSeries hseries).symm⟩
    refine Set.ncard_lt_ncard ⟨fun other hother => hother.1, ?_⟩ hfinite
    intro hall
    have hself := (hall ⟨hseries, rfl⟩).2
    exact hself.asymm hwf hself
  have hinjective : Set.InjOn (fun id => tree.ranks.rank? id series) (tree.peers scope series) := by
    rintro id ⟨hseries, hscope⟩ other ⟨hotherSeries, hotherScope⟩ hrank
    simp only [hwf.rank?_of_inSeries hseries, hwf.rank?_of_inSeries hotherSeries,
      Option.some.injEq] at hrank
    refine hwf.rank_injective hseries.lt_size hotherSeries.lt_size ?_ ?_
    · rw [alike, decide_eq_true_iff, seriesAt?_eq_some_iff.mpr hseries,
        seriesAt?_eq_some_iff.mpr hotherSeries, hscope, hotherScope]
      exact ⟨rfl, rfl⟩
    · rw [hwf.rank_eq_ncard hseries, hwf.rank_eq_ncard hotherSeries, hrank]
  refine ⟨hmaps, hinjective, ?_⟩
  -- As many ranks as classes are left for the classes, so each is given to one of them.
  have hcard : (some '' Set.Iio (tree.peers scope series).ncard : Set (Option Nat)).ncard ≤
      (tree.peers scope series).ncard := by
    have hlist : Set.Iio (tree.peers scope series).ncard =
        {rank | rank ∈ List.range (tree.peers scope series).ncard} := by
      ext rank
      simp
    rw [Set.ncard_image_of_injective _ (Option.some_injective Nat), hlist, ncard_mem_list List.nodup_range,
      List.length_range]
  intro rank hrank
  obtain ⟨id, hid, heq⟩ := Set.surj_on_of_inj_on_of_ncard_le (fun id _ => tree.ranks.rank? id series)
    (fun id hid => hmaps hid) (fun id other hid hother heq => hinjective hid hother heq) hcard
    ((Set.finite_lt_nat _).image _) rank hrank
  exact ⟨id, hid, heq.symm⟩

end Tree

namespace RankTable

variable {tree : Tree} {series : RankSeries}

/-- Taking a node adds an entry to the series that the node is in. -/
theorem count_add (table : RankTable) (counters : Counters) (id : NodeId) :
    (add tree (table, counters) id).1.count series =
      table.count series + if tree.seriesAt? id = some series then 1 else 0 := by
  rw [Tree.seriesAt?]
  cases hnode : tree.node? id with
  | none => simp [add, hnode]
  | some node =>
    cases hseries : tree.series? node with
    | none => simp [add, hnode, hseries, count, ranks_addBody]
    | some own => simp [add, hnode, hseries, count, ranks_addBody, List.countP_cons]

/-- Taking nodes in turn adds one to the count for each class of the series. -/
theorem count_foldl (order : List NodeId) (table : RankTable) (counters : Counters) :
    (order.foldl (add tree) (table, counters)).1.count series =
      table.count series + order.countP fun id => tree.seriesAt? id = some series := by
  induction order generalizing table counters with
  | nil => rfl
  | cons id order ih =>
    rw [List.foldl_cons, ih, count_add, List.countP_cons]
    simp only [decide_eq_true_eq]
    omega

end RankTable

namespace Tree

variable {tree : Tree}

/-- A table has an entry for each class of a series. -/
theorem WellFormed.count_ofTree (hwf : tree.WellFormed) (series : RankSeries) :
    (RankTable.ofTree tree).count series = {id | tree.InSeries id series}.ncard := by
  have hclasses : {id | tree.InSeries id series} =
      {id | id ∈ tree.preorder.filter fun id => tree.seriesAt? id = some series} := by
    ext id
    rw [Set.mem_ofPred_eq, Set.mem_ofPred_eq, List.mem_filter, decide_eq_true_iff, seriesAt?_eq_some_iff,
      hwf.mem_preorder]
    exact ⟨fun hseries => ⟨hseries.lt_size, hseries⟩, fun hid => hid.2⟩
  rw [RankTable.ofTree, RankTable.count_foldl, hclasses, ncard_mem_list (hwf.nodup_preorder.filter _),
    List.countP_eq_length_filter]
  exact Nat.zero_add _

/-- Ranks are what they are meant to be. The scope of a node is the nearest class around it, and the pre-order is
the order of declaration. A class has a rank just in its series, which is the number of its peers declared before
it, and a construction has that of its body. So the ranks of classes that are numbered together are the numbers
below their number, no node has a rank in both series, and each series counts its classes. -/
theorem ranks_number_declared (htree : tree.Grown) :
    (∀ id scope, tree.scope? id = some scope ↔ tree.Encloses scope id) ∧
    (∀ id other, [id, other] <+ tree.preorder ↔ other < tree.size ∧ tree.Precedes id other) ∧
    (∀ id series rank, tree.ranks.rank? id series = some rank ↔
      tree.InSeries (tree.rankedClass id series) series ∧
        rank = (tree.earlierPeers (tree.rankedClass id series) series).ncard) ∧
    (∀ scope series, Set.BijOn (fun id => tree.ranks.rank? id series) (tree.peers scope series)
      (some '' Set.Iio (tree.peers scope series).ncard)) ∧
    (∀ id, tree.ranks.rank? id .localClass = none ∨ tree.ranks.rank? id .anonymous = none) ∧
    ∀ series, (RankTable.ofTree tree).count series = {id | tree.InSeries id series}.ncard := by
  have hwf := htree.wellFormed
  exact ⟨fun _ _ => hwf.scope?_eq_some_iff, fun _ _ => hwf.sublist_preorder_iff,
    fun _ _ _ => hwf.rank?_eq_some_iff_ncard, hwf.bijOn_rank?, hwf.rank?_exclusive, hwf.count_ofTree⟩

/-- A class whose second method has joined it with its classes before those of the first. -/
def interleaved : Tree :=
  (unit none).pushed [(0, .classDecl "A" .ordinary), (1, .method "m" [] none), (1, .method "n" [] none),
    (3, .block), (4, .classDecl "L" .ordinary), (2, .block), (6, .classDecl "K" .ordinary),
    (5, .construction none), (8, .namelessClass), (6, .construction none), (10, .namelessClass)]

theorem grown_interleaved : interleaved.Grown := Grown.pushed (.unit none) _

theorem ranks_number_interleaved : interleaved.preorder = [0, 1, 2, 6, 7, 10, 11, 3, 4, 5, 8, 9] ∧
    interleaved.InSeries 5 .localClass ∧ (interleaved.earlierPeers 5 .localClass).ncard = 1 ∧
    interleaved.Precedes 7 5 ∧ interleaved.Encloses 5 9 ∧
    {id | interleaved.InSeries id .anonymous}.ncard = 2 := by
  have horder : interleaved.preorder = [0, 1, 2, 6, 7, 10, 11, 3, 4, 5, 8, 9] := by decide +kernel
  have hrank : interleaved.ranks.rank? 5 .localClass = some 1 := by decide +kernel
  have hcount : (RankTable.ofTree interleaved).count .anonymous = 2 := by decide +kernel
  obtain ⟨hscope, hpreorder, hranks, -, -, hcounts⟩ := ranks_number_declared grown_interleaved
  obtain ⟨hseries, hnumber⟩ := (hranks 5 .localClass 1).mp hrank
  have hprecedes := (hpreorder 7 5).mp (by rw [horder]; decide)
  exact ⟨horder, hseries, hnumber.symm, hprecedes.2, (hscope 9 5).mp (by decide +kernel),
    (hcounts .anonymous).symm.trans hcount⟩

end Tree

end Pinpoint
