import Mathlib.Data.Set.Card
import Mathlib.Tactic.Common
import Pinpoint.Proofs.BinaryName.Grammar
import Pinpoint.Proofs.BinaryName.RankCount
import Pinpoint.Proofs.Criterion.Receiver
import Pinpoint.Proofs.Criterion.Renumbering

namespace Pinpoint

open scoped List

namespace Kind

/-- A kind to which nothing can be wired is its declaration. -/
theorem eq_iff_declared_eq {own target : Kind} (hconstruction : target.isConstruction = false)
    (hmethod : target.isMethod = false) : own = target ↔ own.declared = target.declared := by
  refine ⟨congrArg declared, ?_⟩
  intro hdeclared
  have hown : own.isConstruction = false := by
    rw [← isConstruction_declared, hdeclared, isConstruction_declared, hconstruction]
  have hown' : own.isMethod = false := by
    rw [← isMethod_declared, hdeclared, isMethod_declared, hmethod]
  apply eq_of_declared hdeclared
  · rw [body?_eq_none hown, body?_eq_none hconstruction]
  · rw [receiver?_eq_none hown', receiver?_eq_none hmethod]

/-- A child that is neither a body nor a receiver is not wired. -/
theorem wire_eq_self {own child : Kind} (hreceiver : child.isReceiver = false)
    (hbody : child.isClass = true → own.isConstruction = false) (id : NodeId) : own.wire id child = own := by
  apply eq_of_declared (declared_wire own id child)
  · rw [body?_wire, if_neg]
    rintro ⟨hown, hclass⟩
    rw [hbody hclass] at hown
    cases hown
  · rw [receiver?_wire, if_neg]
    rintro ⟨-, hchild⟩
    rw [hreceiver] at hchild
    cases hchild

end Kind

namespace Tree

/-- The classes that are numbered together with `id` in a series and declared after it. -/
def laterPeers (tree : Tree) (id : NodeId) (series : RankSeries) : Set NodeId :=
  {other | other ∈ tree.peers (tree.scope? id) series ∧ tree.Precedes id other}

variable {tree grown : Tree} {parent id other top : NodeId} {kind : Kind} {series : RankSeries}

section Links

variable (hpush : tree.push parent kind = .ok grown)

include hpush

theorem lt_or_eq_of_push (hid : id < grown.size) : id < tree.size ∨ id = tree.size := by
  rw [size_of_push hpush] at hid
  exact Nat.lt_succ_iff_lt_or_eq.mp hid

/-- The nodes that were there keep their parents. -/
theorem parent?_of_push_old (hid : id < tree.size) : grown.parent? id = tree.parent? id := by
  rw [parent?_of_push hpush, if_neg (Nat.ne_of_lt hid)]

/-- The nodes that were there keep their kinds, but for what is wired. -/
theorem declared_of_push (hid : id < tree.size) :
    (grown.kind? id).map Kind.declared = (tree.kind? id).map Kind.declared := by
  obtain ⟨old, hold⟩ := node?_isSome_iff.mpr hid
  rw [kind?, node?_of_push_old hpush hold, kind?, hold, Option.map_some, Option.map_some, Option.map_some,
    Option.map_some, Node.declared_of_adopt]

/-- A push does not change a node to which nothing can be wired. -/
theorem kind?_of_push_iff {target : Kind} (hconstruction : target.isConstruction = false)
    (hmethod : target.isMethod = false) (hid : id < tree.size) :
    grown.kind? id = some target ↔ tree.kind? id = some target := by
  obtain ⟨old, hold⟩ := node?_isSome_iff.mpr hid
  have hdeclared := declared_of_push hpush hid
  rw [kind?, node?_of_push_old hpush hold, kind?, hold] at hdeclared ⊢
  simp only [Option.map_some, Option.some.injEq] at hdeclared ⊢
  rw [Kind.eq_iff_declared_eq hconstruction hmethod, hdeclared,
    ← Kind.eq_iff_declared_eq hconstruction hmethod]

/-- A class is asked for itself. -/
theorem rankedClass_of_push_class (hid : id < tree.size)
    (hclass : (tree.kind? id).any Kind.isClass = true) (series : RankSeries) :
    tree.rankedClass id series = id ∧ grown.rankedClass id series = id := by
  obtain ⟨node, hnode⟩ := node?_isSome_iff.mpr hid
  rw [kind?, hnode, Option.map_some, Option.any_some] at hclass
  refine ⟨rankedClass_of_isClass hnode hclass series, ?_⟩
  refine rankedClass_of_isClass (node?_of_push_old hpush hnode) ?_ series
  rw [← Kind.isClass_declared, Node.declared_of_adopt, Kind.isClass_declared, hclass]

/-- A node is asked for the same class, unless it is a construction that gets its body. -/
theorem rankedClass_of_push (hid : id < tree.size) (series : RankSeries) :
    grown.rankedClass id series = tree.rankedClass id series ∨
      (grown.rankedClass id series = tree.size ∧ ¬ tree.InSeries (tree.rankedClass id series) series) := by
  cases series with
  | localClass => exact .inl rfl
  | anonymous =>
    obtain ⟨old, hold⟩ := node?_isSome_iff.mpr hid
    rw [rankedClass, kind?, node?_of_push_old hpush hold, rankedClass, kind?, hold, Option.map_some,
      Option.map_some, Option.bind_some, Option.bind_some]
    by_cases hparent : id = parent
    · subst hparent
      rw [if_pos rfl, Node.adopt, Kind.body?_wire]
      by_cases hbody : old.kind.isConstruction = true ∧ kind.isClass = true
      · obtain ⟨owner, howner, hallow, -⟩ := push_eq_ok_iff.mp hpush
        cases hold.symm.trans howner
        have hnone := (Kind.allow_eq_ok_iff.mp hallow).2.1 hbody.2 hbody.1
        rw [if_pos hbody, hnone]
        refine .inr ⟨rfl, ?_⟩
        intro hseries
        obtain ⟨node, hnode, hclass⟩ := hseries.exists_node
        cases hold.symm.trans hnode
        rw [Kind.isClass_of_isConstruction hbody.1] at hclass
        cases hclass
      · rw [if_neg hbody]
        exact .inl rfl
    · rw [if_neg hparent]
      exact .inl rfl

variable (hwf : tree.WellFormed)

include hwf

/-- What was below a node is what is below it, of the nodes that were there. -/
theorem within_of_push (hid : id < tree.size) : grown.Within id top ↔ tree.Within id top := by
  refine ⟨?_, (keeps_of_push hpush).within⟩
  intro hwithin
  induction hwithin using Relation.ReflTransGen.head_induction_on with
  | refl => exact .refl
  | @head id above habove _ ih =>
    rw [parent?_of_push_old hpush hid] at habove
    exact .head habove (ih (hwf.lt_size_of_parent? habove))

/-- The order of the nodes that were there stays as it was. -/
theorem precedes_of_push (hid : id < tree.size) (hother : other < tree.size) :
    grown.Precedes id other ↔ tree.Precedes id other := by
  have hwf' := hwf.push hpush
  constructor
  · rintro (⟨hwithin, hne⟩ | ⟨hsiblings, hleft, hright⟩)
    · exact .above ((within_of_push hpush hwf hother).mp hwithin) hne
    · rw [within_of_push hpush hwf hid] at hleft
      rw [within_of_push hpush hwf hother] at hright
      obtain ⟨hparent, hparent', hlt⟩ := hwf'.sublist_children_iff.mp hsiblings
      rw [parent?_of_push_old hpush (Nat.lt_of_le_of_lt (hwf.le_of_within hleft) hid)] at hparent
      rw [parent?_of_push_old hpush (Nat.lt_of_le_of_lt (hwf.le_of_within hright) hother)] at hparent'
      exact .aside (hwf.sublist_children_iff.mpr ⟨hparent, hparent', hlt⟩) hleft hright
  · have hkeeps := keeps_of_push hpush
    rintro (⟨hwithin, hne⟩ | ⟨hsiblings, hleft, hright⟩)
    · exact .above (hkeeps.within hwithin) hne
    · obtain ⟨hparent, hparent', hlt⟩ := hwf.sublist_children_iff.mp hsiblings
      exact .aside (hwf'.sublist_children_iff.mpr ⟨hkeeps _ _ hparent, hkeeps _ _ hparent', hlt⟩)
        (hkeeps.within hleft) (hkeeps.within hright)

/-- The classes that were there stay in their series. -/
theorem inSeries_of_push (hid : id < tree.size) : grown.InSeries id series ↔ tree.InSeries id series := by
  have hkind {name : String} {flavor : Flavor} :
      grown.kind? id = some (.classDecl name flavor) ↔ tree.kind? id = some (.classDecl name flavor) :=
    kind?_of_push_iff hpush rfl rfl hid
  have hblock {above : NodeId} (habove : tree.parent? id = some above) :
      grown.kind? above = some .block ↔ tree.kind? above = some .block :=
    kind?_of_push_iff hpush rfl rfl (hwf.lt_size_of_parent? habove)
  have hparent := parent?_of_push_old hpush hid
  constructor
  · rintro (⟨hclass, habove, habove'⟩ | ⟨hclass, habove⟩)
    · rw [hparent] at habove
      exact .localClass (hkind.mp hclass) habove ((hblock habove).mp habove')
    · refine .anonymous (hkind.mp hclass) ?_
      intro above hlink habove'
      exact habove above (hparent.trans hlink) ((hblock hlink).mpr habove')
  · rintro (⟨hclass, habove, habove'⟩ | ⟨hclass, habove⟩)
    · exact .localClass (hkind.mpr hclass) (hparent.trans habove) ((hblock habove).mpr habove')
    · refine .anonymous (hkind.mpr hclass) ?_
      intro above hlink habove'
      rw [hparent] at hlink
      exact habove above hlink ((hblock hlink).mp habove')

/-- The classes that were there keep their scopes. -/
theorem scope?_of_push (hid : id < tree.size) : grown.scope? id = tree.scope? id := by
  induction id using Nat.strongRecOn with
  | _ id ih =>
    have hparent := parent?_of_push_old hpush hid
    cases habove : tree.parent? id with
    | none => rw [hwf.eq_root hid habove, hwf.scope?_root, (hwf.push hpush).scope?_root]
    | some above =>
      have hlt := hwf.lt_of_parent? habove
      have hsize := Nat.lt_trans hlt hid
      have hclass : (grown.kind? above).any Kind.isClass = (tree.kind? above).any Kind.isClass := by
        have hdeclared := declared_of_push hpush hsize
        have hany (kind : Option Kind) : kind.any Kind.isClass = (kind.map Kind.declared).any Kind.isClass := by
          cases kind <;> simp
        rw [hany, hdeclared, ← hany]
      rw [(hwf.push hpush).scope?_of_parent (hparent.trans habove), hwf.scope?_of_parent habove, hclass,
        ih above hlt hsize]

/-- A lineage is the old one, with the parent of the new node as it is now. -/
theorem lineage_of_push (hid : id < tree.size) :
    grown.lineage id =
      (tree.lineage id).map fun node => if node.id = parent then node.adopt tree.size kind else node := by
  induction id using Nat.strongRecOn with
  | _ id ih =>
    obtain ⟨node, hnode⟩ := node?_isSome_iff.mpr hid
    have hgrown := node?_of_push_old hpush hnode
    rw [← hwf.id_eq hnode] at hgrown
    obtain ⟨rfl, hlineage⟩ | ⟨above, hlink, hlt, hlineage⟩ := hwf.lineage_cases hnode
    · rw [hwf.id_eq hnode] at hgrown
      rw [hlineage, (hwf.push hpush).lineage_root hgrown, List.map_singleton, hwf.id_eq hnode]
    · have hgrownLink :
          (if node.id = parent then node.adopt tree.size kind else node).parent = some above := by
        rw [Node.parent_of_adopt, hlink]
      rw [hwf.id_eq hnode] at hgrown hgrownLink
      rw [hlineage, (hwf.push hpush).lineage_child hgrown hgrownLink, ih above hlt (Nat.lt_trans hlt hid),
        List.map_append, List.map_singleton, hwf.id_eq hnode]

end Links

section Ranks

variable (hpush : tree.push parent kind = .ok grown) (hwf : tree.WellFormed)

include hpush hwf

/-- Of the peers declared before a class, only the new node can be new. -/
theorem mem_earlierPeers_of_push (hid : id < tree.size) :
    other ∈ grown.earlierPeers id series ↔
      other ∈ tree.earlierPeers id series ∨ (other = tree.size ∧ other ∈ grown.earlierPeers id series) := by
  have hold (hother : other < tree.size) :
      other ∈ grown.earlierPeers id series ↔ other ∈ tree.earlierPeers id series := by
    change (_ ∧ _) ∧ _ ↔ (_ ∧ _) ∧ _
    rw [inSeries_of_push hpush hwf hother, scope?_of_push hpush hwf hother, scope?_of_push hpush hwf hid,
      precedes_of_push hpush hwf hother hid]
  constructor
  · intro hmem
    obtain hother | rfl := lt_or_eq_of_push hpush hmem.1.1.lt_size
    · exact .inl ((hold hother).mp hmem)
    · exact .inr ⟨rfl, hmem⟩
  · rintro (hmem | ⟨-, hmem⟩)
    · exact (hold hmem.1.1.lt_size).mpr hmem
    · exact hmem

/-- A class that the new one is not declared before keeps its earlier peers. -/
theorem earlierPeers_of_push_stays (hid : id < tree.size)
    (hnew : tree.size ∉ grown.earlierPeers id series) :
    grown.earlierPeers id series = tree.earlierPeers id series := by
  ext other
  rw [mem_earlierPeers_of_push hpush hwf hid, or_iff_left]
  rintro ⟨rfl, hmem⟩
  exact hnew hmem

/-- A class with a new peer before it moves up by one. -/
theorem ncard_earlierPeers_of_push (hid : id < tree.size)
    (hnew : tree.size ∈ grown.earlierPeers id series) :
    (grown.earlierPeers id series).ncard = (tree.earlierPeers id series).ncard + 1 := by
  have hinsert : grown.earlierPeers id series = insert tree.size (tree.earlierPeers id series) := by
    ext other
    rw [mem_earlierPeers_of_push hpush hwf hid, Set.mem_insert_iff, or_comm]
    constructor
    · rintro (⟨rfl, -⟩ | hmem)
      · exact .inl rfl
      · exact .inr hmem
    · rintro (rfl | hmem)
      · exact .inl ⟨rfl, hnew⟩
      · exact .inr hmem
  have hfresh : tree.size ∉ tree.earlierPeers id series := fun hmem =>
    Nat.lt_irrefl _ hmem.1.1.lt_size
  have hfinite := (tree.peers_finite (tree.scope? id) series).subset fun other
    (hmem : other ∈ tree.earlierPeers id series) => hmem.1
  rw [hinsert, Set.ncard_insert_of_notMem hfresh hfinite]

theorem lt_size_of_mem_laterPeers (hlater : id ∈ grown.laterPeers tree.size series) : id < tree.size := by
  obtain hold | rfl := lt_or_eq_of_push hpush hlater.1.1.lt_size
  · exact hold
  · exact absurd hlater.2 (hlater.2.asymm (hwf.push hpush))

/-- A class that is declared after a new peer gets the next rank. -/
theorem rank?_of_push_later (hlater : id ∈ grown.laterPeers tree.size series)
    (hnew : grown.InSeries tree.size series) (hid : id < tree.size) (series' : RankSeries) :
    grown.ranks.rank? id series' = (tree.ranks.rank? id series').map (· + 1) := by
  obtain ⟨⟨hseries, hscope⟩, hprecedes⟩ := hlater
  have hold := (inSeries_of_push hpush hwf hid).mp hseries
  by_cases hsame : series' = series
  · subst hsame
    rw [(hwf.push hpush).rank?_of_inSeries hseries, hwf.rank?_of_inSeries hold, Option.map_some,
      ncard_earlierPeers_of_push hpush hwf hid ⟨⟨hnew, hscope.symm⟩, hprecedes⟩]
  · rw [(hwf.push hpush).rank?_of_inSeries_ne hseries hsame, hwf.rank?_of_inSeries_ne hold hsame,
      Option.map_none]

/-- A node that is asked for the same class keeps its rank if this class has no new peer before it. -/
theorem rank?_of_push_same (hid : id < tree.size)
    (hsame : grown.rankedClass id series = tree.rankedClass id series)
    (hnew : tree.size ∉ grown.earlierPeers (tree.rankedClass id series) series) :
    grown.ranks.rank? id series = tree.ranks.rank? id series := by
  have hlt := hwf.rankedClass_lt hid series
  ext rank
  rw [(hwf.push hpush).rank?_eq_some_iff_ncard, hsame, inSeries_of_push hpush hwf hlt,
    earlierPeers_of_push_stays hpush hwf hlt hnew, hwf.rank?_eq_some_iff_ncard]

/-- A node that is not numbered changes no rank. -/
theorem rank?_of_push_plain (hplain : ∀ series, ¬ grown.InSeries tree.size series) (hid : id < tree.size)
    (series : RankSeries) : grown.ranks.rank? id series = tree.ranks.rank? id series := by
  have hnew (id : NodeId) : tree.size ∉ grown.earlierPeers id series := fun hmem => hplain series hmem.1.1
  obtain hsame | ⟨hbody, hnot⟩ := rankedClass_of_push hpush hid series
  · exact rank?_of_push_same hpush hwf hid hsame (hnew _)
  · ext rank
    rw [(hwf.push hpush).rank?_eq_some_iff_ncard, hbody, hwf.rank?_eq_some_iff_ncard]
    simp [hplain series, hnot]

/-- A class keeps its ranks unless it is declared after a new peer. -/
theorem rank?_of_push_class (hid : id < tree.size) (hclass : (tree.kind? id).any Kind.isClass = true)
    (hnew : grown.InSeries tree.size series) (hlater : id ∉ grown.laterPeers tree.size series)
    (series' : RankSeries) : grown.ranks.rank? id series' = tree.ranks.rank? id series' := by
  obtain ⟨hasked, hasked'⟩ := rankedClass_of_push_class hpush hid hclass series'
  by_cases hseries : grown.InSeries id series'
  · refine rank?_of_push_same hpush hwf hid (hasked'.trans hasked.symm) ?_
    rw [hasked]
    rintro ⟨⟨hpeer, hscope⟩, hprecedes⟩
    cases hnew.unique hpeer
    exact hlater ⟨⟨hseries, hscope.symm⟩, hprecedes⟩
  · have hseries' := mt (inSeries_of_push hpush hwf hid).mpr hseries
    ext rank
    rw [(hwf.push hpush).rank?_eq_some_iff_ncard, hasked', hwf.rank?_eq_some_iff_ncard, hasked]
    simp [hseries, hseries']

end Ranks

end Tree

section Unchanged

variable {ranks ranks' : RankIndex} {change : Node → Node} {nodes : List Node}
  (hid : ∀ node ∈ nodes, (change node).id = node.id)
  (hkind : ∀ node ∈ nodes, (change node).kind = node.kind)

include hid hkind

/-- The walk reads no more of a node than its number and its kind. -/
theorem BinaryName.walk_map
    (hranks : ∀ node ∈ nodes, ∀ series, ranks'.rank? node.id series = ranks.rank? node.id series)
    (exact : Bool) (above : Option Kind) (inside : Bool) (rest : List Char) :
    walk ranks' exact above inside rest (nodes.map change) = walk ranks exact above inside rest nodes := by
  induction nodes generalizing above inside rest with
  | nil => rfl
  | cons node below ih =>
    rw [List.forall_mem_cons] at hid hkind hranks
    have hread : readNode ranks' exact above inside rest (change node) =
        readNode ranks exact above inside rest node := by
      simp only [readNode, hid.1, hkind.1, readAnonymous, readLocal, hranks.1]
    rw [List.map_cons, walk, walk, hread, hkind.1]
    cases readNode ranks exact above inside rest node with
    | error overflow => rfl
    | ok step =>
      cases step with
      | decided answer => rfl
      | onward inside rest => exact ih hid.2 hkind.2 hranks.2 (some node.kind) inside rest

/-- Criteria read no more of a path than the numbers and the kinds of its nodes. -/
theorem Criterion.holds_map
    (hranks : ∀ node ∈ nodes, ∀ series, ranks'.rank? node.id series = ranks.rank? node.id series)
    (criterion : Criterion) :
    criterion.holds ranks' (Path.ofNodes? (nodes.map change)) =
      criterion.holds ranks (Path.ofNodes? nodes) := by
  cases hpath : Path.ofNodes? nodes with
  | none =>
    cases nodes with
    | nil => rfl
    | cons node below => cases hpath
  | some path =>
    obtain rfl := Path.ofNodes?_eq_some_iff.mp hpath
    have hne : path.nodes.map change ≠ [] := by simpa using path.nonempty
    have hmap : Path.ofNodes? (path.nodes.map change) = some ⟨path.nodes.map change, hne⟩ :=
      Path.ofNodes?_eq_some_iff.mpr rfl
    have hleaf : (Path.mk (path.nodes.map change) hne).leaf.kind = path.leaf.kind := by
      rw [Path.leaf, List.getLast_map]
      exact hkind _ (List.getLast_mem path.nonempty)
    rw [hmap, holds, holds]
    cases criterion with
    | inClass className exact => exact BinaryName.walk_map hid hkind hranks exact none false className.toList
    | onReceiver methodName signature =>
      have hidUp : ∀ node ∈ path.nodes.reverse, (change node).id = node.id := by simpa using hid
      have hkindUp : ∀ node ∈ path.nodes.reverse, (change node).kind = node.kind := by simpa using hkind
      have hclimb : Receiver.climb signature none (path.nodes.reverse.map change) =
          Receiver.climb signature none path.nodes.reverse :=
        Receiver.climb_map (fun _ => True) hidUp (fun node hmem => .inl (hkindUp node hmem))
          (fun _ _ => trivial) (fun _ _ => trivial)
      rw [holdsAt, holdsAt, Receiver.isPlace, hleaf, Receiver.isPlace, ← List.map_reverse, hclimb]
    | hasSignature signature => rw [holdsAt, holdsAt, isMethodOf, hleaf, isMethodOf]

end Unchanged

namespace Tree

variable {tree grown : Tree} {parent : NodeId} {kind : Kind}

/-- A node that is neither numbered nor wired to its parent changes no answer. -/
theorem holds_of_push_plain (hpush : tree.push parent kind = .ok grown) (hwf : tree.WellFormed)
    (hplain : ∀ series, ¬ grown.InSeries tree.size series) (hreceiver : kind.isReceiver = false)
    (hbody : kind.isClass = true → (tree.kind? parent).any Kind.isConstruction = false) {id : NodeId}
    (hid : id < tree.size) (criterion : Criterion) :
    criterion.holds grown.ranks (grown.path? id) = criterion.holds tree.ranks (tree.path? id) := by
  have hknown := (hwf.linked_lineage id).known
  rw [path?, lineage_of_push hpush hwf hid, path?]
  apply Criterion.holds_map
  · intro node _
    exact Node.id_of_adopt node _ _ _
  · intro node hmem
    split
    · rename_i hparent
      refine Kind.wire_eq_self hreceiver ?_ tree.size
      intro hclass
      have hnot := hbody hclass
      rwa [← hparent, kind?, hknown node hmem, Option.map_some, Option.any_some] at hnot
    · rfl
  · intro node hmem series
    exact rank?_of_push_plain hpush hwf hplain (lt_size_of_node? (hknown node hmem)) series

/-- What a push does to ranks and answers. A class that is numbered gets the number of its peers declared before
it as its rank, moves the peers declared after it up by one, and leaves the ranks of all other classes. Any other
node leaves all ranks, and unless it is a receiver parameter or the body of a construction it leaves the answers of
all criteria too. -/
theorem push_shifts_later_peers (htree : tree.Grown) (hpush : tree.push parent kind = .ok grown) :
    (∀ id other, [id, other] <+ grown.preorder ↔ other < grown.size ∧ grown.Precedes id other) ∧
    (∀ series, grown.InSeries tree.size series →
      (∀ id ∈ grown.laterPeers tree.size series, id < tree.size ∧ ∀ series',
        grown.ranks.rank? id series' = (tree.ranks.rank? id series').map (· + 1)) ∧
      (∀ id < tree.size, (tree.kind? id).any Kind.isClass = true → id ∉ grown.laterPeers tree.size series →
        ∀ series', grown.ranks.rank? id series' = tree.ranks.rank? id series') ∧
      grown.ranks.rank? tree.size series = some (grown.earlierPeers tree.size series).ncard) ∧
    ((∀ series, ¬ grown.InSeries tree.size series) →
      (∀ id < tree.size, ∀ series, grown.ranks.rank? id series = tree.ranks.rank? id series) ∧
      (kind.isReceiver = false →
        (kind.isClass = true → (tree.kind? parent).any Kind.isConstruction = false) →
        ∀ id < tree.size, ∀ criterion : Criterion,
          criterion.holds grown.ranks (grown.path? id) = criterion.holds tree.ranks (tree.path? id))) := by
  have hwf := htree.wellFormed
  refine ⟨fun _ _ => (hwf.push hpush).sublist_preorder_iff, ?_, ?_⟩
  · intro series hnew
    refine ⟨?_, ?_, (hwf.push hpush).rank?_of_inSeries hnew⟩
    · intro id hlater
      have hid := lt_size_of_mem_laterPeers hpush hwf hlater
      exact ⟨hid, rank?_of_push_later hpush hwf hlater hnew hid⟩
    · intro id hid hclass hlater
      exact rank?_of_push_class hpush hwf hid hclass hnew hlater
  · intro hplain
    refine ⟨fun id hid => rank?_of_push_plain hpush hwf hplain hid, ?_⟩
    intro hreceiver hbody id hid
    exact holds_of_push_plain hpush hwf hplain hreceiver hbody hid

theorem push_shifts_interleaved :
    (∃ grown, interleaved.push 6 (.classDecl "J" .ordinary) = .ok grown ∧ grown.InSeries 12 .localClass ∧
      5 ∈ grown.laterPeers 12 .localClass ∧ interleaved.ranks.rank? 5 .localClass = some 1 ∧
      grown.ranks.rank? 5 .localClass = some 2 ∧ grown.ranks.rank? 7 .localClass = some 0 ∧
      (grown.earlierPeers 12 .localClass).ncard = 1) ∧
    ∃ grown, interleaved.push 6 (.variable "x" false) = .ok grown ∧
      grown.ranks.rank? 5 .localClass = some 1 ∧
      (Criterion.inClass "A$1L" true).holds grown.ranks (grown.path? 8) = .ok true := by
  have hsize : interleaved.size = 12 := by decide +kernel
  constructor
  · let grown := interleaved.pushed [(6, .classDecl "J" .ordinary)]
    have hpush : interleaved.push 6 (.classDecl "J" .ordinary) = .ok grown := by decide +kernel
    obtain ⟨horder, hshift, -⟩ := push_shifts_later_peers grown_interleaved hpush
    rw [hsize] at hshift
    have hnew : grown.InSeries 12 .localClass := seriesAt?_eq_some_iff.mp (by decide +kernel)
    have hold : grown.InSeries 5 .localClass := seriesAt?_eq_some_iff.mp (by decide +kernel)
    have hscope : grown.scope? 5 = grown.scope? 12 := by decide +kernel
    have hpreorder : grown.preorder = [0, 1, 2, 6, 7, 10, 11, 12, 3, 4, 5, 8, 9] := by decide +kernel
    have hbefore : grown.Precedes 12 5 := ((horder 12 5).mp (by rw [hpreorder]; decide)).2
    have hlater : 5 ∈ grown.laterPeers 12 .localClass := ⟨⟨hold, hscope⟩, hbefore⟩
    have hfirst : 7 ∉ grown.laterPeers 12 .localClass := by
      rintro ⟨-, hprecedes⟩
      have hsublist := (horder 12 7).mpr ⟨by decide +kernel, hprecedes⟩
      rw [hpreorder] at hsublist
      revert hsublist
      decide
    obtain ⟨hup, hkeep, hown⟩ := hshift .localClass hnew
    have hranks : interleaved.ranks.rank? 5 .localClass = some 1 ∧
        interleaved.ranks.rank? 7 .localClass = some 0 ∧
        grown.ranks.rank? 12 .localClass = some 1 := by decide +kernel
    obtain ⟨hfive, hseven, htwelve⟩ := hranks
    refine ⟨grown, hpush, hnew, hlater, hfive, ?_, ?_, ?_⟩
    · rw [(hup 5 hlater).2 .localClass, hfive, Option.map_some]
    · rw [hkeep 7 (by decide) (by decide +kernel) hfirst, hseven]
    · exact Option.some.inj (hown.symm.trans htwelve)
  · let grown := interleaved.pushed [(6, .variable "x" false)]
    have hpush : interleaved.push 6 (.variable "x" false) = .ok grown := by decide +kernel
    have hplain : ∀ series, ¬ grown.InSeries 12 series := by
      intro series hseries
      rw [← seriesAt?_eq_some_iff] at hseries
      revert series
      decide +kernel
    obtain ⟨-, -, hrest⟩ := push_shifts_later_peers grown_interleaved hpush
    rw [hsize] at hrest
    obtain ⟨hranks, hanswers⟩ := hrest hplain
    refine ⟨grown, hpush, ?_, ?_⟩
    · rw [hranks 5 (by decide)]
      decide +kernel
    · rw [hanswers rfl nofun 8 (by decide)]
      decide +kernel

end Tree

end Pinpoint
