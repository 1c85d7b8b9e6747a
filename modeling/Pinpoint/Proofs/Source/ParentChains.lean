import Mathlib.Data.List.Chain
import Mathlib.Data.List.Induction
import Mathlib.Tactic.Common
import Pinpoint.Proofs.Source.DeclarationOrder

namespace Pinpoint

namespace Tree

/-- Ids that start at the root and follow the links down. -/
structure FromRoot (tree : Tree) (ids : List NodeId) : Prop where
  root : ids.head? = some 0
  link : ids.IsChain fun above id => tree.parent? id = some above

/-- A place in a list of ids where it leaves the links of the tree: it does not start at the root, or goes on with
an id that is unknown or not below the id before. -/
inductive BreaksAt (tree : Tree) (ids : List NodeId) : (depth : Nat) → (id : NodeId) → Prop where
  | root {id : NodeId} (hid : ids[0]? = some id) (hne : id ≠ 0) : BreaksAt tree ids 0 id
  | unknown {depth : Nat} {id : NodeId} (hid : ids[depth + 1]? = some id) (hunknown : ¬ id < tree.size) :
      BreaksAt tree ids (depth + 1) id
  | unlinked {depth : Nat} {above id : NodeId} (habove : ids[depth]? = some above)
      (hid : ids[depth + 1]? = some id) (hparent : tree.parent? id ≠ some above) :
      BreaksAt tree ids (depth + 1) id

/-- The paths of a tree: those to a node, those through a list of ids, and their starts. -/
inductive HasPath (tree : Tree) : Path → Prop where
  | toNode {id : NodeId} {path : Path} (hpath : tree.path? id = some path) : HasPath tree path
  | through {ids : List NodeId} {path : Path} (hpath : tree.pathThrough ids = .ok path) : HasPath tree path
  | upTo {path start : Path} {count : Nat} (hpath : HasPath tree path) (hstart : path.upTo? count = some start) :
      HasPath tree start
  | toParent {path start : Path} (hpath : HasPath tree path) (hstart : path.toParent? = some start) :
      HasPath tree start

variable {tree : Tree} {id : NodeId} {ids : List NodeId} {path : Path}

theorem WellFormed.address_root (hwf : tree.WellFormed) : tree.address 0 = [0] := by
  obtain ⟨root, hroot, -⟩ := hwf.root
  rw [address, hwf.lineage_root hroot, List.map_singleton, hwf.id_eq hroot]

/-- An address ends at the node that it is the address of. -/
theorem WellFormed.getLast?_address (hwf : tree.WellFormed) (hid : id < tree.size) :
    (tree.address id).getLast? = some id := by
  obtain ⟨node, hnode⟩ := node?_isSome_iff.mpr hid
  obtain ⟨above, habove⟩ := hwf.exists_lineage_eq hnode
  rw [address, habove, List.map_append, List.map_singleton, List.getLast?_concat, hwf.id_eq hnode]

/-- Climbing gives ids that come down from the root. -/
theorem WellFormed.fromRoot_address (hwf : tree.WellFormed) (hid : id < tree.size) :
    tree.FromRoot (tree.address id) := by
  induction id using Nat.strongRecOn with
  | _ id ih =>
    obtain ⟨node, hnode⟩ := node?_isSome_iff.mpr hid
    obtain ⟨rfl, -⟩ | ⟨parent, habove, hlt, -⟩ := hwf.lineage_cases hnode
    · rw [hwf.address_root]
      exact ⟨rfl, .singleton 0⟩
    · have hparent : tree.parent? id = some parent := by rw [parent?, hnode, Option.bind_some, habove]
      have hsize := Nat.lt_trans hlt hid
      obtain ⟨hroot, hlink⟩ := ih parent hlt hsize
      rw [hwf.address_child hparent]
      refine ⟨?_, ?_⟩
      · rw [List.head?_append, hroot, Option.some_or]
      · rw [List.isChain_append]
        refine ⟨hlink, .singleton id, ?_⟩
        rw [hwf.getLast?_address hsize]
        simpa using hparent

/-- Ids that come down from the root are those that climbing from the last of them gives. -/
theorem WellFormed.fromRoot_iff (hwf : tree.WellFormed) :
    tree.FromRoot ids ↔ ∃ last < tree.size, ids.getLast? = some last ∧ tree.address last = ids := by
  constructor
  · intro hids
    induction ids using List.reverseRecOn with
    | nil => cases hids.root
    | append_singleton front last ih =>
      obtain ⟨hroot, hlink⟩ := hids
      cases front using List.reverseRecOn with
      | nil =>
        cases hroot
        exact ⟨0, hwf.size_pos, rfl, hwf.address_root⟩
      | append_singleton front above =>
        rw [List.isChain_append] at hlink
        have hparent : tree.parent? last = some above := hlink.2.2 above (by simp) last (by simp)
        obtain ⟨end', -, hend, haddress⟩ := ih ⟨by simpa using hroot, hlink.1⟩
        rw [List.getLast?_concat, Option.some.injEq] at hend
        subst hend
        refine ⟨last, Tree.lt_size_of_parent? hparent, List.getLast?_concat, ?_⟩
        rw [hwf.address_child hparent, haddress]
  · rintro ⟨last, hlast, -, rfl⟩
    exact hwf.fromRoot_address hlast

/-- Ids grow on the way down. -/
theorem WellFormed.pairwise_of_fromRoot (hwf : tree.WellFormed) (hids : tree.FromRoot ids) :
    ids.Pairwise (· < ·) := by
  rw [← List.isChain_iff_pairwise]
  exact hids.link.imp fun _ _ hparent => hwf.lt_of_parent? hparent

/-- The nodes of an address are the lineage. -/
theorem WellFormed.map_node?_address (hwf : tree.WellFormed) (id : NodeId) :
    (tree.address id).map tree.node? = (tree.lineage id).map some := by
  rw [address, List.map_map]
  apply List.map_congr_left
  intro node hnode
  exact (hwf.linked_lineage id).known node hnode

/-- An id that is below the one before adds its node. -/
theorem descend_cons_linked (depth : Nat) {above : NodeId} (hlink : tree.parent? id = some above)
    (rest : List NodeId) : ∃ node, tree.node? id = some node ∧
      tree.descend depth above (id :: rest) = (tree.descend (depth + 1) id rest).map (node :: ·) := by
  obtain ⟨node, hnode, hparent⟩ := Option.bind_eq_some_iff.mp hlink
  refine ⟨node, hnode, ?_⟩
  rw [descend, hnode]
  dsimp only
  rw [if_pos hparent]
  cases tree.descend (depth + 1) id rest <;> rfl

/-- An id that is not below the one before ends the way. -/
theorem descend_cons_unlinked {depth : Nat} {above : NodeId} (hlink : tree.parent? id ≠ some above)
    (rest : List NodeId) : tree.descend depth above (id :: rest) = .error (.brokenPath depth id) := by
  rw [descend]
  cases hnode : tree.node? id with
  | none => rfl
  | some node =>
    rw [parent?, hnode, Option.bind_some] at hlink
    dsimp only
    rw [if_neg hlink]

/-- Ids that follow the links down are a way, along their nodes. -/
theorem exists_descend_eq (depth : Nat) {above : NodeId}
    (hlink : (above :: ids).IsChain fun above id => tree.parent? id = some above) :
    ∃ nodes, tree.descend depth above ids = .ok nodes ∧ ids.map tree.node? = nodes.map some := by
  induction ids generalizing depth above with
  | nil => exact ⟨[], rfl, rfl⟩
  | cons id ids ih =>
    obtain ⟨hfirst, hrest⟩ := List.isChain_cons_cons.mp hlink
    obtain ⟨node, hnode, hstep⟩ := descend_cons_linked depth hfirst ids
    obtain ⟨nodes, hnodes, hmap⟩ := ih (depth + 1) hrest
    refine ⟨node :: nodes, ?_, ?_⟩
    · rw [hstep, hnodes, Except.map]
    · rw [List.map_cons, hnode, hmap, List.map_cons]

/-- Other ids are a way up to the first that does not follow. -/
theorem exists_descend_break (depth : Nat) {above : NodeId}
    (hlink : ¬ (above :: ids).IsChain fun above id => tree.parent? id = some above) :
    ∃ front id after, ids = front ++ id :: after ∧
      (above :: front).IsChain (fun above id => tree.parent? id = some above) ∧
      (∀ last ∈ (above :: front).getLast?, tree.parent? id ≠ some last) ∧
      tree.descend depth above ids = .error (.brokenPath (depth + front.length) id) := by
  induction ids generalizing depth above with
  | nil => exact absurd (.singleton above) hlink
  | cons id ids ih =>
    by_cases hfirst : tree.parent? id = some above
    · have hrest : ¬ (id :: ids).IsChain fun above id => tree.parent? id = some above := fun hrest =>
        hlink (List.isChain_cons_cons.mpr ⟨hfirst, hrest⟩)
      obtain ⟨node, -, hstep⟩ := descend_cons_linked depth hfirst ids
      obtain ⟨front, next, after, hsplit, hfront, hbreak, hdescend⟩ := ih (depth + 1) hrest
      refine ⟨id :: front, next, after, by rw [hsplit, List.cons_append],
        List.isChain_cons_cons.mpr ⟨hfirst, hfront⟩, by rwa [List.getLast?_cons_cons], ?_⟩
      rw [hstep, hdescend, Except.map, List.length_cons, Nat.add_right_comm, Nat.add_assoc]
    · exact ⟨[], id, ids, rfl, .singleton above, by simpa using hfirst, descend_cons_unlinked hfirst ids⟩

/-- Ids that follow parent links from the root are a path. -/
theorem WellFormed.exists_pathThrough (hwf : tree.WellFormed) (hids : tree.FromRoot ids) :
    ∃ path, tree.pathThrough ids = .ok path ∧ ids.map tree.node? = path.nodes.map some := by
  obtain ⟨root, hroot, -⟩ := hwf.root
  obtain ⟨hfirst, hlink⟩ := hids
  cases ids with
  | nil => cases hfirst
  | cons first rest =>
    cases hfirst
    obtain ⟨nodes, hdescend, hmap⟩ := exists_descend_eq 1 hlink
    refine ⟨⟨root :: nodes, List.cons_ne_nil _ _⟩, ?_, ?_⟩
    · rw [pathThrough, hroot]
      dsimp only
      rw [if_pos rfl, hdescend]
      rfl
    · rw [List.map_cons, hroot, hmap, List.map_cons]

/-- Down to where ids have come from the root, they do not break off. -/
theorem FromRoot.not_breaksAt {front : List NodeId} (hfront : tree.FromRoot front) {depth : Nat}
    (hdepth : depth < front.length) (after : List NodeId) : ¬ tree.BreaksAt (front ++ after) depth id := by
  obtain ⟨hroot, hlink⟩ := hfront
  have hat {place : Nat} (hplace : place ≤ depth) : (front ++ after)[place]? = front[place]? :=
    List.getElem?_append_left (by omega)
  intro hbreaks
  cases hbreaks with
  | root hid hne =>
    rw [hat (Nat.le_refl 0), ← List.head?_eq_getElem?, hroot] at hid
    exact hne (Option.some.inj hid).symm
  | unknown hid hunknown =>
    rw [hat (Nat.le_refl _), List.getElem?_eq_getElem hdepth, Option.some.injEq] at hid
    have hparent := hlink.getElem _ hdepth
    rw [hid] at hparent
    exact hunknown (lt_size_of_parent? hparent)
  | unlinked habove hid hparent =>
    rw [hat (Nat.le_refl _), List.getElem?_eq_getElem hdepth, Option.some.injEq] at hid
    rw [hat (Nat.le_succ _), List.getElem?_eq_getElem (Nat.lt_of_succ_lt hdepth), Option.some.injEq] at habove
    apply hparent
    rw [← hid, ← habove]
    exact hlink.getElem _ hdepth

/-- Ids that are no path are refused at the first place where they break off. -/
theorem WellFormed.exists_firstBreak (hwf : tree.WellFormed) (hne : ids ≠ []) (hids : ¬ tree.FromRoot ids) :
    ∃ depth id, tree.BreaksAt ids depth id ∧ (∀ earlier < depth, ∀ other, ¬ tree.BreaksAt ids earlier other) ∧
      tree.pathThrough ids = .error (.brokenPath depth id) := by
  obtain ⟨root, hroot, -⟩ := hwf.root
  cases ids with
  | nil => exact absurd rfl hne
  | cons first rest =>
    by_cases hfirst : first = 0
    · subst hfirst
      obtain ⟨front, id, after, rfl, hfront, hbreak, hdescend⟩ :=
        exists_descend_break 1 fun hlink => hids ⟨rfl, hlink⟩
      rw [← List.cons_append]
      refine ⟨front.length + 1, id, ?_, ?_, ?_⟩
      · obtain ⟨last, hlast⟩ : ∃ last, (0 :: front).getLast? = some last :=
          ⟨_, List.getLast?_eq_some_getLast (List.cons_ne_nil 0 front)⟩
        have habove : ((0 :: front) ++ id :: after)[front.length]? = some last := by
          rw [List.getElem?_append_left (Nat.lt_succ_self _), ← hlast, List.getLast?_eq_getElem?]
          rfl
        have hid : ((0 :: front) ++ id :: after)[front.length + 1]? = some id := by simp
        exact .unlinked habove hid (hbreak last hlast)
      · intro earlier hearlier other
        exact FromRoot.not_breaksAt ⟨rfl, hfront⟩ hearlier (id :: after)
      · rw [List.cons_append, pathThrough, hroot]
        dsimp only
        rw [if_pos rfl, hdescend, Nat.add_comm]
        rfl
    · refine ⟨0, first, .root rfl hfirst, by simp, ?_⟩
      rw [pathThrough]
      cases tree.node? first with
      | none => rfl
      | some node => exact if_neg hfirst

/-- Going down the ids of a node's lineage leads to its path. -/
theorem WellFormed.pathThrough_address (hwf : tree.WellFormed) (hid : id < tree.size) :
    ∃ path, tree.pathThrough (tree.address id) = .ok path ∧ tree.path? id = some path ∧
      path.ids = tree.address id := by
  obtain ⟨path, hpath, hmap⟩ := hwf.exists_pathThrough (hwf.fromRoot_address hid)
  rw [hwf.map_node?_address] at hmap
  have hnodes : tree.lineage id = path.nodes := List.map_injective_iff.mpr (Option.some_injective Node) hmap
  exact ⟨path, hpath, Path.ofNodes?_eq_some_iff.mpr hnodes, by rw [Path.ids, ← hnodes, address]⟩

theorem lt_size_of_path? (hpath : tree.path? id = some path) : id < tree.size := by
  by_contra hid
  rw [path?, lineage_eq_nil (node?_eq_none hid)] at hpath
  cases hpath

/-- Ids are a path just when they are those of the path to the last of them. -/
theorem WellFormed.pathThrough_eq_ok_iff (hwf : tree.WellFormed) :
    tree.pathThrough ids = .ok path ↔
      ∃ last, ids.getLast? = some last ∧ tree.path? last = some path ∧ path.ids = ids := by
  constructor
  · intro hthrough
    have hids : tree.FromRoot ids := by
      by_contra hnot
      have hne : ids ≠ [] := by
        rintro rfl
        cases hthrough
      obtain ⟨depth, id, -, -, hbroken⟩ := hwf.exists_firstBreak hne hnot
      rw [hthrough] at hbroken
      cases hbroken
    obtain ⟨last, hlast, hgetLast, rfl⟩ := hwf.fromRoot_iff.mp hids
    obtain ⟨path', hthrough', hpath, hpathIds⟩ := hwf.pathThrough_address hlast
    cases hthrough.symm.trans hthrough'
    exact ⟨last, hgetLast, hpath, hpathIds⟩
  · rintro ⟨last, -, hpath, rfl⟩
    obtain ⟨path', hthrough, hpath', hids⟩ := hwf.pathThrough_address (lt_size_of_path? hpath)
    cases hpath.symm.trans hpath'
    rw [hids, hthrough]

theorem BreaksAt.getElem? {depth : Nat} (hbreaks : tree.BreaksAt ids depth id) : ids[depth]? = some id := by
  cases hbreaks <;> assumption

/-- What is wrong with ids that are no path: there are none, or they break off, and then first at one place. -/
theorem WellFormed.pathThrough_eq_error_iff (hwf : tree.WellFormed) {fault : TreeFault} :
    tree.pathThrough ids = .error fault ↔
      (ids = [] ∧ fault = .emptyPath) ∨
        ∃ depth id, tree.BreaksAt ids depth id ∧
          (∀ earlier < depth, ∀ other, ¬ tree.BreaksAt ids earlier other) ∧ fault = .brokenPath depth id := by
  constructor
  · intro hthrough
    by_cases hne : ids = []
    · subst hne
      cases hthrough
      exact .inl ⟨rfl, rfl⟩
    · by_cases hids : tree.FromRoot ids
      · obtain ⟨path, hpath, -⟩ := hwf.exists_pathThrough hids
        rw [hthrough] at hpath
        cases hpath
      · obtain ⟨depth, id, hbreaks, hfirst, hbroken⟩ := hwf.exists_firstBreak hne hids
        cases hthrough.symm.trans hbroken
        exact .inr ⟨depth, id, hbreaks, hfirst, rfl⟩
  · rintro (⟨rfl, rfl⟩ | ⟨depth, id, hbreaks, hfirst, rfl⟩)
    · rfl
    · obtain ⟨hdepth, -⟩ := List.getElem?_eq_some_iff.mp hbreaks.getElem?
      have hids : ¬ tree.FromRoot ids := by
        intro hids
        have hnot : ¬ tree.BreaksAt (ids ++ []) depth id := hids.not_breaksAt hdepth []
        rw [List.append_nil] at hnot
        exact hnot hbreaks
      have hne : ids ≠ [] := by
        rintro rfl
        cases hdepth
      obtain ⟨depth', id', hbreaks', hfirst', hbroken⟩ := hwf.exists_firstBreak hne hids
      -- both places are the first
      have hsame : depth = depth' := by
        apply Nat.le_antisymm
        · exact Nat.le_of_not_lt fun hlt => hfirst depth' hlt id' hbreaks'
        · exact Nat.le_of_not_lt fun hlt => hfirst' depth hlt id hbreaks
      subst hsame
      rw [hbroken, Option.some.inj (hbreaks'.getElem?.symm.trans hbreaks.getElem?)]

/-- The start of a path up to one of its nodes is the path to this node. -/
theorem WellFormed.exists_upTo? (hwf : tree.WellFormed) {leaf : NodeId} (hpath : tree.path? leaf = some path)
    {depth : Nat} (hdepth : depth + 1 ≤ path.length) :
    ∃ id start, path.ids[depth]? = some id ∧ path.upTo? (depth + 1) = some start ∧ tree.path? id = some start := by
  have hnodes := Path.ofNodes?_eq_some_iff.mp hpath
  obtain ⟨node, hnode⟩ : ∃ node, path.nodes[depth]? = some node := ⟨_, List.getElem?_eq_getElem hdepth⟩
  have htake : path.nodes.take (depth + 1) = path.nodes.take depth ++ [node] := by
    rw [List.take_add_one, hnode, Option.toList_some]
  have hsplit : tree.lineage leaf = path.nodes.take depth ++ node :: path.nodes.drop (depth + 1) := by
    rw [hnodes, ← List.singleton_append, ← List.append_assoc, ← htake, List.take_append_drop]
  obtain ⟨-, hlineage⟩ := hwf.lineage_split hsplit
  refine ⟨node.id, ⟨path.nodes.take depth ++ [node], by simp⟩, ?_, ?_, ?_⟩
  · rw [Path.ids, List.getElem?_map, hnode, Option.map_some]
  · rw [Path.upTo?, if_pos hdepth, Path.ofNodes?_eq_some_iff, htake]
  · rw [path?, Path.ofNodes?_eq_some_iff, hlineage]

/-- Every path of a tree is the path to one of its nodes. -/
theorem HasPath.exists_path? (hwf : tree.WellFormed) (hpath : tree.HasPath path) :
    ∃ id, tree.path? id = some path := by
  have hupTo {path start : Path} {leaf : NodeId} {count : Nat} (hpath : tree.path? leaf = some path)
      (hstart : path.upTo? count = some start) : ∃ id, tree.path? id = some start := by
    cases count with
    | zero => cases hstart
    | succ depth =>
      have hdepth : depth + 1 ≤ path.length := by
        by_contra hnot
        rw [Path.upTo?, if_neg hnot] at hstart
        cases hstart
      obtain ⟨id, start', -, hstart', hid⟩ := hwf.exists_upTo? hpath hdepth
      cases hstart.symm.trans hstart'
      exact ⟨id, hid⟩
  induction hpath with
  | @toNode id path hpath => exact ⟨id, hpath⟩
  | through hpath =>
    obtain ⟨last, -, hlast, -⟩ := hwf.pathThrough_eq_ok_iff.mp hpath
    exact ⟨last, hlast⟩
  | upTo _ hstart ih =>
    obtain ⟨leaf, hleaf⟩ := ih
    exact hupTo hleaf hstart
  | toParent _ hstart ih =>
    obtain ⟨leaf, hleaf⟩ := ih
    exact hupTo hleaf hstart

/-- The path without its leaf is that to the parent; the root has none. -/
theorem WellFormed.toParent?_eq (hwf : tree.WellFormed) (hpath : tree.path? id = some path) :
    path.toParent? = (tree.parent? id).bind tree.path? := by
  have hnodes := Path.ofNodes?_eq_some_iff.mp hpath
  obtain ⟨node, hnode⟩ := node?_isSome_iff.mpr (lt_size_of_path? hpath)
  have hparent : tree.parent? id = node.parent := by rw [parent?, hnode, Option.bind_some]
  rw [Path.toParent?, Path.upTo?, Path.length, if_pos (Nat.sub_le _ _), ← hnodes, hparent]
  obtain ⟨rfl, hlineage⟩ | ⟨parent, hlink, -, hlineage⟩ := hwf.lineage_cases hnode
  · have hnone : node.parent = none := by
      obtain ⟨root, hroot, hnone, -⟩ := hwf.root
      cases hnode.symm.trans hroot
      exact hnone
    rw [hnone, hlineage]
    rfl
  · rw [hlink, hlineage, Option.bind_some, List.length_append, List.length_singleton, Nat.add_sub_cancel,
      List.take_left, path?]

/-- The paths of a tree are its chains of parent links. There is one to each node, which comes down from the root
with growing ids along the links. A list of ids is a path just when it is that of its last id; else it is empty, or
refused at the least depth where it leaves the links. The starts of a path are the paths to its nodes, and the
longest of them, that to the parent of its leaf. -/
theorem paths_follow_parents (htree : tree.Grown) :
    (∀ id, (∃ path, tree.path? id = some path) ↔ id < tree.size) ∧
    (∀ id path, tree.path? id = some path →
      path.ids.head? = some 0 ∧ path.ids.getLast? = some id ∧ path.ids.Pairwise (· < ·) ∧
      path.ids.IsChain (fun above id => tree.parent? id = some above) ∧
      path.ids.map tree.node? = path.nodes.map some) ∧
    (∀ ids path, tree.pathThrough ids = .ok path ↔
      ∃ last, ids.getLast? = some last ∧ tree.path? last = some path ∧ path.ids = ids) ∧
    (∀ ids fault, tree.pathThrough ids = .error fault ↔
      (ids = [] ∧ fault = .emptyPath) ∨
        ∃ depth id, tree.BreaksAt ids depth id ∧
          (∀ earlier < depth, ∀ other, ¬ tree.BreaksAt ids earlier other) ∧ fault = .brokenPath depth id) ∧
    ∀ path, tree.HasPath path →
      (∀ count, 1 ≤ count → count ≤ path.length → ∃ id start, path.ids[count - 1]? = some id ∧
        path.upTo? count = some start ∧ tree.path? id = some start) ∧
      path.toParent? = path.upTo? (path.length - 1) ∧
      path.toParent? = (tree.parent? path.leaf.id).bind tree.path? := by
  have hwf := htree.wellFormed
  refine ⟨?_, ?_, fun _ _ => hwf.pathThrough_eq_ok_iff, fun _ _ => hwf.pathThrough_eq_error_iff, ?_⟩
  · intro id
    constructor
    · rintro ⟨path, hpath⟩
      exact lt_size_of_path? hpath
    · intro hid
      obtain ⟨path, hpath, -⟩ := hwf.path?_eq hid
      exact ⟨path, hpath⟩
  · intro id path hpath
    have hid := lt_size_of_path? hpath
    have hnodes := Path.ofNodes?_eq_some_iff.mp hpath
    have hids : path.ids = tree.address id := by rw [Path.ids, ← hnodes, address]
    have hfromRoot := hwf.fromRoot_address hid
    rw [hids]
    exact ⟨hfromRoot.root, hwf.getLast?_address hid, hwf.pairwise_of_fromRoot hfromRoot, hfromRoot.link,
      by rw [hwf.map_node?_address, hnodes]⟩
  · intro path hpath
    obtain ⟨leaf, hleaf⟩ := hpath.exists_path? hwf
    obtain ⟨node, hnode⟩ := node?_isSome_iff.mpr (lt_size_of_path? hleaf)
    have hleafId : path.leaf.id = leaf := by
      rw [hwf.leaf_eq hnode (Path.ofNodes?_eq_some_iff.mp hleaf).symm, hwf.id_eq hnode]
    refine ⟨?_, rfl, by rw [hwf.toParent?_eq hleaf, hleafId]⟩
    intro count hpositive hcount
    obtain ⟨depth, rfl⟩ := Nat.exists_eq_add_of_le' hpositive
    exact hwf.exists_upTo? hleaf hcount

/-- The path to the variable of the local class leaves ids out; a list that goes on from a class with the block
of its method breaks off there, though the next id follows. -/
theorem paths_follow_sample :
    (∃ path, sample.pathThrough [0, 1, 2, 3, 11, 12] = .ok path ∧ sample.path? 12 = some path) ∧
    sample.pathThrough [0, 1, 3, 11] = .error (.brokenPath 2 3) ∧ sample.BreaksAt [0, 1, 3, 11] 2 3 ∧
    ¬ sample.BreaksAt [0, 1, 3, 11] 1 1 := by
  have hids : (sample.path? 12).map (·.ids) = some [0, 1, 2, 3, 11, 12] := by decide +kernel
  have hrefusal : (sample.pathThrough [0, 1, 3, 11]).map Path.ids = .error (.brokenPath 2 3) := by decide +kernel
  have hbroken : sample.pathThrough [0, 1, 3, 11] = .error (.brokenPath 2 3) := by
    cases hpath : sample.pathThrough [0, 1, 3, 11] with
    | ok path =>
      rw [hpath] at hrefusal
      cases hrefusal
    | error fault =>
      rw [hpath] at hrefusal
      cases hrefusal
      rfl
  obtain ⟨path, hpath, hpathIds⟩ := Option.map_eq_some_iff.mp hids
  obtain ⟨-, -, hthrough, hrefused, -⟩ := paths_follow_parents grown_sample
  obtain ⟨hnil, -⟩ | ⟨depth, id, hbreaks, hfirst, hfault⟩ := (hrefused _ _).mp hbroken
  · cases hnil
  · cases hfault
    exact ⟨⟨path, (hthrough _ _).mpr ⟨12, rfl, hpath, hpathIds⟩, hpath⟩, hbroken, hbreaks,
      hfirst 1 (by decide) 1⟩

end Tree

end Pinpoint
