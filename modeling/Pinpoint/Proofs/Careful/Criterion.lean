import Mathlib.Data.List.Basic
import Mathlib.Tactic.Common
import Pinpoint.Proofs.Careful.Tree
import Pinpoint.Proofs.Method.Signature

namespace Pinpoint

namespace Careful

/-- The characters of a text from position `first` up to `last`. -/
def slice (text : List Char) (first last : Nat) : Careful (List Char) :=
  if first ≤ last ∧ last ≤ text.length then return (text.take last).drop first
  else throw (.badSlice first last)

/-- Reads a signature by the positions of its parentheses. -/
def parse (text : String) : Careful (Except SignatureFault MethodSignature) :=
  match text.toList.idxOf? '(' with
  | none => return .error .missingOpen
  | some first =>
    match text.toList.idxOf? ')' with
    | none => return .error .missingClose
    | some last =>
      if last < first then return .error .closeBeforeOpen
      else do
        let name ← slice text.toList 0 first
        if name.isEmpty then return .error .missingName
        else
          let parameters ← slice text.toList (first + 1) last
          return .ok ⟨text, String.ofList name, String.ofList parameters⟩

/-- The criterion that is asked for. -/
def build : WrittenCriterion → Careful (Except CriterionFault Criterion)
  | .inClass className exact =>
    return if className.isEmpty then .error .noClassName else .ok (.inClass className exact)
  | .onReceiver method => do
    match ← parse method with
    | .error fault => return .error (.badSignature method fault.reason)
    | .ok signature => return .ok (.onReceiver method signature)
  | .hasSignature text => do
    match ← parse text with
    | .error fault => return .error (.badSignature text fault.reason)
    | .ok signature => return .ok (.hasSignature signature)

/-- The criteria that are asked for, up to the first that is faulty. -/
def buildAll : List WrittenCriterion → Careful (Except CriterionFault Criteria)
  | [] => return .ok []
  | written :: rest => do
    match ← build written with
    | .error fault => return .error fault
    | .ok criterion => return (← buildAll rest).map (criterion :: ·)

/-- The node at a depth of a path that is given by its ids. -/
def nodeAt (tree : Tree) (ids : List NodeId) (depth : Nat) : Careful Node :=
  match ids[depth]? with
  | none => throw (.missingDepth depth)
  | some id => node tree id

/-- The id at the end of a path. -/
def leafId (ids : List NodeId) : Careful NodeId :=
  match ids[ids.length - 1]? with
  | none => throw (.missingDepth (ids.length - 1))
  | some id => return id

/-- Whether a path leads to a method of the given signature. -/
def isMethodOf (tree : Tree) (signature : MethodSignature) (ids : List NodeId) : Careful Bool := do
  let leaf ← nodeAt tree ids (ids.length - 1)
  match leaf.kind with
  | .method name parameters _ => return signature.fits name parameters
  | _ => return false

/-- Climbs the first `depth` nodes of a path from below, to the first method. -/
def climbToMethod (tree : Tree) (signature : MethodSignature) (ids : List NodeId) :
    (depth : Nat) → (passed : Option NodeId) → Careful Bool
  | 0, _ => return false
  | depth + 1, passed => do
    let node ← nodeAt tree ids depth
    match node.kind with
    | .method _ _ receiver =>
      if passed.isSome ∧ receiver = passed ∧ depth + 1 ≤ ids.length then
        isMethodOf tree signature (ids.take (depth + 1))
      else return false
    | .variable _ _ =>
      if passed.isSome then return false else climbToMethod tree signature ids depth (some node.id)
    | _ => climbToMethod tree signature ids depth passed

/-- Whether a path leads to the place of a receiver annotation. -/
def isPlace (tree : Tree) (signature : MethodSignature) (ids : List NodeId) : Careful Bool := do
  let leaf ← nodeAt tree ids (ids.length - 1)
  match leaf.kind with
  | .method _ _ receiver => return (← isMethodOf tree signature ids) && receiver.isNone
  | _ => climbToMethod tree signature ids ids.length none

/-- The kind of the node before a depth, if there is one. -/
def kindBefore (tree : Tree) (ids : List NodeId) : (depth : Nat) → Careful (Option Kind)
  | 0 => return none
  | depth + 1 => do
    let node ← nodeAt tree ids depth
    return some node.kind

/-- Reads the nodes of a path from a depth on. -/
def walk (tree : Tree) (ranks : RankIndex) (exact : Bool) (ids : List NodeId) :
    (depth : Nat) → (inside : Bool) → (rest : List Char) → List NodeId → Careful Bool
  | _, _, rest, [] => do
    let _ ← leafId ids
    return rest.isEmpty
  | depth, inside, rest, id :: below => do
    let node ← node tree id
    let above ← kindBefore tree ids depth
    match BinaryName.readNode ranks exact above inside rest node with
    | .error overflow => throw (.rankOverflow overflow)
    | .ok (.decided answer) => return answer
    | .ok (.onward inside rest) => walk tree ranks exact ids (depth + 1) inside rest below

/-- The answer of a criterion at a path. -/
def holdsAt (tree : Tree) (ranks : RankIndex) (ids : List NodeId) : Criterion → Careful Bool
  | .inClass className exact => walk tree ranks exact ids 0 false className.toList ids
  | .onReceiver _ signature => isPlace tree signature ids
  | .hasSignature signature => isMethodOf tree signature ids

/-- The answer of a criterion about the node `leaf`, to which the path has to lead. -/
def holdsForLeaf (tree : Tree) (ranks : RankIndex) (leaf : NodeId) (criterion : Criterion) :
    Option (List NodeId) → Careful Bool
  | none => return false
  | some ids => do
    let last ← leafId ids
    if last = leaf then holdsAt tree ranks ids criterion else throw (.wrongLeaf leaf)

/-- Whether all criteria hold, asked in order up to the first that does not. -/
def allHold (tree : Tree) (ranks : RankIndex) (ids : List NodeId) : Criteria → Careful Bool
  | [] => return true
  | criterion :: rest => do
    if ← holdsAt tree ranks ids criterion then allHold tree ranks ids rest else return false

/-- Work in which only a rank can be too long. -/
def ofRanks {α : Type} : Except RankOverflow α → Careful α := Except.mapError .rankOverflow

section Signature

/-- A part that lies in a text can be cut out of it. -/
theorem slice_eq {text : List Char} {first last : Nat} (hfirst : first ≤ last) (hlast : last ≤ text.length) :
    slice text first last = .ok ((text.take last).drop first) := by
  rw [slice, if_pos ⟨hfirst, hlast⟩]
  rfl

/-- A signature's parts are where its parentheses say. -/
theorem parse_eq (text : String) : parse text = .ok (MethodSignature.parse text) := by
  rw [parse]
  by_cases hopenMem : '(' ∈ text.toList
  · obtain ⟨name, more, hopen, hname⟩ := List.eq_append_cons_of_mem hopenMem
    have hfirst : text.toList.idxOf? '(' = some name.length := by rw [hopen, Text.idxOf?_append hname]
    rw [hfirst]
    by_cases hcloseMem : ')' ∈ text.toList
    · obtain ⟨before, rest, hclose, hbefore⟩ := List.eq_append_cons_of_mem hcloseMem
      have hlast : text.toList.idxOf? ')' = some before.length := by rw [hclose, Text.idxOf?_append hbefore]
      rw [hlast, MethodSignature.parse_divided hopen hname hclose hbefore]
      dsimp only
      by_cases hlength : before.length < name.length
      · rw [if_pos hlength, if_pos hlength]
        rfl
      · obtain ⟨parameters, hbetween⟩ :=
          MethodSignature.exists_between hopen hclose (Nat.le_of_not_lt hlength)
        have hnameEnd : name.length ≤ text.toList.length := by simp [hopen]
        have hparametersStart : name.length + 1 ≤ before.length := by simp [hbetween]
        have hparametersEnd : before.length ≤ text.toList.length := by simp [hclose]
        have hnameText : text.toList.take name.length = name := by simp [hopen]
        have hbeforeText : text.toList.take before.length = before := by simp [hclose]
        rw [if_neg hlength, if_neg hlength, slice_eq (Nat.zero_le _) hnameEnd, ok_bind, hnameText,
          List.drop_zero, slice_eq hparametersStart hparametersEnd, ok_bind, hbeforeText]
        split <;> rfl
    · have hlast : text.toList.idxOf? ')' = none := by simpa [List.idxOf?_eq_none_iff] using hcloseMem
      rw [hlast, (MethodSignature.Misspells.missingClose hopenMem hcloseMem).parse_eq]
      rfl
  · have hfirst : text.toList.idxOf? '(' = none := by simpa [List.idxOf?_eq_none_iff] using hopenMem
    rw [hfirst, (MethodSignature.Misspells.missingOpen hopenMem).parse_eq]
    rfl

/-- Setting up a criterion never breaks down. -/
theorem build_eq (written : WrittenCriterion) : build written = .ok written.build := by
  cases written with
  | inClass className exact => rfl
  | onReceiver text =>
    rw [build, parse_eq, ok_bind, WrittenCriterion.build, Criterion.ofReceiver, MethodSignature.ofText]
    cases MethodSignature.parse text <;> rfl
  | hasSignature text =>
    rw [build, parse_eq, ok_bind, WrittenCriterion.build, Criterion.ofSignature, MethodSignature.ofText]
    cases MethodSignature.parse text <;> rfl

/-- Nor does setting up several. -/
theorem buildAll_eq (criteria : List WrittenCriterion) :
    buildAll criteria = .ok (WrittenCriterion.buildAll criteria) := by
  induction criteria with
  | nil => rfl
  | cons written rest ih =>
    rw [buildAll, build_eq, ok_bind, WrittenCriterion.buildAll]
    cases written.build with
    | error fault => rfl
    | ok criterion =>
      dsimp only
      rw [ih, ok_bind]
      rfl

end Signature

section Path

variable {tree : Tree} {nodes : List Node} {path : Path} {signature : MethodSignature} {ranks : RankIndex}

/-- Nodes that the tree has under their ids. -/
def Known (tree : Tree) (nodes : List Node) : Prop := ∀ node ∈ nodes, tree.node? node.id = some node

/-- The nodes of a path are found by their depth. -/
theorem Known.nodeAt_eq (hknown : Known tree nodes) {depth : Nat} {node : Node}
    (hnode : nodes[depth]? = some node) : nodeAt tree (nodes.map (·.id)) depth = .ok node := by
  have hid : (nodes.map (·.id))[depth]? = some node.id := by rw [List.getElem?_map, hnode, Option.map_some]
  rw [nodeAt, hid]
  exact node_eq (hknown node (List.mem_of_getElem? hnode))

theorem getElem?_leaf (path : Path) : path.nodes[path.ids.length - 1]? = some path.leaf := by
  rw [Path.ids, List.length_map, ← List.getLast?_eq_getElem?, Path.leaf,
    List.getLast?_eq_some_getLast path.nonempty]

/-- A path has a last id, since it has a node. -/
theorem leafId_path (path : Path) : leafId path.ids = .ok path.leaf.id := by
  have hlast : path.ids[path.ids.length - 1]? = some path.leaf.id := by
    rw [← Option.map_some, ← getElem?_leaf, Path.ids, List.getElem?_map]
  rw [leafId, hlast]
  rfl

/-- Asking for a method of a signature never breaks down on a path of the tree. -/
theorem isMethodOf_path (hknown : Known tree path.nodes) :
    isMethodOf tree signature path.ids = .ok (Criterion.isMethodOf signature path) := by
  have hleaf : nodeAt tree path.ids _ = .ok path.leaf := hknown.nodeAt_eq (getElem?_leaf path)
  rw [isMethodOf, hleaf, ok_bind, Criterion.isMethodOf]
  cases path.leaf.kind <;> rfl

/-- A climb by depths meets the nodes of the path from below. -/
theorem Known.climbToMethod_eq (hknown : Known tree nodes) {depth : Nat} (hdepth : depth ≤ nodes.length)
    (passed : Option NodeId) :
    climbToMethod tree signature (nodes.map (·.id)) depth passed =
      .ok (Receiver.climb signature passed (nodes.take depth).reverse) := by
  induction depth generalizing passed with
  | zero => rfl
  | succ depth ih =>
    have hnode : nodes[depth]? = some nodes[depth] := List.getElem?_eq_getElem hdepth
    have htake : nodes.take (depth + 1) = nodes.take depth ++ [nodes[depth]] :=
      (List.take_append_getElem hdepth).symm
    have hrest := ih (Nat.le_of_succ_le hdepth)
    generalize nodes[depth] = node at hnode htake
    rw [climbToMethod, hknown.nodeAt_eq hnode, ok_bind, htake, List.reverse_concat, Receiver.climb]
    cases hkind : node.kind with
    | method name parameters receiver =>
      -- the signature is asked about the path that ends at the method
      let upTo : Path := ⟨nodes.take (depth + 1), by simp [htake]⟩
      have hupTo : Known tree upTo.nodes := fun other hother => hknown other (List.mem_of_mem_take hother)
      have hfits : Criterion.isMethodOf signature upTo = signature.fits name parameters := by
        have hleaf : upTo.leaf = node := by simp only [upTo, Path.leaf, htake, List.getLast_concat]
        rw [Criterion.isMethodOf, hleaf, hkind]
      have hmethod : isMethodOf tree signature ((nodes.map (·.id)).take (depth + 1)) =
          .ok (signature.fits name parameters) := by
        rw [← List.map_take, ← hfits]
        exact isMethodOf_path hupTo
      dsimp only
      rw [hmethod, List.length_map]
      cases hpassed : passed.isSome && decide (receiver = passed) with
      | true =>
        rw [Bool.and_eq_true, decide_eq_true_eq] at hpassed
        rw [if_pos ⟨hpassed.1, hpassed.2, hdepth⟩, Bool.true_and]
      | false =>
        have hnot : ¬ (passed.isSome = true ∧ receiver = passed ∧ depth + 1 ≤ nodes.length) := by
          rintro ⟨hsome, hsame, -⟩
          simp [hsome, hsame] at hpassed
        rw [if_neg hnot, Bool.false_and]
        rfl
    | «variable» name flagged =>
      dsimp only
      split
      · rfl
      · exact hrest (some node.id)
    | _ => exact hrest passed

/-- Asking for the place of a receiver annotation never breaks down on a path of the tree. -/
theorem isPlace_path (hknown : Known tree path.nodes) :
    isPlace tree signature path.ids = .ok (Receiver.isPlace signature path) := by
  have hleaf : nodeAt tree path.ids _ = .ok path.leaf := hknown.nodeAt_eq (getElem?_leaf path)
  rw [isPlace, hleaf, ok_bind, isMethodOf_path hknown, Criterion.isMethodOf, Receiver.isPlace]
  cases path.leaf.kind with
  | method name parameters receiver => rfl
  | _ =>
    have hclimb : climbToMethod tree signature _ _ none = _ := hknown.climbToMethod_eq (Nat.le_refl _) none
    rw [List.take_length] at hclimb
    dsimp only
    rw [Path.ids, List.length_map, hclimb]

/-- The node before a depth is the last of those above. -/
theorem Known.kindBefore_eq {done : List Node} (hknown : Known tree (done ++ nodes)) :
    kindBefore tree ((done ++ nodes).map (·.id)) done.length = .ok (done.getLast?.map (·.kind)) := by
  cases done using List.reverseRecOn with
  | nil => rfl
  | append_singleton front above =>
    have habove : ((front ++ [above]) ++ nodes)[front.length]? = some above := by simp
    rw [List.length_append, List.length_singleton, kindBefore, hknown.nodeAt_eq habove, ok_bind,
      List.getLast?_concat]
    rfl

/-- Reading goes on at a depth as it does with the nodes up to there behind it. -/
theorem Known.walk_eq {exact : Bool} (hknown : Known tree path.nodes)
    (nodes : List Node) {done : List Node} (hsplit : path.nodes = done ++ nodes) (inside : Bool)
    (rest : List Char) :
    walk tree ranks exact path.ids done.length inside rest (nodes.map (·.id)) =
      ofRanks (BinaryName.walk ranks exact (done.getLast?.map (·.kind)) inside rest nodes) := by
  induction nodes generalizing done inside rest with
  | nil =>
    rw [List.map_nil, walk, leafId_path]
    rfl
  | cons node below ih =>
    have hnode : tree.node? node.id = some node := hknown node (by simp [hsplit])
    have hbefore : kindBefore tree path.ids done.length = .ok (done.getLast?.map (·.kind)) := by
      rw [hsplit] at hknown
      rw [Path.ids, hsplit]
      exact hknown.kindBefore_eq
    rw [List.map_cons, walk, node_eq hnode, ok_bind, hbefore, ok_bind, BinaryName.walk]
    cases BinaryName.readNode ranks exact (done.getLast?.map (·.kind)) inside rest node with
    | error overflow => rfl
    | ok step =>
      cases step with
      | decided answer => rfl
      | onward inside rest =>
        have hnext := ih (by rw [hsplit, List.append_cons]) inside rest
        rwa [List.length_append, List.length_singleton, List.getLast?_concat] at hnext

/-- A criterion is answered at a path of the tree as it is elsewhere, and only a rank can be too long. -/
theorem holdsAt_path (hknown : Known tree path.nodes) (criterion : Criterion) :
    holdsAt tree ranks path.ids criterion = ofRanks (criterion.holdsAt ranks path) := by
  cases criterion with
  | inClass className exact => exact hknown.walk_eq path.nodes (List.nil_append _).symm false _
  | onReceiver method signature => exact isPlace_path hknown
  | hasSignature signature => exact isMethodOf_path hknown

/-- A criterion that is asked about the leaf of a path has its answer, unless a rank is too long. -/
theorem holdsForLeaf_path (hknown : Known tree path.nodes) (criterion : Criterion) :
    holdsForLeaf tree ranks path.leaf.id criterion (some path.ids) =
      ofRanks (criterion.holds ranks (some path)) := by
  rw [holdsForLeaf, leafId_path, ok_bind, if_pos rfl]
  exact holdsAt_path hknown criterion

/-- The same of several criteria together. -/
theorem allHold_path (hknown : Known tree path.nodes) (criteria : Criteria) :
    allHold tree ranks path.ids criteria = ofRanks (criteria.allHoldAt ranks path) := by
  induction criteria with
  | nil => rfl
  | cons criterion rest ih =>
    rw [allHold, holdsAt_path hknown, Criteria.allHoldAt]
    cases criterion.holdsAt ranks path with
    | error overflow => rfl
    | ok answer =>
      cases answer with
      | false => rfl
      | true => exact ih

end Path

end Careful

end Pinpoint
