import Mathlib.Data.List.Chain
import Mathlib.Tactic.Common
import Pinpoint.Proofs.BinaryName.Grammar

namespace Pinpoint

namespace Tree

/-- The rank that a class is written with, in decimal: nothing for a class that is not numbered. -/
def rankText (tree : Tree) (node : Node) : List Char :=
  ((tree.series? node).bind (tree.ranks.rank? node.id)).elim [] (Nat.toDigits 10)

/-- The part of a class in its compiled name: its rank if it is numbered, and its name. -/
def segment? (tree : Tree) (node : Node) : Option (List Char) :=
  node.kind.className?.map fun name => tree.rankText node ++ name.toList

def segments (tree : Tree) (nodes : List Node) : List (List Char) := nodes.filterMap tree.segment?

/-- The package and a dot, or nothing outside every package. -/
def packageText (tree : Tree) : List Char :=
  ((tree.kind? 0).bind Kind.package?).elim [] fun package => package.toList ++ ['.']

/-- The compiled name of the innermost class around a node. -/
def compiledName (tree : Tree) (id : NodeId) : String :=
  String.ofList (tree.packageText ++ List.intercalate ['$'] (tree.segments (tree.lineage id)))

/-- A path whose compiled names can be read back. -/
@[mk_iff]
structure Nameable (tree : Tree) (nodes : List Node) : Prop where
  /-- A construction leads into its body, which has no name. -/
  body : nodes.IsChain fun above node => above.kind.isConstruction = true →
    above.kind.body? = some node.id ∧ node.kind.className? = some ""
  /-- The name of a class of a block shows where its rank ends and where it ends itself. -/
  localName : ∀ node ∈ nodes, tree.series? node = some .localClass →
    ∀ name ∈ node.kind.className?,
      name ≠ "" ∧ '$' ∉ name.toList ∧ name.toList.head?.any Char.isDigit = false
  oneLine : ∀ node ∈ nodes, ∀ name ∈ node.kind.className?, '\n' ∉ name.toList

instance (tree : Tree) (nodes : List Node) : Decidable (tree.Nameable nodes) :=
  decidable_of_iff _ (nameable_iff tree nodes).symm

variable {tree : Tree} {above node : Node} {nodes : List Node}

/-- The parts of a nameable path are nameable. -/
theorem Nameable.append {front : List Node} (hnameable : tree.Nameable (front ++ nodes)) :
    tree.Nameable front ∧ tree.Nameable nodes := by
  obtain ⟨hbody, hlocalName, honeLine⟩ := hnameable
  obtain ⟨hfront, hnodes, -⟩ := List.isChain_append.mp hbody
  exact ⟨⟨hfront, fun other hother => hlocalName other (List.mem_append_left nodes hother),
      fun other hother => honeLine other (List.mem_append_left nodes hother)⟩,
    ⟨hnodes, fun other hother => hlocalName other (List.mem_append_right front hother),
      fun other hother => honeLine other (List.mem_append_right front hother)⟩⟩

theorem Nameable.tail (hnameable : tree.Nameable (node :: nodes)) : tree.Nameable nodes :=
  (append (List.singleton_append ▸ hnameable)).2

/-- Nothing but its body follows a construction. -/
theorem Nameable.isConstruction_eq_false (hnameable : tree.Nameable (above :: node :: nodes))
    (hclass : node.kind.isClass = false) : above.kind.isConstruction = false := by
  rw [Bool.eq_false_iff]
  intro habove
  have hname := ((List.isChain_cons_cons.mp hnameable.body).1 habove).2
  rw [Kind.isClass_of_className? hname] at hclass
  cases hclass

/-- A class adds its rank and name in front of the segments of the classes below it. -/
theorem segments_class {name : String} (hname : node.kind.className? = some name) :
    tree.segments (node :: nodes) = (tree.rankText node ++ name.toList) :: tree.segments nodes := by
  simp [segments, segment?, hname]

/-- Other nodes add no segment. -/
theorem segments_plain (hclass : node.kind.isClass = false) :
    tree.segments (node :: nodes) = tree.segments nodes := by
  have hname : node.kind.className? = none := by
    cases hkind : node.kind with
    | classDecl name flavor => simp [hkind, Kind.isClass] at hclass
    | _ => rfl
  simp [segments, segment?, hname]

/-- A class that is numbered has the digits of its rank in its name. -/
theorem WellFormed.rankText_eq (hwf : tree.WellFormed) {series : RankSeries}
    (hnode : tree.node? node.id = some node) (hclass : node.kind.isClass = true)
    (hseries : tree.series? node = some series) :
    tree.rankText node = Nat.toDigits 10 (tree.rank node.id) := by
  have hrank := (hwf.rank?_eq_some_iff hnode hclass).mpr ⟨hseries, rfl⟩
  rw [rankText, hseries, Option.bind_some, hrank, Option.elim_some]

theorem line_not_mem_rankText : '\n' ∉ tree.rankText node := by
  rw [rankText]
  cases (tree.series? node).bind (tree.ranks.rank? node.id) with
  | none => simp
  | some rank =>
    intro hmem
    exact absurd ((Denotes.toDigits rank).decimal _ hmem) (by decide)

/-- A name of segments without a line feed has no line feed either. -/
theorem Nameable.line_not_mem (hnameable : tree.Nameable nodes) :
    '\n' ∉ List.intercalate ['$'] (tree.segments nodes) := by
  have hsegments : ∀ segment ∈ tree.segments nodes, '\n' ∉ segment := by
    intro segment hsegment
    obtain ⟨node, hnode, hsegment⟩ := List.mem_filterMap.mp hsegment
    obtain ⟨name, hname, rfl⟩ := Option.map_eq_some_iff.mp hsegment
    rw [List.mem_append, not_or]
    exact ⟨line_not_mem_rankText, hnameable.oneLine node hnode name hname⟩
  generalize tree.segments nodes = segments at hsegments
  induction segments with
  | nil => simp
  | cons segment segments ih =>
    have hfirst := hsegments segment List.mem_cons_self
    have hrest := ih fun other hother => hsegments other (List.mem_cons_of_mem segment hother)
    cases segments with
    | nil => rwa [List.intercalate_singleton]
    | cons next segments =>
      rw [List.intercalate_cons_cons, List.append_assoc, List.mem_append, not_or]
      exact ⟨hfirst, by simpa using hrest⟩

/-- After the first of joined segments stands what may end a segment. -/
theorem intercalate_cons_split (segment : List Char) (segments : List (List Char)) :
    ∃ tail, List.intercalate ['$'] (segment :: segments) = segment ++ tail ∧
      BinaryName.NameEnds tail (List.intercalate ['$'] segments) ∧
      ('\n' ∉ List.intercalate ['$'] segments → Segment.Ends tail (List.intercalate ['$'] segments)) := by
  cases segments with
  | nil => exact ⟨[], by simp, .last, fun _ => .last⟩
  | cons next segments =>
    refine ⟨'$' :: List.intercalate ['$'] (next :: segments), ?_, .separator (.inl rfl), .dollar⟩
    rw [List.intercalate_cons_cons, List.append_assoc, List.singleton_append]

/-- The segments that are left for the nodes below `above`: a construction has taken that of its body. -/
def pending (tree : Tree) (above : Kind) (nodes : List Node) : List (List Char) :=
  if above.isConstruction then (tree.segments nodes).tail else tree.segments nodes

/-- Below any node but a construction, the segments of the classes there are still to be read. -/
theorem pending_eq {kind : Kind} (hkind : kind.isConstruction = false) :
    tree.pending kind nodes = tree.segments nodes := by
  rw [pending, if_neg (by simp [hkind])]

/-- A class that is no body of a construction consumes its segment. -/
theorem WellFormed.consumes_segment (hwf : tree.WellFormed)
    (hlinked : tree.Linked (above :: node :: nodes)) (hnameable : tree.Nameable (above :: node :: nodes))
    (hclass : node.kind.isClass = true) (habove : above.kind.isConstruction = false) :
    BinaryName.Consumes tree.ranks (some above.kind) node
      (List.intercalate ['$'] (tree.segments (node :: nodes)))
      (List.intercalate ['$'] (tree.segments nodes)) := by
  obtain ⟨name, hname⟩ := Kind.className?_of_isClass hclass
  obtain ⟨flavor, hkind⟩ := Kind.className?_eq_some_iff.mp hname
  have hnode := hlinked.known node (by simp)
  have hseries := hlinked.series?_eq hname
  have hbody : (some above.kind).any Kind.isConstruction = false := habove
  have hline := hnameable.tail.tail.line_not_mem
  rw [segments_class hname]
  obtain ⟨tail, htail, hnameEnds, hends⟩ :=
    intercalate_cons_split (tree.rankText node ++ name.toList) (tree.segments nodes)
  rw [htail]
  by_cases hblock : above.kind = .block
  · rw [if_pos hblock] at hseries
    obtain ⟨hnonempty, hdollar, hhead⟩ := hnameable.localName node (by simp) hseries name hname
    rw [hwf.rankText_eq hnode hclass hseries]
    exact .localClass hkind (by rw [hblock]) (by rw [hwf.rank?_class hnode hclass, if_pos hseries])
      (Denotes.toDigits _) (by simpa using hnonempty) hdollar (List.prefix_refl _)
      (Segment.longest_of_head hhead) (hends hline)
  · rw [if_neg hblock] at hseries
    have hblock' : some above.kind ≠ some .block := by simpa using hblock
    by_cases hempty : name = ""
    · subst hempty
      rw [if_pos rfl] at hseries
      rw [hwf.rankText_eq hnode hclass hseries, String.toList_empty, List.append_nil]
      exact .anonymousClass hkind hblock' hbody (by rw [hwf.rank?_class hnode hclass, if_pos hseries])
        (Denotes.toDigits _) (hends hline)
    · rw [if_neg hempty] at hseries
      have hrank : tree.rankText node = [] := by
        rw [rankText, hseries, Option.bind_none, Option.elim_none]
      rw [hrank, List.nil_append]
      exact .memberClass hkind hempty hblock' hbody hnameEnds

/-- A construction that leads into its body consumes the segment of the body. -/
theorem WellFormed.consumes_body_segment (hwf : tree.WellFormed) {kind : Option Kind}
    (hlinked : tree.Linked (above :: node :: nodes)) (hnameable : tree.Nameable (above :: node :: nodes))
    (habove : above.kind.isConstruction = true) :
    List.intercalate ['$'] (tree.segments (node :: nodes)) ≠ [] ∧
      BinaryName.Consumes tree.ranks kind above
        (List.intercalate ['$'] (tree.segments (node :: nodes)))
        (List.intercalate ['$'] (tree.segments nodes)) := by
  obtain ⟨hbody, hname⟩ := (List.isChain_cons_cons.mp hnameable.body).1 habove
  have hnode := hlinked.known node (by simp)
  have hclass := Kind.isClass_of_className? hname
  have hconstruction : above.kind = .construction (some node.id) := by
    cases hown : above.kind with
    | construction body =>
      rw [hown, Kind.body?] at hbody
      rw [hbody]
    | _ => simp [hown, Kind.isConstruction] at habove
  have hseries : tree.series? node = some .anonymous := by
    rw [hlinked.series?_eq hname, if_neg (by simp [hconstruction]), if_pos rfl]
  have hdigits := Denotes.toDigits (tree.rank node.id)
  obtain ⟨tail, htail, -, hends⟩ :=
    intercalate_cons_split (tree.rankText node ++ "".toList) (tree.segments nodes)
  rw [segments_class hname, htail, hwf.rankText_eq hnode hclass hseries, String.toList_empty,
    List.append_nil]
  refine ⟨by simp [hdigits.nonempty], ?_⟩
  exact .constructionBody hconstruction (by rw [hwf.rank?_class hnode hclass, if_pos hseries]) hdigits
    (hends hnameable.tail.tail.line_not_mem)

/-- Each node takes what is pending for it and leaves what is pending for the nodes below it. A
construction finds something to take. -/
theorem WellFormed.consumes_pending (hwf : tree.WellFormed)
    (hlinked : tree.Linked (above :: node :: nodes)) (hnameable : tree.Nameable (above :: node :: nodes))
    (hlast : node.kind.isConstruction = true → nodes ≠ []) :
    (node.kind.isConstruction = true →
        List.intercalate ['$'] (tree.pending above.kind (node :: nodes)) ≠ []) ∧
      BinaryName.Consumes tree.ranks (some above.kind) node
        (List.intercalate ['$'] (tree.pending above.kind (node :: nodes)))
        (List.intercalate ['$'] (tree.pending node.kind nodes)) := by
  have hbody := (List.isChain_cons_cons.mp hnameable.body).1
  cases hclass : node.kind.isClass with
  | true =>
    have hconstruction := Kind.isConstruction_of_isClass hclass
    have hpending : tree.pending node.kind nodes = tree.segments nodes := pending_eq hconstruction
    rw [hpending]
    refine ⟨by simp [hconstruction], ?_⟩
    cases habove : above.kind.isConstruction with
    | false =>
      rw [pending_eq habove]
      exact hwf.consumes_segment hlinked hnameable hclass habove
    | true =>
      -- the segment of a body has been taken by its construction
      rw [pending, if_pos habove, segments_class (hbody habove).2, List.tail_cons]
      exact .body hclass habove
  | false =>
    rw [pending_eq (hnameable.isConstruction_eq_false hclass), segments_plain hclass]
    cases hconstruction : node.kind.isConstruction with
    | true =>
      cases nodes with
      | nil => exact absurd rfl (hlast hconstruction)
      | cons body nodes =>
        have hname := ((List.isChain_cons_cons.mp hnameable.tail.body).1 hconstruction).2
        have hpending : tree.pending node.kind (body :: nodes) = tree.segments nodes := by
          rw [pending, if_pos hconstruction, segments_class hname, List.tail_cons]
        rw [hpending]
        obtain ⟨hne, hconsumes⟩ :=
          hwf.consumes_body_segment hlinked.tail hnameable.tail hconstruction
        exact ⟨fun _ => hne, hconsumes⟩
    | false =>
      rw [pending_eq hconstruction]
      exact ⟨by simp, .plain (hlinked.isUnit_eq_false hwf) hclass hconstruction⟩

/-- A class has a segment that is not empty. -/
theorem WellFormed.segment_ne_nil (hwf : tree.WellFormed) (hnode : tree.node? node.id = some node)
    {segment : List Char} (hsegment : tree.segment? node = some segment) : segment ≠ [] := by
  obtain ⟨name, hname, rfl⟩ := Option.map_eq_some_iff.mp hsegment
  by_cases hempty : name = ""
  · subst hempty
    obtain ⟨flavor, hkind⟩ := Kind.className?_eq_some_iff.mp hname
    obtain ⟨series, hseries⟩ : ∃ series, tree.series? node = some series := by
      simp only [series?, hkind]
      split
      · exact ⟨_, rfl⟩
      · exact ⟨_, rfl⟩
    rw [hwf.rankText_eq hnode (Kind.isClass_of_className? hname) hseries]
    simp [Nat.toDigits_ne_nil]
  · simp [hempty]

/-- Where there is a class, there is a name. -/
theorem WellFormed.text_ne_nil (hwf : tree.WellFormed) (hlinked : tree.Linked nodes)
    (hclass : ∃ node ∈ nodes, node.kind.isClass = true) :
    List.intercalate ['$'] (tree.segments nodes) ≠ [] := by
  obtain ⟨node, hnode, hclass⟩ := hclass
  obtain ⟨name, hname⟩ := Kind.className?_of_isClass hclass
  cases hsegments : tree.segments nodes with
  | nil =>
    rw [segments, List.filterMap_eq_nil_iff] at hsegments
    have hnone := hsegments node hnode
    simp [segment?, hname] at hnone
  | cons segment segments =>
    have hmem : segment ∈ tree.segments nodes := by simp [hsegments]
    obtain ⟨first, hfirst, hsegment⟩ := List.mem_filterMap.mp hmem
    have hne := hwf.segment_ne_nil (hlinked.known first hfirst) hsegment
    obtain ⟨tail, htail, -⟩ := intercalate_cons_split segment segments
    simp [htail, hne]

/-- The nodes of a path take what is pending for them and leave what is pending for the nodes `more` that
follow. A search at any depth is not over before the last class. -/
theorem WellFormed.walk_pending (hwf : tree.WellFormed) (hids : tree.size ≤ UInt32.size) {exact : Bool}
    {more : List Node} (hlinked : tree.Linked (above :: (nodes ++ more)))
    (hnameable : tree.Nameable (above :: (nodes ++ more)))
    (hlast : ∀ last ∈ nodes.getLast?, last.kind.isConstruction = true → more ≠ [])
    (hopen : exact = true ∨ ∃ node ∈ more, node.kind.isClass = true) (below : List Node) :
    BinaryName.walk tree.ranks exact (some above.kind) false
        (List.intercalate ['$'] (tree.pending above.kind (nodes ++ more))) (nodes ++ below) =
      BinaryName.walk tree.ranks exact (some (nodes.getLast?.getD above).kind) false
        (List.intercalate ['$'] (tree.pending (nodes.getLast?.getD above).kind more)) below := by
  -- What is pending is carried, not the segments of the nodes: a construction reads ahead for its body.
  induction nodes generalizing above with
  | nil => rfl
  | cons node nodes ih =>
    rw [List.cons_append] at hlinked hnameable
    have hsuits := hwf.suits hids hlinked
    have hfollowed : node.kind.isConstruction = true → nodes ++ more ≠ [] := by
      intro hconstruction hnil
      obtain ⟨rfl, rfl⟩ := List.append_eq_nil_iff.mp hnil
      exact hlast node rfl hconstruction rfl
    obtain ⟨hne, hconsumes⟩ := hwf.consumes_pending hlinked hnameable hfollowed
    have hmark : (node.kind.isConstruction &&
        (List.intercalate ['$'] (tree.pending above.kind (node :: (nodes ++ more)))).isEmpty) = false := by
      cases hconstruction : node.kind.isConstruction with
      | false => rfl
      | true => simpa using hne hconstruction
    have hread : BinaryName.readNode tree.ranks exact (some above.kind) false
        (List.intercalate ['$'] (tree.pending above.kind (node :: (nodes ++ more)))) node =
        .ok (.onward false (List.intercalate ['$'] (tree.pending node.kind (nodes ++ more)))) := by
      apply BinaryName.readNode_of_rest
      · rw [hconsumes.readNode_eq hsuits.fits (hsuits.body node (by simp)) (by simp), hmark,
          Bool.or_false]
      · intro hexact hclass
        obtain htrue | ⟨later, hlater, hlaterClass⟩ := hopen
        · rw [htrue] at hexact
          cases hexact
        · rw [pending_eq (Kind.isConstruction_of_isClass hclass)]
          exact hwf.text_ne_nil hlinked.tail.tail ⟨later, by simp [hlater], hlaterClass⟩
    have hlater : ∀ last ∈ nodes.getLast?, last.kind.isConstruction = true → more ≠ [] := by
      intro last hmem
      cases nodes with
      | nil => cases hmem
      | cons next nodes => exact hlast last (by simpa using hmem)
    rw [List.cons_append, List.cons_append, BinaryName.walk, hread]
    simp only [ih hlinked.tail hnameable.tail hlater, List.getLast?_cons, Option.getD_some]

/-- A compiled name starts with the package of the unit. -/
theorem WellFormed.packageText_eq (hwf : tree.WellFormed) {root : Node} (htop : tree.lineage 0 = [root]) :
    tree.packageText = root.kind.package?.elim [] fun package => package.toList ++ ['.'] := by
  obtain ⟨first, hfirst, -⟩ := hwf.root
  have hsame := (hwf.lineage_root hfirst).symm.trans htop
  rw [List.cons.injEq] at hsame
  rw [packageText, kind?, hfirst, Option.map_some, Option.bind_some, hsame.1]

/-- The root takes the package, if there is one, and nothing else. -/
theorem WellFormed.readNode_root_eq_onward_iff (hwf : tree.WellFormed) {root : Node} (hunit : root.kind.isUnit = true)
    (htop : tree.lineage 0 = [root]) {ranks : RankIndex} {exact inside inside' : Bool} {name rest : List Char} :
    BinaryName.readNode ranks exact none inside name root = .ok (.onward inside' rest) ↔
      inside' = inside ∧ name = tree.packageText ++ rest := by
  rw [BinaryName.readNode_unit hunit, Except.ok.injEq, BinaryName.readUnit_eq_onward_iff, hwf.packageText_eq htop]
  cases root.kind.package? with
  | none => simp [eq_comm]
  | some package => simp

/-- The nodes down to a node on a path take their part of the compiled name of the path's end. -/
theorem WellFormed.walk_compiledName_upTo (hwf : tree.WellFormed) (hids : tree.size ≤ UInt32.size)
    {exact : Bool} {id : NodeId} {front more : List Node}
    (hlineage : tree.lineage id = front ++ node :: more) (hnameable : tree.Nameable (tree.lineage id))
    (hlast : node.kind.isConstruction = true → more ≠ [])
    (hopen : exact = true ∨ ∃ node ∈ more, node.kind.isClass = true) (below : List Node) :
    BinaryName.walk tree.ranks exact none false (tree.compiledName id).toList (front ++ node :: below) =
      BinaryName.walk tree.ranks exact (some node.kind) false
        (List.intercalate ['$'] (tree.pending node.kind more)) below := by
  have hid : id < tree.size := lt_size_of_mem_lineage (hlineage ▸ List.mem_append_right front List.mem_cons_self)
  obtain ⟨root, rest, hroot, htop, hunit⟩ := hwf.exists_lineage_eq_cons hid
  have hread : BinaryName.readNode tree.ranks exact none false (tree.compiledName id).toList root =
      .ok (.onward false (List.intercalate ['$'] (tree.pending root.kind rest))) := by
    rw [hwf.readNode_root_eq_onward_iff hunit htop, pending_eq (Kind.isConstruction_of_isUnit hunit), compiledName,
      String.toList_ofList, hroot, segments_plain (Kind.isClass_of_isUnit hunit)]
    exact ⟨rfl, rfl⟩
  have hlinked := hwf.linked_lineage id
  -- the nodes down to `node` start with the root, which has taken the package; the rest is `walk_pending`
  obtain ⟨nodes, hnodes⟩ : ∃ nodes, front ++ [node] = root :: nodes := by
    rw [hroot] at hlineage
    cases front with
    | nil => exact ⟨[], by rw [(List.cons.inj hlineage).1]; rfl⟩
    | cons first front => exact ⟨front ++ [node], by rw [(List.cons.inj hlineage).1]; rfl⟩
  have hrest : rest = nodes ++ more := by
    have hsplit : root :: rest = root :: nodes ++ more := by
      rw [← hroot, hlineage, ← hnodes, List.append_assoc, List.singleton_append]
    exact (List.cons.inj hsplit).2
  have hend : nodes.getLast?.getD root = node := by
    have hends := congrArg List.getLast? hnodes
    rw [List.getLast?_cons, List.getLast?_concat, Option.some.injEq] at hends
    exact hends.symm
  rw [hroot, hrest] at hlinked hnameable
  rw [hrest] at hread
  have hwhole : front ++ node :: below = root :: (nodes ++ below) := by
    rw [← List.cons_append, ← hnodes, List.append_assoc, List.singleton_append]
  rw [hwhole, BinaryName.walk, hread]
  simp only
  rw [hwf.walk_pending hids hlinked hnameable _ hopen below, hend]
  intro last hmem
  rw [Option.mem_def.mp hmem, Option.getD_some] at hend
  rw [hend]
  exact hlast

/-- The nodes down to a node use up its compiled name. -/
theorem WellFormed.walk_compiledName (hwf : tree.WellFormed) (hids : tree.size ≤ UInt32.size)
    {id : NodeId} (hnode : tree.node? id = some node) (hnameable : tree.Nameable (tree.lineage id))
    (hconstruction : node.kind.isConstruction = false) (below : List Node) :
    BinaryName.walk tree.ranks true none false (tree.compiledName id).toList (tree.lineage id ++ below) =
      BinaryName.walk tree.ranks true (some node.kind) false [] below := by
  obtain ⟨front, hfront⟩ := hwf.exists_lineage_eq hnode
  have hwalk := hwf.walk_compiledName_upTo hids hfront hnameable (by simp [hconstruction]) (.inl rfl) below
  rw [hfront, List.append_assoc, List.singleton_append, hwalk, pending_eq hconstruction]
  rfl

/-- A node that is no class has the compiled name of its parent. -/
theorem compiledName_eq_of_lineage {id parent : NodeId} (hclass : node.kind.isClass = false)
    (hlineage : tree.lineage id = tree.lineage parent ++ [node]) :
    tree.compiledName id = tree.compiledName parent := by
  have hsegments : tree.segments (tree.lineage id) = tree.segments (tree.lineage parent) := by
    rw [hlineage, segments, List.filterMap_append]
    change tree.segments _ ++ tree.segments [node] = _
    rw [segments_plain hclass]
    exact List.append_nil _
  rw [compiledName, hsegments, compiledName]

/-- An exact search for the compiled name of a node's innermost class finds the node. -/
theorem inClass_exact_compiledName (htree : tree.Grown) (hids : tree.size ≤ UInt32.size) {id : NodeId}
    (hid : id < tree.size) (hnameable : tree.Nameable (tree.lineage id)) :
    (Criterion.inClass (tree.compiledName id) true).holds tree.ranks (tree.path? id) = .ok true := by
  have hwf := htree.wellFormed
  obtain ⟨node, hnode⟩ := node?_isSome_iff.mpr hid
  rw [hwf.holds_inClass hid]
  cases hconstruction : node.kind.isConstruction with
  | false =>
    rw [← List.append_nil (tree.lineage id), hwf.walk_compiledName hids hnode hnameable hconstruction]
    rfl
  | true =>
    have hclass := Kind.isClass_of_isConstruction hconstruction
    have hunit := Kind.isUnit_of_isConstruction hconstruction
    obtain ⟨parent, above, habove, hlineage⟩ := hwf.lineage_parent hnode hunit
    obtain ⟨front, hfront⟩ := hwf.exists_lineage_eq habove
    rw [hlineage] at hnameable
    have hparent := hnameable.append.1
    rw [hfront, List.append_assoc] at hnameable
    have hplain := hnameable.append.2.isConstruction_eq_false hclass
    rw [compiledName_eq_of_lineage hclass hlineage, hlineage,
      hwf.walk_compiledName hids habove hparent hplain, BinaryName.walk]
    cases hkind : node.kind with
    | construction body =>
      rw [BinaryName.readNode_construction hkind]
      rfl
    | _ => simp [hkind, Kind.isConstruction] at hconstruction

theorem compiledName_sample : sample.size ≤ UInt32.size ∧ sample.Nameable (sample.lineage 10) ∧
    sample.compiledName 10 = "a.b.Outer$1" ∧
    (Criterion.inClass (sample.compiledName 10) true).holds sample.ranks (sample.path? 10) = .ok true := by
  have hids : sample.size ≤ UInt32.size := by decide +kernel
  have hid : 10 < sample.size := by decide +kernel
  have hnameable : sample.Nameable (sample.lineage 10) := by decide +kernel
  exact ⟨hids, hnameable, by decide +kernel, inClass_exact_compiledName grown_sample hids hid hnameable⟩

end Tree

end Pinpoint
