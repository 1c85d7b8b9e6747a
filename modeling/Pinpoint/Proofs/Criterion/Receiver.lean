import Mathlib.Data.List.Basic
import Mathlib.Tactic.Common
import Pinpoint.Criterion.Basic
import Pinpoint.Proofs.BinaryName.Grammar

namespace Pinpoint

namespace Receiver

variable {signature : MethodSignature} {passed : Option NodeId} {inner above : List Node}

/-- Nothing but methods and variables matters to the climb. -/
theorem climb_append (hquiet : ∀ node ∈ inner, node.kind.isMember = false) :
    climb signature passed (inner ++ above) = climb signature passed above := by
  induction inner with
  | nil => rfl
  | cons node inner ih =>
    have hnode := hquiet node List.mem_cons_self
    have hrest := ih fun other hother => hquiet other (List.mem_cons_of_mem node hother)
    rw [List.cons_append, climb]
    split
    · rename_i hkind
      simp [hkind, Kind.isMember, Kind.isMethod] at hnode
    · rename_i hkind
      simp [hkind, Kind.isMember, Kind.isVariable] at hnode
    · exact hrest

/-- A climb reads no more of a node than its number and its kind, and it does not notice that a method without
a receiver gets one that is not among the nodes to pass. -/
theorem climb_map {change : Node → Node} (passable : NodeId → Prop) {nodes : List Node}
    (hid : ∀ node ∈ nodes, (change node).id = node.id)
    (hkind : ∀ node ∈ nodes, (change node).kind = node.kind ∨
      ∃ name parameters receiver, node.kind = .method name parameters none ∧
        (change node).kind = .method name parameters (some receiver) ∧ ¬ passable receiver)
    (hnodes : ∀ node ∈ nodes, passable node.id) (hpassed : ∀ id ∈ passed, passable id) :
    climb signature passed (nodes.map change) = climb signature passed nodes := by
  induction nodes generalizing passed with
  | nil => rfl
  | cons node above ih =>
    rw [List.forall_mem_cons] at hid hkind hnodes
    have hrest {passed : Option NodeId} (hpassed : ∀ id ∈ passed, passable id) :=
      ih hid.2 hkind.2 hnodes.2 hpassed
    rw [List.map_cons, climb, climb]
    obtain hsame | ⟨name, parameters, receiver, hbare, hwired, hnew⟩ := hkind.1
    · rw [hsame, hid.1]
      split
      · rfl
      · rw [hrest (by simpa using hnodes.1)]
      · exact hrest hpassed
    · -- the climb ends here in both cases: the receiver, where there is one, is not what was passed
      rw [hwired, hbare]
      cases passed with
      | none => rfl
      | some id =>
        have hne : receiver ≠ id := by
          rintro rfl
          exact hnew (hpassed receiver rfl)
        simp [hne]

/-- A climb that succeeds first comes to the method, with its receiver passed, or to the variable to pass. -/
theorem of_climb {nodes : List Node} (hclimb : climb signature passed nodes = true) :
    ∃ inner stop above, nodes = inner ++ stop :: above ∧
      (∀ node ∈ inner, node.kind.isMember = false) ∧
      ((∃ name parameters receiver, stop.kind = .method name parameters (some receiver) ∧
          passed = some receiver ∧ signature.fits name parameters = true) ∨
        (stop.kind.isVariable = true ∧ passed = none ∧ climb signature (some stop.id) above = true)) := by
  induction nodes with
  | nil => cases hclimb
  | cons node nodes ih =>
    rw [climb] at hclimb
    split at hclimb
    · rename_i name parameters receiver hkind
      simp only [Bool.and_eq_true, decide_eq_true_eq] at hclimb
      obtain ⟨⟨hsome, rfl⟩, hfits⟩ := hclimb
      obtain ⟨passed, rfl⟩ := Option.isSome_iff_exists.mp hsome
      exact ⟨[], node, nodes, rfl, by simp, .inl ⟨name, parameters, passed, hkind, rfl, hfits⟩⟩
    · rename_i hkind
      split at hclimb
      · cases hclimb
      · rename_i hnone
        exact ⟨[], node, nodes, rfl, by simp, .inr ⟨by rw [hkind, Kind.isVariable], by simpa using hnone,
          hclimb⟩⟩
    · rename_i hmethod hvariable
      obtain ⟨inner, stop, above, rfl, hquiet, hstop⟩ := ih hclimb
      refine ⟨node :: inner, stop, above, rfl, ?_, hstop⟩
      intro other hother
      obtain rfl | hother := List.mem_cons.mp hother
      · cases hkind : other.kind with
        | method name parameters receiver => exact absurd hkind (hmethod name parameters receiver)
        | «variable» name flagged => exact absurd hkind (hvariable name flagged)
        | _ => rfl
      · exact hquiet other hother

end Receiver

namespace Tree

/-- A method with the name of a signature and, run together, its parameters. -/
def IsMethodOf (tree : Tree) (signature : MethodSignature) (method : NodeId) : Prop :=
  ∃ parameters receiver, tree.kind? method = some (.method signature.name parameters receiver) ∧
    String.join parameters = signature.parameters

/-- Where the receiver annotation of a method goes. -/
inductive ReceiverPlace (tree : Tree) (method : NodeId) : NodeId → Prop where
  /-- On a method that declares no receiver. -/
  | onMethod (hnone : ∀ receiver, ¬ tree.HasChild Kind.isReceiver method receiver) :
      ReceiverPlace tree method method
  /-- On the receiver parameter, or below it with no method or variable on the way. -/
  | onReceiver {receiver leaf : NodeId} {below : List Node}
      (hreceiver : tree.HasChild Kind.isReceiver method receiver)
      (hleaf : tree.lineage leaf = tree.lineage receiver ++ below)
      (hquiet : ∀ node ∈ below, node.kind.isMember = false) : ReceiverPlace tree method leaf

/-- The nearest method around a node, which may be the node itself. -/
def nearestMethod? (tree : Tree) (id : NodeId) : Option NodeId :=
  ((tree.lineage id).reverse.find? (·.kind.isMethod)).map (·.id)

variable {tree : Tree} {signature : MethodSignature} {node : Node}

/-- Whether a node is a method of the signature can be read off the node. -/
theorem isMethodOf_iff {id : NodeId} (hnode : tree.node? id = some node) :
    tree.IsMethodOf signature id ↔
      ∃ name parameters receiver, node.kind = .method name parameters receiver ∧
        signature.fits name parameters = true := by
  simp only [IsMethodOf, kind?, hnode, Option.map_some, Option.some.injEq, MethodSignature.fits,
    Bool.and_eq_true, decide_eq_true_eq]
  constructor
  · rintro ⟨parameters, receiver, hkind, hjoin⟩
    exact ⟨_, parameters, receiver, hkind, rfl, hjoin⟩
  · rintro ⟨name, parameters, receiver, hkind, rfl, hjoin⟩
    exact ⟨parameters, receiver, hkind, hjoin⟩

/-- The receiver of a method follows the method on the lineage of every node in it. -/
theorem WellFormed.lineage_receiver (hwf : tree.WellFormed) {method receiver : NodeId}
    (hreceiver : tree.HasChild Kind.isReceiver method receiver) :
    ∃ owner parameter, tree.node? method = some owner ∧ owner.kind.receiver? = some receiver ∧
      parameter.kind.isReceiver = true ∧ parameter.id = receiver ∧
      tree.lineage receiver = tree.lineage method ++ [parameter] := by
  obtain ⟨owner, howner, hmethod⟩ := hwf.receiver_parent hreceiver
  have hwired := (hwf.receiver_iff howner hmethod receiver).mpr hreceiver
  obtain ⟨parameter, hparameter, hparent, hflag⟩ := hreceiver
  exact ⟨owner, parameter, howner, hwired, hflag, hwf.id_eq hparameter,
    hwf.lineage_child hparameter hparent⟩

/-- From a method to a place in its receiver the way passes no further method. -/
theorem WellFormed.lineage_place (hwf : tree.WellFormed) {method receiver leaf : NodeId}
    {below : List Node} (hreceiver : tree.HasChild Kind.isReceiver method receiver)
    (hleaf : tree.lineage leaf = tree.lineage receiver ++ below)
    (hquiet : ∀ node ∈ below, node.kind.isMember = false) :
    ∃ parameter, tree.lineage leaf = tree.lineage method ++ parameter :: below ∧
      ∀ node ∈ parameter :: below, node.kind.isMethod = false := by
  obtain ⟨-, parameter, -, -, hflag, -, hlineage⟩ := hwf.lineage_receiver hreceiver
  refine ⟨parameter, by rw [hleaf, hlineage, List.append_assoc, List.singleton_append], ?_⟩
  intro node hnode
  obtain rfl | hnode := List.mem_cons.mp hnode
  · cases hkind : node.kind <;> simp_all [Kind.isReceiver, Kind.isMethod]
  · have hmember := hquiet node hnode
    rw [Kind.isMember, Bool.or_eq_false_iff] at hmember
    exact hmember.1

/-- The receiver of a method and what is in it are no methods. -/
theorem WellFormed.isMethod_place (hwf : tree.WellFormed) {method receiver leaf : NodeId}
    {below : List Node} (hreceiver : tree.HasChild Kind.isReceiver method receiver)
    (hleaf : tree.lineage leaf = tree.lineage receiver ++ below)
    (hquiet : ∀ node ∈ below, node.kind.isMember = false) (hnode : tree.node? leaf = some node) :
    node.kind.isMethod = false := by
  obtain ⟨parameter, hlineage, hmethods⟩ := hwf.lineage_place hreceiver hleaf hquiet
  obtain ⟨front, hfront⟩ := hwf.exists_lineage_eq hnode
  have hlast := congrArg List.getLast? (hfront.symm.trans hlineage)
  rw [List.getLast?_concat, List.getLast?_append_cons] at hlast
  exact hmethods node (List.mem_of_getLast? hlast.symm)

/-- A node below the receiver of a method is found by the climb. -/
theorem WellFormed.climb_of_place (hwf : tree.WellFormed) {method receiver leaf : NodeId}
    {below : List Node} (hmethod : tree.IsMethodOf signature method)
    (hreceiver : tree.HasChild Kind.isReceiver method receiver)
    (hleaf : tree.lineage leaf = tree.lineage receiver ++ below)
    (hquiet : ∀ node ∈ below, node.kind.isMember = false) :
    Receiver.climb signature none (tree.lineage leaf).reverse = true := by
  obtain ⟨owner, parameter, howner, hwired, hflag, rfl, hlineage⟩ := hwf.lineage_receiver hreceiver
  obtain ⟨front, hfront⟩ := hwf.exists_lineage_eq howner
  have hup : (tree.lineage leaf).reverse = below.reverse ++ parameter :: owner :: front.reverse := by
    rw [hleaf, hlineage, hfront]
    simp
  obtain ⟨name, parameters, wired, hkind, hfits⟩ := (isMethodOf_iff howner).mp hmethod
  rw [hkind, Kind.receiver?] at hwired
  have hvariable : ∃ name flagged, parameter.kind = .variable name flagged := by
    cases hparameter : parameter.kind with
    | «variable» name flagged => exact ⟨name, flagged, rfl⟩
    | _ => simp [hparameter, Kind.isReceiver] at hflag
  obtain ⟨variableName, flagged, hparameter⟩ := hvariable
  rw [hup, Receiver.climb_append (by simpa using hquiet)]
  simp [Receiver.climb, hparameter, hkind, hwired, hfits]

/-- What the climb finds is below the receiver of a method. -/
theorem WellFormed.place_of_climb (hwf : tree.WellFormed) {leaf : NodeId}
    (hclimb : Receiver.climb signature none (tree.lineage leaf).reverse = true) :
    ∃ method, tree.IsMethodOf signature method ∧ tree.ReceiverPlace method leaf := by
  obtain ⟨inner, parameter, above, hup, hquiet, hstop⟩ := Receiver.of_climb hclimb
  obtain ⟨name, parameters, receiver, -, hpassed, -⟩ | ⟨-, -, hclimb⟩ := hstop
  · cases hpassed
  obtain ⟨between, method, rest, habove, -, hstop⟩ := Receiver.of_climb hclimb
  obtain ⟨name, parameters, receiver, hkind, hpassed, hfits⟩ | ⟨-, hnone, -⟩ := hstop
  · have hlineage : tree.lineage leaf =
        rest.reverse ++ method :: (between.reverse ++ parameter :: inner.reverse) := by
      rw [← List.reverse_reverse (tree.lineage leaf), hup, habove]
      simp
    have hwhole : tree.lineage leaf =
        (rest.reverse ++ method :: between.reverse) ++ parameter :: inner.reverse := by
      rw [hlineage, List.append_assoc, List.cons_append]
    have hmethod := (hwf.lineage_split hlineage).1
    obtain ⟨hparameter, hparameterLineage⟩ := hwf.lineage_split hwhole
    cases hpassed
    have hchild : tree.HasChild Kind.isReceiver method.id parameter.id :=
      (hwf.receiver_iff hmethod (by rw [hkind, Kind.isMethod]) parameter.id).mp
        (by rw [hkind, Kind.receiver?])
    have hbelow : tree.lineage leaf = tree.lineage parameter.id ++ inner.reverse := by
      rw [hparameterLineage, hwhole, List.append_assoc _ [parameter], List.singleton_append]
    exact ⟨method.id, (isMethodOf_iff hmethod).mpr ⟨name, parameters, _, hkind, hfits⟩,
      .onReceiver hchild hbelow (by simpa using hquiet)⟩
  · cases hnone

/-- The receiver criterion finds just the places of receiver annotations. -/
theorem WellFormed.isPlace_iff (hwf : tree.WellFormed) {leaf : NodeId} {path : Path}
    (hleaf : tree.node? leaf = some node) (hpath : path.nodes = tree.lineage leaf) :
    Receiver.isPlace signature path = true ↔
      ∃ method, tree.IsMethodOf signature method ∧ tree.ReceiverPlace method leaf := by
  rw [Receiver.isPlace, hwf.leaf_eq hleaf hpath, hpath]
  split
  · rename_i name parameters receiver hkind
    have hmethod : node.kind.isMethod = true := by rw [hkind, Kind.isMethod]
    have hwired := hwf.receiver_iff hleaf hmethod
    simp only [hkind, Kind.receiver?] at hwired
    rw [Bool.and_eq_true, Option.isNone_iff_eq_none]
    constructor
    · rintro ⟨hfits, rfl⟩
      refine ⟨leaf, (isMethodOf_iff hleaf).mpr ⟨name, parameters, none, hkind, hfits⟩, .onMethod ?_⟩
      intro receiver hreceiver
      cases (hwired receiver).mpr hreceiver
    · rintro ⟨method, hmethodOf, hplace⟩
      cases hplace with
      | onMethod hnone =>
        obtain ⟨name', parameters', receiver', hkind', hfits⟩ := (isMethodOf_iff hleaf).mp hmethodOf
        cases hkind.symm.trans hkind'
        refine ⟨hfits, Option.eq_none_iff_forall_ne_some.mpr ?_⟩
        intro parameter hparameter
        exact hnone parameter ((hwired parameter).mp hparameter)
      | onReceiver hreceiver hlineage hquiet =>
        rw [hwf.isMethod_place hreceiver hlineage hquiet hleaf] at hmethod
        cases hmethod
  · rename_i hmethod
    constructor
    · exact hwf.place_of_climb
    · rintro ⟨method, hmethodOf, hplace⟩
      cases hplace with
      | onMethod hnone =>
        obtain ⟨name, parameters, receiver, hkind, -⟩ := (isMethodOf_iff hleaf).mp hmethodOf
        exact absurd hkind (hmethod name parameters receiver)
      | onReceiver hreceiver hlineage hquiet =>
        exact hwf.climb_of_place hmethodOf hreceiver hlineage hquiet

/-- The nearest method of a method is the method itself. -/
theorem WellFormed.nearestMethod?_of_isMethod (hwf : tree.WellFormed) {id : NodeId}
    (hnode : tree.node? id = some node) (hmethod : node.kind.isMethod = true) :
    tree.nearestMethod? id = some id := by
  obtain ⟨front, hfront⟩ := hwf.exists_lineage_eq hnode
  simp [nearestMethod?, hfront, hmethod, hwf.id_eq hnode]

/-- The nearest method of a place on a receiver is the method that declares it. -/
theorem WellFormed.nearestMethod?_place (hwf : tree.WellFormed) {method receiver leaf : NodeId}
    {below : List Node} (hreceiver : tree.HasChild Kind.isReceiver method receiver)
    (hleaf : tree.lineage leaf = tree.lineage receiver ++ below)
    (hquiet : ∀ node ∈ below, node.kind.isMember = false) : tree.nearestMethod? leaf = some method := by
  obtain ⟨owner, howner, hmethod⟩ := hwf.receiver_parent hreceiver
  obtain ⟨parameter, hlineage, hmethods⟩ := hwf.lineage_place hreceiver hleaf hquiet
  have hnone : (parameter :: below).reverse.find? (·.kind.isMethod) = none := by
    rw [List.find?_eq_none]
    intro node hnode
    simp [hmethods node (List.mem_reverse.mp hnode)]
  have hnearest := hwf.nearestMethod?_of_isMethod howner hmethod
  rw [nearestMethod?] at hnearest
  rw [nearestMethod?, hlineage, List.reverse_append, List.find?_append, hnone, Option.none_or, hnearest]

/-- Among the nodes around which a method is the nearest one, the method and a node in it are not both
places of its receiver annotation. -/
theorem WellFormed.place_exclusive (hwf : tree.WellFormed) {method leaf first second : NodeId}
    (hnearest : tree.nearestMethod? leaf = some method) (hne : leaf ≠ method)
    (hfirst : tree.IsMethodOf signature first) (hmethod : tree.ReceiverPlace first method)
    (hsecond : tree.IsMethodOf signature second) : ¬ tree.ReceiverPlace second leaf := by
  have known {id : NodeId} (hid : tree.IsMethodOf signature id) :
      ∃ node, tree.node? id = some node ∧ node.kind.isMethod = true := by
    obtain ⟨parameters, receiver, hkind, -⟩ := hid
    obtain ⟨node, hnode, hkind⟩ := Option.map_eq_some_iff.mp hkind
    exact ⟨node, hnode, by rw [hkind, Kind.isMethod]⟩
  obtain ⟨owner, howner, hown⟩ := known hsecond
  intro hleaf
  cases hleaf with
  | onMethod hnone =>
    rw [hwf.nearestMethod?_of_isMethod howner hown] at hnearest
    exact hne (Option.some.inj hnearest)
  | onReceiver hreceiver hlineage hquiet =>
    rw [hwf.nearestMethod?_place hreceiver hlineage hquiet] at hnearest
    cases hnearest
    cases hmethod with
    | onMethod hnone => exact hnone _ hreceiver
    | onReceiver houter houterLineage houterQuiet =>
      rw [hwf.isMethod_place houter houterLineage houterQuiet howner] at hown
      cases hown

/-- The receiver criterion of a signature holds just at the places of the receiver annotations of the
methods with this signature, and never both at a method and in it. -/
theorem onReceiver_iff_receiverPlace (htree : tree.Grown) {text : String}
    (hparse : MethodSignature.parse text = .ok signature) (ranks : RankIndex) :
    ∃ criterion, Criterion.ofReceiver text = .ok criterion ∧
      (∀ leaf < tree.size, ∃ answer, criterion.holds ranks (tree.path? leaf) = .ok answer ∧
        (answer = true ↔
          ∃ method, tree.IsMethodOf signature method ∧ tree.ReceiverPlace method leaf)) ∧
      ∀ method leaf, tree.nearestMethod? leaf = some method → leaf ≠ method →
        ¬ (criterion.holds ranks (tree.path? method) = .ok true ∧
          criterion.holds ranks (tree.path? leaf) = .ok true) := by
  have hwf := htree.wellFormed
  have hholds (leaf : NodeId) (hleaf : leaf < tree.size) : ∃ answer,
      (Criterion.onReceiver text signature).holds ranks (tree.path? leaf) = .ok answer ∧
        (answer = true ↔
          ∃ method, tree.IsMethodOf signature method ∧ tree.ReceiverPlace method leaf) := by
    obtain ⟨node, hnode⟩ := node?_isSome_iff.mpr hleaf
    obtain ⟨path, hpath, hnodes⟩ := hwf.path?_eq hleaf
    exact ⟨Receiver.isPlace signature path, by rw [hpath]; rfl, hwf.isPlace_iff hnode hnodes⟩
  have hplace {leaf : NodeId}
      (h : (Criterion.onReceiver text signature).holds ranks (tree.path? leaf) = .ok true) :
      ∃ method, tree.IsMethodOf signature method ∧ tree.ReceiverPlace method leaf := by
    by_cases hleaf : leaf < tree.size
    · obtain ⟨answer, hanswer, hiff⟩ := hholds leaf hleaf
      rw [hanswer, Except.ok.injEq] at h
      exact hiff.mp h
    · rw [path?, lineage_eq_nil (node?_eq_none hleaf)] at h
      cases h
  refine ⟨.onReceiver text signature, ?_, hholds, ?_⟩
  · rw [Criterion.ofReceiver, MethodSignature.ofText, hparse]
    rfl
  · rintro method leaf hnearest hne ⟨hmethod, hleaf⟩
    obtain ⟨first, hfirst, hmethod⟩ := hplace hmethod
    obtain ⟨second, hsecond, hleaf⟩ := hplace hleaf
    exact hwf.place_exclusive hnearest hne hfirst hmethod hsecond hleaf

end Tree

/-- A method with a receiver parameter of an annotated type. -/
def Outline.received : Outline :=
  ⟨.unit none, [⟨.classDecl "C" .ordinary, [⟨.method "m" ["I"] none,
    [⟨.explicitReceiver, [⟨.other "type", []⟩]⟩, ⟨.variable "x" false, []⟩]⟩]⟩]⟩

namespace Tree

def received : Tree := Outline.received.toTree

theorem grown_received : received.Grown := Outline.grown_toTree _

theorem receiverPlace_received : MethodSignature.parse "m(I)" = .ok ⟨"m(I)", "m", "I"⟩ ∧
    ∃ criterion, Criterion.ofReceiver "m(I)" = .ok criterion ∧
      criterion.holds received.ranks (received.path? 4) = .ok true ∧
      criterion.holds received.ranks (received.path? 2) ≠ .ok true := by
  have hparse : MethodSignature.parse "m(I)" = .ok ⟨"m(I)", "m", "I"⟩ := by decide +kernel
  obtain ⟨criterion, hcriterion, hholds, hexclusive⟩ :=
    onReceiver_iff_receiverPlace grown_received hparse received.ranks
  have hmethod : received.IsMethodOf ⟨"m(I)", "m", "I"⟩ 2 :=
    ⟨["I"], some 3, by decide +kernel, by decide +kernel⟩
  have hreceiver : received.HasChild Kind.isReceiver 2 3 :=
    ⟨⟨3, some 2, [4], .explicitReceiver⟩, by decide +kernel, rfl, rfl⟩
  have hlineage : received.lineage 4 = received.lineage 3 ++ (received.lineage 4).drop 4 := by
    decide +kernel
  obtain ⟨answer, hanswer, hiff⟩ := hholds 4 (by decide +kernel)
  have hplace : received.ReceiverPlace 2 4 := .onReceiver hreceiver hlineage (by decide +kernel)
  have hfound : criterion.holds received.ranks (received.path? 4) = .ok true := by
    rw [hanswer, hiff.mpr ⟨2, hmethod, hplace⟩]
  have hnearest : received.nearestMethod? 4 = some 2 := by decide +kernel
  exact ⟨hparse, criterion, hcriterion, hfound, fun h => hexclusive 2 4 hnearest (by decide) ⟨h, hfound⟩⟩

end Tree

end Pinpoint
