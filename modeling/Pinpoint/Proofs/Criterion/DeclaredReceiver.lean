import Mathlib.Data.Set.Insert
import Mathlib.Tactic.Common
import Pinpoint.Proofs.Criterion.Insertion

namespace Pinpoint

/-- The nodes of a tree at which a criterion holds. -/
def Criterion.sites (criterion : Criterion) (ranks : RankIndex) (tree : Tree) : Set NodeId :=
  {id | criterion.holds ranks (tree.path? id) = .ok true}

namespace Kind

theorem exists_variable_of_isReceiver {kind : Kind} (hreceiver : kind.isReceiver = true) :
    ∃ name, kind = .variable name true := by
  cases kind with
  | «variable» name flagged =>
    rw [isReceiver] at hreceiver
    exact ⟨name, by rw [hreceiver]⟩
  | _ => cases hreceiver

theorem exists_method_of_receiver? {kind : Kind} (hmethod : kind.isMethod = true)
    (hnone : kind.receiver? = none) : ∃ name parameters, kind = .method name parameters none := by
  cases kind with
  | method name parameters receiver =>
    rw [receiver?] at hnone
    exact ⟨name, parameters, by rw [hnone]⟩
  | _ => cases hmethod

end Kind

namespace Tree

variable {tree grown : Tree} {method id : NodeId} {node owner : Node} {kind : Kind} {text name : String}
  {parameters : List String} {signature : MethodSignature} {ranks ranks' : RankIndex}

/-- Only nodes of the tree are sites. -/
theorem lt_size_of_mem_sites {criterion : Criterion} (hid : id ∈ criterion.sites ranks tree) :
    id < tree.size := by
  by_contra hunknown
  change criterion.holds ranks (tree.path? id) = .ok true at hid
  rw [path?, lineage_eq_nil (node?_eq_none hunknown)] at hid
  cases hid

/-- A method is a site if it fits and declares no receiver. -/
theorem WellFormed.mem_sites_method (hwf : tree.WellFormed) (hnode : tree.node? id = some node)
    {receiver : Option NodeId} (hkind : node.kind = .method name parameters receiver) :
    id ∈ (Criterion.onReceiver text signature).sites ranks tree ↔
      signature.fits name parameters = true ∧ receiver = none := by
  obtain ⟨path, hpath, hnodes⟩ := hwf.path?_eq (lt_size_of_node? hnode)
  change (Criterion.onReceiver text signature).holds ranks (tree.path? id) = .ok true ↔ _
  rw [hpath, Criterion.holds, Criterion.holdsAt, Receiver.isPlace, hwf.leaf_eq hnode hnodes, hkind,
    Except.ok.injEq, Bool.and_eq_true, Option.isNone_iff_eq_none]

/-- Any other node is a site if the climb from it succeeds. -/
theorem WellFormed.mem_sites_below (hwf : tree.WellFormed) (hnode : tree.node? id = some node)
    (hkind : node.kind.isMethod = false) :
    id ∈ (Criterion.onReceiver text signature).sites ranks tree ↔
      Receiver.climb signature none (tree.lineage id).reverse = true := by
  obtain ⟨path, hpath, hnodes⟩ := hwf.path?_eq (lt_size_of_node? hnode)
  change (Criterion.onReceiver text signature).holds ranks (tree.path? id) = .ok true ↔ _
  rw [hpath, Criterion.holds, Criterion.holdsAt, Receiver.isPlace, hwf.leaf_eq hnode hnodes, hnodes,
    Except.ok.injEq]
  cases hnodeKind : node.kind with
  | method name parameters receiver =>
    rw [hnodeKind] at hkind
    cases hkind
  | _ => rfl

section Push

variable {parameterName : String} (hpush : tree.push method (.variable parameterName true) = .ok grown)
  (howner : tree.node? method = some owner) (hbare : owner.kind = .method name parameters none)

include hpush howner hbare

/-- The method is there as before, and its receiver is wired to the new parameter. -/
theorem node?_method_of_push_receiver :
    ∃ now, grown.node? method = some now ∧ now.kind = .method name parameters (some tree.size) := by
  refine ⟨owner.adopt tree.size (.variable parameterName true), ?_, ?_⟩
  · rw [node?_of_push_old hpush howner, if_pos rfl]
  · rw [Node.adopt, hbare, Kind.wire]

variable (hwf : tree.WellFormed)

include hwf

/-- The method is no site any more. -/
theorem method_not_mem_sites_of_push_receiver :
    method ∉ (Criterion.onReceiver text signature).sites ranks grown := by
  obtain ⟨now, hnow, hkind⟩ := node?_method_of_push_receiver hpush howner hbare
  rw [(hwf.push hpush).mem_sites_method hnow hkind]
  simp

/-- The new parameter is a site if its method fits. -/
theorem size_mem_sites_of_push_receiver :
    tree.size ∈ (Criterion.onReceiver text signature).sites ranks grown ↔
      signature.fits name parameters = true := by
  have hwf' := hwf.push hpush
  have hnew := node?_of_push hpush tree.size
  rw [if_pos rfl] at hnew
  obtain ⟨now, hnow, hkind⟩ := node?_method_of_push_receiver hpush howner hbare
  obtain ⟨above, habove⟩ := hwf'.exists_lineage_eq hnow
  rw [hwf'.mem_sites_below hnew rfl, hwf'.lineage_child hnew rfl, habove]
  simp [Receiver.climb, hkind, Kind.declared]

/-- A node other than the method stays a site or stays none. -/
theorem mem_sites_of_push_receiver (hid : id < tree.size) (hne : id ≠ method) :
    id ∈ (Criterion.onReceiver text signature).sites ranks' grown ↔
      id ∈ (Criterion.onReceiver text signature).sites ranks tree := by
  obtain ⟨node, hnode⟩ := node?_isSome_iff.mpr hid
  have hgrown := node?_of_push_old hpush hnode
  rw [if_neg hne] at hgrown
  cases hmethod : node.kind.isMethod with
  | true =>
    cases hkind : node.kind with
    | method name parameters receiver =>
      rw [(hwf.push hpush).mem_sites_method hgrown hkind, hwf.mem_sites_method hnode hkind]
    | _ =>
      rw [hkind] at hmethod
      cases hmethod
  | false =>
    have hknown := (hwf.linked_lineage id).known
    rw [(hwf.push hpush).mem_sites_below hgrown hmethod, hwf.mem_sites_below hnode hmethod,
      lineage_of_push hpush hwf hid, ← List.map_reverse]
    -- the climb can pass the nodes that were there, and the new receiver is none of them
    rw [Receiver.climb_map (· < tree.size)]
    · intro other _
      exact Node.id_of_adopt other _ _ _
    · intro other hother
      by_cases hparent : other.id = method
      · have hsame := hknown other (List.mem_reverse.mp hother)
        rw [hparent, howner, Option.some.injEq] at hsame
        subst hsame
        refine .inr ⟨name, parameters, tree.size, hbare, ?_, Nat.lt_irrefl _⟩
        rw [if_pos hparent, Node.adopt, hbare, Kind.wire]
      · exact .inl (by rw [if_neg hparent])
    · intro other hother
      exact lt_size_of_node? (hknown other (List.mem_reverse.mp hother))
    · simp

/-- After the push the sites are those before it without the method, and the new parameter if the method
fits. -/
theorem mem_sites_of_push_receiver_iff (ranks ranks' : RankIndex) :
    id ∈ (Criterion.onReceiver text signature).sites ranks' grown ↔
      (id = tree.size ∧ signature.fits name parameters = true) ∨
        (id ∈ (Criterion.onReceiver text signature).sites ranks tree ∧ id ≠ method) := by
  constructor
  · intro hid
    obtain hold | rfl := lt_or_eq_of_push hpush (lt_size_of_mem_sites hid)
    · have hne : id ≠ method := by
        rintro rfl
        exact method_not_mem_sites_of_push_receiver hpush howner hbare hwf hid
      exact .inr ⟨(mem_sites_of_push_receiver hpush howner hbare hwf hold hne).mp hid, hne⟩
    · exact .inl ⟨rfl, (size_mem_sites_of_push_receiver hpush howner hbare hwf).mp hid⟩
  · rintro (⟨rfl, hfits⟩ | ⟨hid, hne⟩)
    · exact (size_mem_sites_of_push_receiver hpush howner hbare hwf).mpr hfits
    · have hold := lt_size_of_mem_sites hid
      exact (mem_sites_of_push_receiver hpush howner hbare hwf hold hne).mpr hid

end Push

/-- A method without a receiver takes a receiver parameter. Where the method has the signature that is sought, the
parameter then replaces it among the sites of the receiver criterion; where it has not, the sites stay as they
were. -/
theorem sites_declared_receiver (htree : tree.Grown) (howner : tree.node? method = some owner)
    (hmethod : owner.kind.isMethod = true) (hnone : ∀ receiver, ¬ tree.HasChild Kind.isReceiver method receiver)
    (hkind : kind.isReceiver = true) (hparse : MethodSignature.parse text = .ok signature)
    (ranks ranks' : RankIndex) :
    ∃ criterion grown, Criterion.ofReceiver text = .ok criterion ∧ tree.push method kind = .ok grown ∧
      (∀ receiver, grown.HasChild Kind.isReceiver method receiver ↔ receiver = tree.size) ∧
      (tree.IsMethodOf signature method →
        method ∈ criterion.sites ranks tree ∧ tree.size ∉ criterion.sites ranks tree ∧
        criterion.sites ranks' grown = insert tree.size (criterion.sites ranks tree \ {method})) ∧
      (¬ tree.IsMethodOf signature method →
        criterion.sites ranks' grown = criterion.sites ranks tree) := by
  have hwf := htree.wellFormed
  obtain ⟨parameterName, rfl⟩ := Kind.exists_variable_of_isReceiver hkind
  have hwired : owner.kind.receiver? = none := by
    rw [Option.eq_none_iff_forall_ne_some]
    intro receiver hsome
    exact hnone receiver ((hwf.receiver_iff howner hmethod receiver).mp hsome)
  obtain ⟨name, parameters, hbare⟩ := Kind.exists_method_of_receiver? hmethod hwired
  obtain ⟨grown, hpush⟩ : ∃ grown, tree.push method (.variable parameterName true) = .ok grown :=
    ⟨_, push_eq_ok_iff.mpr ⟨owner, howner, by rw [hbare, Kind.allow], rfl⟩⟩
  have hof : tree.IsMethodOf signature method ↔ signature.fits name parameters = true := by
    rw [isMethodOf_iff howner, hbare]
    simp
  refine ⟨.onReceiver text signature, grown, ?_, hpush, ?_, ?_, ?_⟩
  · rw [Criterion.ofReceiver, MethodSignature.ofText, hparse]
    rfl
  · intro receiver
    rw [hasChild_of_push hpush Kind.isReceiver_declared]
    simp [hnone, Kind.isReceiver]
  · intro hfits
    refine ⟨(hwf.mem_sites_method howner hbare).mpr ⟨hof.mp hfits, rfl⟩, ?_, ?_⟩
    · intro hsize
      exact Nat.lt_irrefl _ (lt_size_of_mem_sites hsize)
    · ext id
      rw [mem_sites_of_push_receiver_iff hpush howner hbare hwf ranks]
      simp [hof.mp hfits]
  · intro hunfit
    ext id
    -- the method was no site before either
    have hne : id ∈ (Criterion.onReceiver text signature).sites ranks tree → id ≠ method := by
      rintro hid rfl
      exact hunfit (hof.mpr ((hwf.mem_sites_method howner hbare).mp hid).1)
    rw [hof] at hunfit
    rw [mem_sites_of_push_receiver_iff hpush howner hbare hwf ranks]
    constructor
    · rintro (⟨-, hfits⟩ | ⟨hid, -⟩)
      · exact absurd hfits hunfit
      · exact hid
    · intro hid
      exact .inr ⟨hid, hne hid⟩

end Tree

/-- A method with a parameter, and in its body a class with a method of the same signature that declares its
receiver. -/
def Outline.twice : Outline :=
  ⟨.unit none, [⟨.classDecl "C" .ordinary, [⟨.method "m" ["I"] none,
    [⟨.variable "x" false, [⟨.other "type", []⟩]⟩, ⟨.block, [⟨.classDecl "D" .ordinary,
      [⟨.method "m" ["I"] none, [⟨.explicitReceiver, []⟩]⟩]⟩]⟩]⟩]⟩]⟩

namespace Tree

def twice : Tree := Outline.twice.toTree

theorem grown_twice : twice.Grown := Outline.grown_toTree _

theorem sites_declared_receiver_twice :
    MethodSignature.parse "m(I)" = .ok ⟨"m(I)", "m", "I"⟩ ∧ twice.IsMethodOf ⟨"m(I)", "m", "I"⟩ 2 ∧
    ∃ criterion grown, Criterion.ofReceiver "m(I)" = .ok criterion ∧
      twice.push 2 .explicitReceiver = .ok grown ∧
      2 ∈ criterion.sites twice.ranks twice ∧ 8 ∈ criterion.sites twice.ranks twice ∧
      criterion.sites grown.ranks grown = insert 9 (criterion.sites twice.ranks twice \ {2}) := by
  have hparse : MethodSignature.parse "m(I)" = .ok ⟨"m(I)", "m", "I"⟩ := by decide +kernel
  have hof : twice.IsMethodOf ⟨"m(I)", "m", "I"⟩ 2 := ⟨["I"], none, by decide +kernel, by decide +kernel⟩
  let method : Node := ⟨2, some 1, [3, 5], .method "m" ["I"] none⟩
  have hmethod : twice.node? 2 = some method := by decide +kernel
  have hnone (receiver : NodeId) : ¬ twice.HasChild Kind.isReceiver 2 receiver := by
    intro hreceiver
    cases (grown_twice.wellFormed.receiver_iff hmethod rfl receiver).mpr hreceiver
  let grown := twice.pushed [(2, .explicitReceiver)]
  have hpush : twice.push 2 .explicitReceiver = .ok grown := by decide +kernel
  have hsize : twice.size = 9 := by decide +kernel
  have hkind : Kind.explicitReceiver.isReceiver = true := rfl
  obtain ⟨criterion, tree, hcriterion, htree, -, hmoved, -⟩ :=
    sites_declared_receiver grown_twice hmethod rfl hnone hkind hparse twice.ranks grown.ranks
  cases hpush.symm.trans htree
  obtain ⟨hbefore, -, hafter⟩ := hmoved hof
  rw [hsize] at hafter
  have hinner : 8 ∈ criterion.sites twice.ranks twice := by
    cases hcriterion
    change Except.ok _ = _
    decide +kernel
  exact ⟨hparse, hof, criterion, grown, hcriterion, hpush, hbefore, hinner, hafter⟩

end Tree

end Pinpoint
