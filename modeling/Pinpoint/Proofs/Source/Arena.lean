import Mathlib.Tactic.Common
import Pinpoint.Proofs.Source.Numbering
import Pinpoint.Source.Building

namespace Pinpoint

namespace Kind

/-- Why a child is refused: it is a file, a second body, a second receiver or a stray receiver. -/
theorem allow_eq_error_iff {id : NodeId} {own child : Kind} {fault : TreeFault} :
    own.allow id child = .error fault ↔
      (child.isUnit = true ∧ .nestedUnit id = fault) ∨
      (child.isClass = true ∧ own.isConstruction = true ∧ own.body?.isSome = true ∧
        .secondBody id = fault) ∨
      (child.isReceiver = true ∧ own.isMethod = true ∧ own.receiver?.isSome = true ∧
        .secondReceiver id = fault) ∨
      (child.isReceiver = true ∧ own.isMethod = false ∧ .strayReceiver id = fault) := by
  cases child with
  | unit package => simp [allow, isUnit, isClass, isReceiver]
  | classDecl name flavor =>
    cases own with
    | construction body =>
      cases body <;> simp [allow, isUnit, isClass, isConstruction, body?, isReceiver]
    | _ => simp [allow, isUnit, isConstruction, isReceiver]
  | «variable» name flagged =>
    cases flagged with
    | false => simp [allow, isUnit, isClass, isReceiver]
    | true =>
      cases own with
      | method name parameters receiver =>
        cases receiver <;> simp [allow, isUnit, isClass, isReceiver, isMethod, receiver?]
      | _ => simp [allow, isUnit, isClass, isReceiver, isMethod]
  | _ => simp [allow, isUnit, isClass, isReceiver]

end Kind

namespace Tree

/-- A tree of its root alone: that of an empty file, or of a root given by its kind. -/
inductive Planted : Tree → Prop where
  | unit (package : Option String) : Planted (Tree.unit package)
  | ofRoot {kind : Kind} {tree : Tree} (hroot : Tree.ofRoot kind = .ok tree) : Planted tree

/-- The tree that a list of pushes leaves, each tried in turn whether or not those before it were taken. -/
def pushed (tree : Tree) : List (NodeId × Kind) → Tree
  | [] => tree
  | (parent, kind) :: later => ((Building.push parent kind).on tree).2.pushed later

/-- The nodes of an arena: ids are positions, links go up to smaller ids and down in ascending order, and
constructions and methods know the one child that is their body or receiver. -/
structure Arena (tree : Tree) : Prop where
  id_eq : ∀ id node, tree.node? id = some node → node.id = id
  root : ∃ root, tree.node? 0 = some root
  isUnit_iff : ∀ id node, tree.node? id = some node → (node.kind.isUnit = true ↔ id = 0)
  parent_eq_none_iff : ∀ id node, tree.node? id = some node → (node.parent = none ↔ id = 0)
  parent_lt : ∀ id node parent, tree.node? id = some node → node.parent = some parent → parent < id
  mem_children_iff : ∀ id node child, tree.node? id = some node →
    (child ∈ node.children ↔ tree.parent? child = some id)
  children_ascending : ∀ id node, tree.node? id = some node → node.children.Pairwise (· < ·)
  body_iff : ∀ id node child, tree.node? id = some node → node.kind.isConstruction = true →
    (node.kind.body? = some child ↔ tree.HasChild Kind.isClass id child)
  body_unique : ∀ id node child other, tree.node? id = some node → node.kind.isConstruction = true →
    tree.HasChild Kind.isClass id child → tree.HasChild Kind.isClass id other → child = other
  receiver_iff : ∀ id node child, tree.node? id = some node → node.kind.isMethod = true →
    (node.kind.receiver? = some child ↔ tree.HasChild Kind.isReceiver id child)
  receiver_unique : ∀ id child other, tree.HasChild Kind.isReceiver id child →
    tree.HasChild Kind.isReceiver id other → child = other
  receiver_parent : ∀ id child, tree.HasChild Kind.isReceiver id child →
    ∃ owner, tree.node? id = some owner ∧ owner.kind.isMethod = true

/-- A child that `parent` takes: it is no file, no second class in a construction, and no receiver but the
first of a method. -/
structure Accepts (tree : Tree) (parent : NodeId) (kind : Kind) : Prop where
  known : parent < tree.size
  unit : kind.isUnit = false
  body : kind.isClass = true → ∀ owner, tree.node? parent = some owner →
    owner.kind.isConstruction = true → ∀ child, ¬ tree.HasChild Kind.isClass parent child
  receiver : kind.isReceiver = true →
    (∃ owner, tree.node? parent = some owner ∧ owner.kind.isMethod = true) ∧
      ∀ child, ¬ tree.HasChild Kind.isReceiver parent child

/-- A child that `parent` does not take, and why. -/
inductive Refuses (tree : Tree) (parent : NodeId) (kind : Kind) : TreeFault → Prop where
  | unknownParent (hparent : ¬ parent < tree.size) : Refuses tree parent kind (.unknownParent parent)
  | nestedUnit (hparent : parent < tree.size) (hunit : kind.isUnit = true) :
      Refuses tree parent kind (.nestedUnit parent)
  | secondBody {owner : Node} {child : NodeId} (howner : tree.node? parent = some owner)
      (hown : owner.kind.isConstruction = true) (hclass : kind.isClass = true)
      (hchild : tree.HasChild Kind.isClass parent child) :
      Refuses tree parent kind (.secondBody parent)
  | secondReceiver {owner : Node} {child : NodeId} (howner : tree.node? parent = some owner)
      (hown : owner.kind.isMethod = true) (hreceiver : kind.isReceiver = true)
      (hchild : tree.HasChild Kind.isReceiver parent child) :
      Refuses tree parent kind (.secondReceiver parent)
  | strayReceiver {owner : Node} (howner : tree.node? parent = some owner)
      (hown : owner.kind.isMethod = false) (hreceiver : kind.isReceiver = true) :
      Refuses tree parent kind (.strayReceiver parent)

variable {tree : Tree} {parent : NodeId} {kind : Kind}

/-- What has been planted has grown. -/
theorem Planted.grown (hplanted : tree.Planted) : tree.Grown := by
  cases hplanted with
  | unit package => exact .unit package
  | ofRoot hroot => exact .ofRoot hroot

/-- What is tried after any tree that has grown leaves a tree that has grown. -/
theorem Grown.pushed (htree : tree.Grown) (requests : List (NodeId × Kind)) :
    (tree.pushed requests).Grown := by
  induction requests generalizing tree with
  | nil => exact htree
  | cons request later ih =>
    obtain ⟨parent, kind⟩ := request
    rw [Tree.pushed, Building.push_on]
    cases hpush : tree.push parent kind with
    | error fault => exact ih htree
    | ok grown => exact ih (htree.push hpush)

/-- A tree that is well formed has the shape of an arena. -/
theorem WellFormed.arena (hwf : tree.WellFormed) : tree.Arena := by
  obtain ⟨root, hroot, hrootParent, hrootUnit⟩ := hwf.root
  have hzero {id : NodeId} {node : Node} (hnode : tree.node? id = some node) (hid : id = 0) :
      node = root := by
    rw [hid, hroot, Option.some.injEq] at hnode
    exact hnode.symm
  refine ⟨fun id node => hwf.id_eq, ⟨root, hroot⟩, ?_, ?_, fun id node parent => hwf.lt_of_parent, ?_, ?_,
    fun id node child hnode hown => hwf.body_iff hnode hown child,
    fun id node child other hnode hown => Wires.unique hwf.body_iff hnode hown,
    fun id node child hnode hown => hwf.receiver_iff hnode hown child, ?_,
    fun id child => hwf.receiver_parent⟩
  · intro id node hnode
    constructor
    · intro hunit
      by_contra hid
      rw [(hwf.parent_lt hnode hid).1] at hunit
      cases hunit
    · intro hid
      rw [hzero hnode hid, hrootUnit]
  · intro id node hnode
    constructor
    · intro hparent
      by_contra hid
      obtain ⟨-, parent, hsome, -⟩ := hwf.parent_lt hnode hid
      rw [hparent] at hsome
      cases hsome
    · intro hid
      rw [hzero hnode hid, hrootParent]
  · intro id node child hnode
    have hchildren : tree.children id = node.children := by rw [children, hnode]
    rw [← hchildren, hwf.mem_children]
  · intro id node hnode
    have hchildren : tree.children id = node.children := by rw [children, hnode]
    rw [← hchildren]
    exact hwf.pairwise_children id
  · intro id child other hchild hother
    obtain ⟨owner, howner, hmethod⟩ := hwf.receiver_parent hchild
    exact Wires.unique hwf.receiver_iff howner hmethod hchild hother

/-- A push is refused if its parent is missing, or else if the parent does not allow it. -/
theorem push_eq_error_iff {fault : TreeFault} :
    tree.push parent kind = .error fault ↔
      (tree.node? parent = none ∧ .unknownParent parent = fault) ∨
        ∃ owner, tree.node? parent = some owner ∧ owner.kind.allow parent kind = .error fault := by
  rw [Tree.push]
  cases tree.node? parent with
  | none => simp
  | some owner => cases hallow : owner.kind.allow parent kind <;> simp [hallow]

/-- A push fails just where the child is refused, and for the same reason. -/
theorem WellFormed.push_eq_error_iff_refuses (hwf : tree.WellFormed) {fault : TreeFault} :
    tree.push parent kind = .error fault ↔ tree.Refuses parent kind fault := by
  rw [push_eq_error_iff]
  constructor
  · rintro (⟨hnone, rfl⟩ | ⟨owner, howner, hallow⟩)
    · have hparent : ¬ parent < tree.size := by
        rw [← node?_isSome_iff, hnone]
        simp
      exact .unknownParent hparent
    · obtain ⟨hunit, rfl⟩ | ⟨hclass, hown, hbody, rfl⟩ | ⟨hreceiver, hown, hsome, rfl⟩ |
        ⟨hreceiver, hown, rfl⟩ := Kind.allow_eq_error_iff.mp hallow
      · exact .nestedUnit (lt_size_of_node? howner) hunit
      · obtain ⟨child, hchild⟩ := Option.isSome_iff_exists.mp hbody
        exact .secondBody howner hown hclass ((hwf.body_iff howner hown child).mp hchild)
      · obtain ⟨child, hchild⟩ := Option.isSome_iff_exists.mp hsome
        exact .secondReceiver howner hown hreceiver ((hwf.receiver_iff howner hown child).mp hchild)
      · exact .strayReceiver howner hown hreceiver
  · intro hrefuses
    cases hrefuses with
    | unknownParent hparent => exact .inl ⟨node?_eq_none hparent, rfl⟩
    | nestedUnit hparent hunit =>
      obtain ⟨owner, howner⟩ := node?_isSome_iff.mpr hparent
      exact .inr ⟨owner, howner, Kind.allow_eq_error_iff.mpr (.inl ⟨hunit, rfl⟩)⟩
    | secondBody howner hown hclass hchild =>
      have hbody := Option.isSome_iff_exists.mpr ⟨_, (hwf.body_iff howner hown _).mpr hchild⟩
      exact .inr ⟨_, howner, Kind.allow_eq_error_iff.mpr (.inr (.inl ⟨hclass, hown, hbody, rfl⟩))⟩
    | secondReceiver howner hown hreceiver hchild =>
      have hsome := Option.isSome_iff_exists.mpr ⟨_, (hwf.receiver_iff howner hown _).mpr hchild⟩
      exact .inr ⟨_, howner,
        Kind.allow_eq_error_iff.mpr (.inr (.inr (.inl ⟨hreceiver, hown, hsome, rfl⟩)))⟩
    | strayReceiver howner hown hreceiver =>
      exact .inr ⟨_, howner, Kind.allow_eq_error_iff.mpr (.inr (.inr (.inr ⟨hreceiver, hown, rfl⟩)))⟩

/-- What is accepted is what nothing speaks against. -/
theorem accepts_iff : tree.Accepts parent kind ↔ ∀ fault, ¬ tree.Refuses parent kind fault := by
  constructor
  · rintro ⟨hknown, hunit, hbody, hreceiver⟩ fault hrefuses
    cases hrefuses with
    | unknownParent hunknown => exact hunknown hknown
    | nestedUnit _ hisUnit =>
      rw [hunit] at hisUnit
      cases hisUnit
    | secondBody howner hown hclass hchild => exact hbody hclass _ howner hown _ hchild
    | secondReceiver howner hown hisReceiver hchild => exact (hreceiver hisReceiver).2 _ hchild
    | strayReceiver howner hown hisReceiver =>
      obtain ⟨⟨owner, howner', hmethod⟩, -⟩ := hreceiver hisReceiver
      cases howner.symm.trans howner'
      rw [hown] at hmethod
      cases hmethod
  · intro hnone
    have hknown : parent < tree.size := by
      by_contra hunknown
      exact hnone _ (.unknownParent hunknown)
    obtain ⟨owner, howner⟩ := node?_isSome_iff.mpr hknown
    refine ⟨hknown, ?_, ?_, ?_⟩
    · cases hunit : kind.isUnit with
      | false => rfl
      | true => exact absurd (.nestedUnit hknown hunit) (hnone _)
    · intro hclass owner howner hown child hchild
      exact hnone _ (.secondBody howner hown hclass hchild)
    · intro hreceiver
      cases hown : owner.kind.isMethod with
      | false => exact absurd (.strayReceiver howner hown hreceiver) (hnone _)
      | true =>
        refine ⟨⟨owner, howner, hown⟩, ?_⟩
        intro child hchild
        exact hnone _ (.secondReceiver howner hown hreceiver hchild)

/-- A push is taken just when the tree accepts it. -/
theorem WellFormed.push_eq_ok_iff_accepts (hwf : tree.WellFormed) :
    (∃ grown, tree.push parent kind = .ok grown) ↔ tree.Accepts parent kind := by
  simp only [accepts_iff, ← hwf.push_eq_error_iff_refuses]
  cases tree.push parent kind <;> simp

/-- After any pushes on a tree of its root alone, taken or refused, the tree is an arena. A further push is
taken just when its child is accepted. It then answers with the next id and writes the child, which its
parent adopts; every other node stays. Refused, it says why and leaves the tree as it was. -/
theorem arena_pushed (hplanted : tree.Planted) (requests : List (NodeId × Kind)) :
    (tree.pushed requests).Arena ∧ ∀ parent kind,
      ((∃ id left, (Building.push parent kind).on (tree.pushed requests) = (.ok id, left)) ↔
        (tree.pushed requests).Accepts parent kind) ∧
      (∀ id left, (Building.push parent kind).on (tree.pushed requests) = (.ok id, left) →
        id = (tree.pushed requests).size ∧ left.size = (tree.pushed requests).size + 1 ∧
        ∀ other, left.node? other =
          if other = id then some ⟨id, some parent, [], kind.declared⟩
          else if other = parent then ((tree.pushed requests).node? other).map (·.adopt id kind)
          else (tree.pushed requests).node? other) ∧
      ∀ fault left, (Building.push parent kind).on (tree.pushed requests) = (.error fault, left) →
        left = tree.pushed requests ∧ (tree.pushed requests).Refuses parent kind fault := by
  have hwf := (hplanted.grown.pushed requests).wellFormed
  generalize tree.pushed requests = arena at hwf
  refine ⟨hwf.arena, ?_⟩
  intro parent kind
  rw [← hwf.push_eq_ok_iff_accepts, Building.push_on]
  cases hpush : arena.push parent kind with
  | error fault =>
    refine ⟨by simp, by simp, ?_⟩
    rintro _ _ ⟨⟩
    exact ⟨rfl, hwf.push_eq_error_iff_refuses.mp hpush⟩
  | ok grown =>
    refine ⟨by simp, ?_, by simp⟩
    rintro _ _ ⟨⟩
    exact ⟨rfl, size_of_push hpush, node?_of_push hpush⟩

/-- Pushes of which the third and the last are refused: a construction takes one body, a file no receiver. -/
def attempts : List (NodeId × Kind) :=
  [(0, .construction (some 7)), (1, .namelessClass), (1, .namelessClass), (2, .block),
    (0, .explicitReceiver)]

theorem arena_pushed_attempts :
    ((unit none).pushed attempts).Arena ∧ ((unit none).pushed attempts).size = 4 ∧
    (Building.push 1 .namelessClass).on ((unit none).pushed attempts) =
      (.error (.secondBody 1), (unit none).pushed attempts) ∧
    ((unit none).pushed attempts).Refuses 1 .namelessClass (.secondBody 1) := by
  have hsize : ((unit none).pushed attempts).size = 4 := by decide +kernel
  have hfault : ((Building.push 1 .namelessClass).on ((unit none).pushed attempts)).1 =
      .error (.secondBody 1) := by decide +kernel
  obtain ⟨harena, hpushes⟩ := arena_pushed (.unit none) attempts
  obtain ⟨-, -, hrefused⟩ := hpushes 1 .namelessClass
  obtain ⟨hsame, hrefuses⟩ := hrefused _ _ (Prod.ext hfault rfl)
  exact ⟨harena, hsize, Prod.ext hfault hsame, hrefuses⟩

end Tree

end Pinpoint
