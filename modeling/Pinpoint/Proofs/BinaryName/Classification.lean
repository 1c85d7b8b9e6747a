import Mathlib.Tactic.Common
import Pinpoint.Proofs.BinaryName.Grammar
import Pinpoint.Proofs.BinaryName.RankCount
import Pinpoint.Proofs.Source.Outline

namespace Pinpoint

namespace BinaryName

/-- What can be seen of a search: the nodes it comes to, what it takes them for, and what it asks. -/
inductive Move where
  | reach (id : NodeId)
  | enterLocal (id : NodeId)
  | enterAnonymous (id : NodeId)
  | compareName (id : NodeId)
  | askRank (id : NodeId) (series : RankSeries)
deriving DecidableEq

/-- A search that is told the ranks it asks for, and goes on as they are. -/
inductive Dialogue where
  | done (verdict : Verdict)
  | tell (move : Move) (next : Dialogue)
  | ask (id : NodeId) (series : RankSeries) (next : Option Nat → Dialogue)

namespace Dialogue

/-- What a dialogue comes to if an index answers. -/
def outcome (ranks : RankIndex) : Dialogue → Verdict
  | .done verdict => verdict
  | .tell _ next => next.outcome ranks
  | .ask id series next => (next (ranks.rank? id series)).outcome ranks

/-- The moves of a dialogue if an index answers. -/
def moves (ranks : RankIndex) : Dialogue → List Move
  | .done _ => []
  | .tell move next => move :: next.moves ranks
  | .ask id series next => .askRank id series :: (next (ranks.rank? id series)).moves ranks

/-- Goes on from a part of the name that has been read. -/
def follow (next : Bool → List Char → Dialogue) : Step → Dialogue
  | .decided answer => .done (.ok answer)
  | .onward inside rest => next inside rest

/-- Asks for a rank and goes on if it is the one the digits denote, and the name is right too. -/
def compareRank (id : NodeId) (series : RankSeries) (digits : List Char) (named : Bool) (next : Dialogue) :
    Dialogue :=
  match Segment.rank digits with
  | .error overflow => .done (.error overflow)
  | .ok wanted => .ask id series fun rank => if rank = some wanted ∧ named then next else .done (.ok false)

def enterAnonymous (id : NodeId) (inside : Bool) (rest : List Char) (next : Bool → List Char → Dialogue) :
    Dialogue :=
  .tell (.enterAnonymous id) <|
    match Segment.anonymous? rest with
    | none => .done (.ok false)
    | some (digits, rest) => compareRank id .anonymous digits true (next inside rest)

def enterLocal (id : NodeId) (name : String) (inside : Bool) (rest : List Char)
    (next : Bool → List Char → Dialogue) : Dialogue :=
  .tell (.enterLocal id) <|
    match Segment.localClass? rest with
    | none => .done (.ok false)
    | some (digits, start, rest) =>
      compareRank id .localClass digits (start.isPrefixOf name.toList) (next inside rest)

/-- Reads the part of a class that is neither in a block nor the body of a construction. -/
def enterClass (exact : Bool) (id : NodeId) (name : String) (inside : Bool) (rest : List Char)
    (next : Bool → List Char → Dialogue) : Dialogue :=
  if name.isEmpty then enterAnonymous id inside rest next
  else .tell (.compareName id) (follow next (readMember exact name inside rest))

/-- Reads one node, and then what follows. -/
def visit (exact : Bool) (above : Option Kind) (inside : Bool) (rest : List Char) (node : Node)
    (next : Bool → List Char → Dialogue) : Dialogue :=
  match node.kind with
  | .unit _ => follow next (readUnit node.kind.package? inside rest)
  | .classDecl name _ =>
    match above with
    | some (.construction _) => next inside rest
    | some .block => enterLocal node.id name inside rest next
    | _ => enterClass exact node.id name inside rest next
  | .construction body =>
    if rest.isEmpty then next true rest
    else if body.isSome then enterAnonymous node.id inside rest next
    else next inside rest
  | .method _ _ _ | .variable _ _ => if inside then .done (.ok false) else next inside rest
  | .block | .other _ => next inside rest

/-- Reads the nodes of a path in turn. -/
def along (exact : Bool) : (above : Option Kind) → (inside : Bool) → (rest : List Char) → List Node → Dialogue
  | _, _, rest, [] => .done (.ok rest.isEmpty)
  | above, inside, rest, node :: below =>
    .tell (.reach node.id) <|
      visit exact above inside rest node fun inside rest => along exact (some node.kind) inside rest below

end Dialogue

/-- The answer of a search once a node has been read. -/
def conclude (next : Bool → List Char → Verdict) : Except RankOverflow Step → Verdict
  | .error overflow => .error overflow
  | .ok (.decided answer) => .ok answer
  | .ok (.onward inside rest) => next inside rest

variable {ranks : RankIndex} {exact inside : Bool} {above : Option Kind} {rest : List Char}

/-- A search goes on below a node with what reading the node leaves. -/
theorem walk_cons (node : Node) (below : List Node) :
    walk ranks exact above inside rest (node :: below) =
      conclude (fun inside rest => walk ranks exact (some node.kind) inside rest below)
        (readNode ranks exact above inside rest node) := by
  rw [walk]
  cases readNode ranks exact above inside rest node with
  | error overflow => rfl
  | ok step => cases step <;> rfl

namespace Dialogue

variable {next : Bool → List Char → Dialogue}

section Outcome

/-- Going on from a part that has been read is what a search does. -/
theorem outcome_follow (step : Step) :
    (follow next step).outcome ranks = conclude (fun inside rest => (next inside rest).outcome ranks) (.ok step) := by
  cases step <;> rfl

/-- Asking for a rank and comparing it is looking it up. -/
theorem outcome_compareRank (id : NodeId) (series : RankSeries) (digits : List Char) (named : Bool) :
    (compareRank id series digits named (next inside rest)).outcome ranks =
      conclude (fun inside rest => (next inside rest).outcome ranks)
        ((Segment.rank digits).map fun wanted =>
          if ranks.rank? id series = some wanted ∧ named then .onward inside rest else .decided false) := by
  unfold compareRank
  cases Segment.rank digits with
  | error overflow => rfl
  | ok wanted =>
    dsimp only [outcome, Except.map]
    split <;> rfl

/-- The dialogue about an anonymous class comes to what reading the class does. -/
theorem outcome_enterAnonymous (id : NodeId) :
    (enterAnonymous id inside rest next).outcome ranks =
      conclude (fun inside rest => (next inside rest).outcome ranks) (readAnonymous ranks id inside rest) := by
  rw [enterAnonymous, outcome, readAnonymous]
  cases Segment.anonymous? rest with
  | none => rfl
  | some part =>
    obtain ⟨digits, rest⟩ := part
    dsimp only
    rw [outcome_compareRank]
    simp only [and_true]

/-- The same of a local class. -/
theorem outcome_enterLocal (id : NodeId) (name : String) :
    (enterLocal id name inside rest next).outcome ranks =
      conclude (fun inside rest => (next inside rest).outcome ranks) (readLocal ranks id name inside rest) := by
  rw [enterLocal, outcome, readLocal]
  cases Segment.localClass? rest with
  | none => rfl
  | some part =>
    obtain ⟨digits, start, rest⟩ := part
    exact outcome_compareRank id .localClass digits _

/-- The same of a class that is neither in a block nor the body of a construction. -/
theorem outcome_enterClass (id : NodeId) (name : String) :
    (enterClass exact id name inside rest next).outcome ranks =
      conclude (fun inside rest => (next inside rest).outcome ranks)
        (if name.isEmpty then readAnonymous ranks id inside rest
          else .ok (readMember exact name inside rest)) := by
  unfold enterClass
  split
  · exact outcome_enterAnonymous id
  · exact outcome_follow _

/-- The dialogue about a node reads it. -/
theorem outcome_visit (node : Node) :
    (visit exact above inside rest node next).outcome ranks =
      conclude (fun inside rest => (next inside rest).outcome ranks)
        (readNode ranks exact above inside rest node) := by
  rw [visit, readNode]
  cases node.kind with
  | unit package => exact outcome_follow _
  | classDecl name flavor =>
    dsimp only
    cases above with
    | none => exact outcome_enterClass node.id name
    | some aboveKind =>
      cases aboveKind with
      | construction body => rfl
      | block => exact outcome_enterLocal node.id name
      | _ => exact outcome_enterClass node.id name
  | construction body =>
    dsimp only
    split
    · rfl
    · split
      · exact outcome_enterAnonymous node.id
      · rfl
  | method name parameters receiver | «variable» name flagged =>
    dsimp only
    split <;> rfl
  | block | other label => rfl

/-- The dialogue about a path comes to what the search answers, whatever the ranks are. -/
theorem outcome_along (nodes : List Node) :
    (along exact above inside rest nodes).outcome ranks = walk ranks exact above inside rest nodes := by
  induction nodes generalizing above inside rest with
  | nil => rfl
  | cons node below ih =>
    rw [along, outcome, outcome_visit, walk_cons]
    simp only [ih]

end Outcome

/-- The moves that are made at a node, `above` being the kind of the node before it on the path. A rank is asked
for only if the name goes on with a number. -/
inductive Opening (above : Option Kind) (node : Node) : List Move → Prop where
  | localClass {asked : List Move} (hclass : node.kind.isClass = true) (habove : above = some .block)
      (hasked : ∀ move ∈ asked, move = .askRank node.id .localClass) :
      Opening above node (.enterLocal node.id :: asked)
  | anonymousClass {asked : List Move} (hname : node.kind.className? = some "") (hblock : above ≠ some .block)
      (hasked : ∀ move ∈ asked, move = .askRank node.id .anonymous) :
      Opening above node (.enterAnonymous node.id :: asked)
  | constructionBody {body : NodeId} {asked : List Move} (hkind : node.kind = .construction (some body))
      (hasked : ∀ move ∈ asked, move = .askRank node.id .anonymous) :
      Opening above node (.enterAnonymous node.id :: asked)
  | memberClass {name : String} (hname : node.kind.className? = some name) (hne : name ≠ "")
      (hblock : above ≠ some .block) : Opening above node [.compareName node.id]
  | silent (hsilent : node.kind.isClass = true → above.any Kind.isConstruction = true) : Opening above node []

/-- Moves that are over with the first of them, or go on as a dialogue does. -/
def Extends (ranks : RankIndex) (next : Bool → List Char → Dialogue) (opening moves : List Move) : Prop :=
  moves = opening ∨ ∃ inside rest, moves = opening ++ (next inside rest).moves ranks

section Moves

theorem Extends.cons {opening moves : List Move} (hextends : Extends ranks next opening moves) (move : Move) :
    Extends ranks next (move :: opening) (move :: moves) := by
  obtain rfl | ⟨inside, rest, rfl⟩ := hextends
  · exact .inl rfl
  · exact .inr ⟨inside, rest, rfl⟩

theorem extends_next (inside : Bool) (rest : List Char) :
    Extends ranks next [] ((next inside rest).moves ranks) :=
  .inr ⟨inside, rest, rfl⟩

theorem extends_follow (step : Step) : Extends ranks next [] ((follow next step).moves ranks) := by
  cases step with
  | decided answer => exact .inl rfl
  | onward inside rest => exact extends_next inside rest

/-- A comparison asks for its own rank, at most once, and then goes on or is over. -/
theorem moves_compareRank (id : NodeId) (series : RankSeries) (digits : List Char) (named : Bool) :
    ∃ asked, (∀ move ∈ asked, move = .askRank id series) ∧
      Extends ranks next asked ((compareRank id series digits named (next inside rest)).moves ranks) := by
  unfold compareRank
  cases Segment.rank digits with
  | error overflow => exact ⟨[], by simp, .inl rfl⟩
  | ok wanted =>
    refine ⟨[.askRank id series], by simp, Extends.cons ?_ _⟩
    dsimp only
    split
    · exact extends_next inside rest
    · exact .inl rfl

/-- A class that is taken for an anonymous one is asked for its anonymous rank, and for nothing else. -/
theorem moves_enterAnonymous (id : NodeId) : ∃ asked, (∀ move ∈ asked, move = .askRank id .anonymous) ∧
    Extends ranks next (.enterAnonymous id :: asked) ((enterAnonymous id inside rest next).moves ranks) := by
  rw [enterAnonymous, moves]
  cases Segment.anonymous? rest with
  | none => exact ⟨[], by simp, .inl rfl⟩
  | some part =>
    obtain ⟨asked, hasked, hextends⟩ := moves_compareRank id .anonymous part.1 true
    exact ⟨asked, hasked, hextends.cons _⟩

/-- A class that is taken for a local one is asked for its local rank, and for nothing else. -/
theorem moves_enterLocal (id : NodeId) (name : String) :
    ∃ asked, (∀ move ∈ asked, move = .askRank id .localClass) ∧
      Extends ranks next (.enterLocal id :: asked) ((enterLocal id name inside rest next).moves ranks) := by
  rw [enterLocal, moves]
  cases Segment.localClass? rest with
  | none => exact ⟨[], by simp, .inl rfl⟩
  | some part =>
    obtain ⟨asked, hasked, hextends⟩ :=
      moves_compareRank id .localClass part.1 (part.2.1.isPrefixOf name.toList)
    exact ⟨asked, hasked, hextends.cons _⟩

/-- A class outside blocks is opened as an anonymous class or as a member. -/
theorem moves_enterClass {node : Node} {name : String} (hname : node.kind.className? = some name)
    (hblock : above ≠ some .block) : ∃ opening, Opening above node opening ∧
      Extends ranks next opening ((enterClass exact node.id name inside rest next).moves ranks) := by
  unfold enterClass
  split
  · rename_i hempty
    obtain rfl := String.isEmpty_iff.mp hempty
    obtain ⟨asked, hasked, hextends⟩ := moves_enterAnonymous node.id
    exact ⟨_, .anonymousClass hname hblock hasked, hextends⟩
  · rename_i hempty
    exact ⟨_, .memberClass hname (by simpa using hempty) hblock, (extends_follow _).cons _⟩

/-- What the dialogue about a node starts with, and that it goes on with what follows if at all. -/
theorem moves_visit (node : Node) : ∃ opening, Opening above node opening ∧
    Extends ranks next opening ((visit exact above inside rest node next).moves ranks) := by
  unfold visit
  cases hkind : node.kind with
  | unit package => exact ⟨[], .silent (by simp [hkind, Kind.isClass]), extends_follow _⟩
  | classDecl name flavor =>
    have hname : node.kind.className? = some name := by rw [hkind, Kind.className?]
    dsimp only
    cases above with
    | none => exact moves_enterClass hname (by simp)
    | some aboveKind =>
      cases aboveKind with
      | construction body => exact ⟨[], .silent fun _ => rfl, extends_next inside rest⟩
      | block =>
        obtain ⟨asked, hasked, hextends⟩ := moves_enterLocal node.id name
        exact ⟨_, .localClass (Kind.isClass_of_className? hname) rfl hasked, hextends⟩
      | _ => exact moves_enterClass hname (by simp)
  | construction body =>
    have hsilent : Opening above node [] := .silent (by simp [hkind, Kind.isClass])
    dsimp only
    split
    · exact ⟨[], hsilent, extends_next true rest⟩
    · cases body with
      | none => exact ⟨[], hsilent, extends_next inside rest⟩
      | some body =>
        obtain ⟨asked, hasked, hextends⟩ := moves_enterAnonymous node.id
        exact ⟨_, .constructionBody hkind hasked, hextends⟩
  | method name parameters receiver | «variable» name flagged =>
    refine ⟨[], .silent (by simp [hkind, Kind.isClass]), ?_⟩
    dsimp only
    split
    · exact .inl rfl
    · exact extends_next inside rest
  | block | other label => exact ⟨[], .silent (by simp [hkind, Kind.isClass]), extends_next inside rest⟩

/-- What is done at a node does not lead to another. -/
theorem Opening.reach_notMem {node : Node} {opening : List Move} (hopening : Opening above node opening)
    (id : NodeId) : .reach id ∉ opening := by
  intro hreach
  cases hopening with
  | localClass _ _ hasked | anonymousClass _ _ hasked | constructionBody _ hasked =>
    obtain hfirst | hlater := List.mem_cons.mp hreach
    · cases hfirst
    · cases hasked _ hlater
  | memberClass _ _ _ => simp at hreach
  | silent _ => cases hreach

end Moves

end Dialogue

end BinaryName

namespace Tree

open BinaryName

variable {tree : Tree}

/-- A construction whose body is a class with a name. -/
def HasNamedBody (tree : Tree) (id : NodeId) : Prop :=
  ∃ body name flavor, tree.kind? id = some (.construction (some body)) ∧
    tree.kind? body = some (.classDecl name flavor) ∧ name ≠ ""

/-- Whether the ranks of a tree bear a move out. -/
def BearsOut (tree : Tree) : Move → Prop
  | .reach _ => True
  | .enterLocal id => (tree.ranks.rank? id .localClass).isSome = true
  | .enterAnonymous id => (tree.ranks.rank? id .anonymous).isSome = true ∨ tree.HasNamedBody id
  | .compareName id => tree.ranks.rank? id .localClass = none ∧ tree.ranks.rank? id .anonymous = none
  | .askRank id series => tree.ranks.rank? id series = none ↔ tree.HasNamedBody id

/-- Moves that the ranks bear out, and that take every class they reach for something, but for the bodies of
constructions. -/
structure Faithful (tree : Tree) (moves : List Move) : Prop where
  bornOut : ∀ move ∈ moves, tree.BearsOut move
  taken : ∀ node, tree.node? node.id = some node → node.kind.isClass = true →
    (node.parent.bind tree.kind?).any Kind.isConstruction = false → .reach node.id ∈ moves →
    .enterLocal node.id ∈ moves ∨ .enterAnonymous node.id ∈ moves ∨ .compareName node.id ∈ moves

theorem Faithful.append {front moves : List Move} (hfront : tree.Faithful front) (hmoves : tree.Faithful moves) :
    tree.Faithful (front ++ moves) where
  bornOut move hmove := (List.mem_append.mp hmove).elim (hfront.bornOut move) (hmoves.bornOut move)
  taken node hnode hclass hparent hreach := by
    simp only [List.mem_append]
    obtain hreach | hreach := List.mem_append.mp hreach
    · have htaken := hfront.taken node hnode hclass hparent hreach
      tauto
    · have htaken := hmoves.taken node hnode hclass hparent hreach
      tauto

/-- Whether the body of a construction has a name, once the body is known. -/
theorem hasNamedBody_iff {id body : NodeId} {name : String} {flavor : Flavor}
    (hkind : tree.kind? id = some (.construction (some body)))
    (hbody : tree.kind? body = some (.classDecl name flavor)) : tree.HasNamedBody id ↔ name ≠ "" := by
  constructor
  · rintro ⟨body', name', flavor', hkind', hbody', hne⟩
    rw [hkind] at hkind'
    cases hkind'
    rw [hbody] at hbody'
    cases hbody'
    exact hne
  · intro hne
    exact ⟨body, name, flavor, hkind, hbody, hne⟩

/-- A class is no construction, with or without a named body. -/
theorem not_hasNamedBody_of_isClass {node : Node} (hnode : tree.node? node.id = some node)
    (hclass : node.kind.isClass = true) : ¬ tree.HasNamedBody node.id := by
  rintro ⟨body, name, flavor, hkind, -⟩
  rw [kind?, hnode, Option.map_some, Option.some.injEq] at hkind
  have hconstruction : node.kind.isConstruction = true := by rw [hkind, Kind.isConstruction]
  rw [Kind.isClass_of_isConstruction hconstruction] at hclass
  cases hclass

/-- The rank of a construction is missing just when its body has a name. -/
theorem WellFormed.rank?_construction_eq_none_iff (hwf : tree.WellFormed) {node : Node} {body : NodeId}
    (hnode : tree.node? node.id = some node) (hkind : node.kind = .construction (some body)) :
    tree.ranks.rank? node.id .anonymous = none ↔ tree.HasNamedBody node.id := by
  have hconstruction : node.kind.isConstruction = true := by rw [hkind, Kind.isConstruction]
  have hwired : node.kind.body? = some body := by rw [hkind, Kind.body?]
  obtain ⟨child, hchild, hparent, hclass⟩ := (hwf.body_iff hnode hconstruction body).mp hwired
  obtain ⟨name, hname⟩ := Kind.className?_of_isClass hclass
  obtain ⟨flavor, hchildKind⟩ := Kind.className?_eq_some_iff.mp hname
  have hkindAt : tree.kind? node.id = some (.construction (some body)) := by
    rw [kind?, hnode, Option.map_some, hkind]
  have hbodyAt : tree.kind? body = some (.classDecl name flavor) := by
    rw [kind?, hchild, Option.map_some, hchildKind]
  have hseries : tree.series? child = if name = "" then some .anonymous else none := by
    simp [series?, hchildKind, hparent, hkindAt, String.isEmpty_iff]
  rw [hwf.rank?_construction hnode hwired, hwf.rank?_class hchild hclass, hseries,
    hasNamedBody_iff hkindAt hbodyAt]
  by_cases hempty : name = ""
  · simp [hempty]
  · simp [hempty]

namespace Linked

variable {above node : Node} {below : List Node} {opening : List Move}

/-- What the search reads off the node before a class, the ranks read off its parent. -/
theorem rank?_eq (hwf : tree.WellFormed) (hlinked : tree.Linked (above :: node :: below)) {name : String}
    (hname : node.kind.className? = some name) (series : RankSeries) :
    tree.ranks.rank? node.id series =
      if (if above.kind = .block then some .localClass else if name = "" then some .anonymous else none) =
        some series then some (tree.rank node.id) else none := by
  rw [hwf.rank?_class (hlinked.known node (by simp)) (Kind.isClass_of_className? hname),
    hlinked.series?_eq hname]

/-- A class is rightly asked for a rank that it has. -/
theorem bearsOut_askRank (hlinked : tree.Linked (node :: below)) (hclass : node.kind.isClass = true)
    {series : RankSeries} (hrank : (tree.ranks.rank? node.id series).isSome = true) :
    tree.BearsOut (.askRank node.id series) := by
  constructor
  · intro hnone
    rw [hnone] at hrank
    cases hrank
  · intro hnamed
    exact absurd hnamed (not_hasNamedBody_of_isClass (hlinked.known node List.mem_cons_self) hclass)

/-- The ranks bear out the moves made at a node below another one. -/
theorem bearsOut_opening (hwf : tree.WellFormed) (hlinked : tree.Linked (above :: node :: below))
    (hopening : Dialogue.Opening (some above.kind) node opening) : ∀ move ∈ opening, tree.BearsOut move := by
  intro move hmove
  cases hopening with
  | localClass hclass habove hasked =>
    obtain ⟨name, hname⟩ := Kind.className?_of_isClass hclass
    have hrank : (tree.ranks.rank? node.id .localClass).isSome = true := by
      rw [hlinked.rank?_eq hwf hname, if_pos (Option.some.inj habove), if_pos rfl, Option.isSome_some]
    obtain rfl | hmove := List.mem_cons.mp hmove
    · exact hrank
    · rw [hasked move hmove]
      exact hlinked.tail.bearsOut_askRank hclass hrank
  | anonymousClass hname hblock hasked =>
    have hrank : (tree.ranks.rank? node.id .anonymous).isSome = true := by
      rw [hlinked.rank?_eq hwf hname, if_neg (mt (congrArg some) hblock), if_pos rfl, if_pos rfl,
        Option.isSome_some]
    obtain rfl | hmove := List.mem_cons.mp hmove
    · exact .inl hrank
    · rw [hasked move hmove]
      exact hlinked.tail.bearsOut_askRank (Kind.isClass_of_className? hname) hrank
  | constructionBody hkind hasked =>
    have hnone := hwf.rank?_construction_eq_none_iff (hlinked.known node (by simp)) hkind
    obtain rfl | hmove := List.mem_cons.mp hmove
    · rw [BearsOut, ← hnone, Option.isSome_iff_ne_none]
      exact (em _).symm
    · rw [hasked move hmove]
      exact hnone
  | memberClass hname hne hblock =>
    rw [List.mem_singleton.mp hmove, BearsOut, hlinked.rank?_eq hwf hname, hlinked.rank?_eq hwf hname,
      if_neg (mt (congrArg some) hblock), if_neg hne]
    exact ⟨rfl, rfl⟩
  | silent _ => cases hmove

/-- The moves made at a node below another one are faithful. -/
theorem faithful_opening (hwf : tree.WellFormed) (hlinked : tree.Linked (above :: node :: below))
    (hopening : Dialogue.Opening (some above.kind) node opening) :
    tree.Faithful (.reach node.id :: opening) where
  bornOut move hmove := by
    obtain rfl | hmove := List.mem_cons.mp hmove
    · trivial
    · exact hlinked.bearsOut_opening hwf hopening move hmove
  taken other hother hclass hparent hreach := by
    obtain hreach | hreach := List.mem_cons.mp hreach
    · have hsame : other = node := by
        rw [Move.reach.inj hreach, hlinked.known node (by simp)] at hother
        exact (Option.some.inj hother).symm
      subst hsame
      rw [hlinked.parent_kind] at hparent
      cases hopening with
      | localClass _ _ _ => simp
      | anonymousClass _ _ _ => simp
      | constructionBody _ _ => simp
      | memberClass _ _ _ => simp
      | silent hsilent =>
        rw [hsilent hclass] at hparent
        cases hparent
    · exact absurd hreach (hopening.reach_notMem other.id)

/-- The moves of a search below a node are faithful, by what is made at each node in turn. -/
theorem faithful_along (hwf : tree.WellFormed) (hlinked : tree.Linked (above :: below)) {exact inside : Bool}
    {rest : List Char} :
    tree.Faithful ((Dialogue.along exact (some above.kind) inside rest below).moves tree.ranks) := by
  induction below generalizing above inside rest with
  | nil => exact ⟨by simp [Dialogue.along, Dialogue.moves], by simp [Dialogue.along, Dialogue.moves]⟩
  | cons node below ih =>
    rw [Dialogue.along, Dialogue.moves]
    obtain ⟨opening, hopening, hextends⟩ := Dialogue.moves_visit node
    have hfirst := hlinked.faithful_opening hwf hopening
    obtain hover | ⟨inside, rest, honward⟩ := hextends
    · rw [hover]
      exact hfirst
    · rw [honward]
      exact hfirst.append (ih hlinked.tail)

end Linked

/-- A search for a class on the path to a node, as a dialogue. -/
def search (tree : Tree) (name : String) (exact : Bool) (id : NodeId) : Dialogue :=
  .along exact none false name.toList (tree.lineage id)

/-- A search that has reached the unit only has taken nothing for a class. -/
theorem faithful_reach_of_isUnit {root : Node} (hroot : tree.node? root.id = some root)
    (hunit : root.kind.isUnit = true) : tree.Faithful [.reach root.id] where
  bornOut move hmove := by
    rw [List.mem_singleton.mp hmove]
    trivial
  taken node hnode hclass _ hreach := by
    rw [Move.reach.inj (List.mem_singleton.mp hreach), hroot] at hnode
    rw [← Option.some.inj hnode, Kind.isClass_of_isUnit hunit] at hclass
    cases hclass

/-- The moves of a search are faithful. At the root, which is no class, it makes none but to reach it. -/
theorem WellFormed.faithful_search (hwf : tree.WellFormed) (name : String) (exact : Bool) {id : NodeId}
    (hid : id < tree.size) : tree.Faithful ((tree.search name exact id).moves tree.ranks) := by
  have hlinked := hwf.linked_lineage id
  obtain ⟨root, below, hlineage, -, hunit⟩ := hwf.exists_lineage_eq_cons hid
  rw [hlineage] at hlinked
  obtain ⟨package, hkind⟩ := Kind.isUnit_iff.mp hunit
  have hroot := faithful_reach_of_isUnit (hlinked.known root List.mem_cons_self) hunit
  simp only [search, hlineage, Dialogue.along, Dialogue.moves, Dialogue.visit, hkind]
  obtain hover | ⟨inside, rest, honward⟩ := Dialogue.extends_follow
    (readUnit (Kind.unit package).package? false name.toList)
  · rw [hover]
    exact hroot
  · rw [honward, ← hkind]
    exact hroot.append (hlinked.faithful_along hwf)

/-- A search and the ranks classify alike. The search is the dialogue. It asks for no rank that there is not, but for
that of a construction whose body has a name. And a class that it reaches, and that is not the body of a construction,
it takes for a local class, an anonymous class or a member just as the ranks do. -/
theorem search_classifies_as_ranks (htree : tree.Grown) (name : String) (exact : Bool) {leaf : NodeId}
    (hleaf : leaf < tree.size) :
    (∀ ranks, (tree.search name exact leaf).outcome ranks =
      (Criterion.inClass name exact).holds ranks (tree.path? leaf)) ∧
    (∀ id series, .askRank id series ∈ (tree.search name exact leaf).moves tree.ranks →
      (tree.ranks.rank? id series = none ↔ tree.HasNamedBody id)) ∧
    ∀ node ∈ tree.lineage leaf, node.kind.isClass = true →
      (node.parent.bind tree.kind?).any Kind.isConstruction = false →
      .reach node.id ∈ (tree.search name exact leaf).moves tree.ranks →
      (.enterLocal node.id ∈ (tree.search name exact leaf).moves tree.ranks ↔
        (tree.ranks.rank? node.id .localClass).isSome = true) ∧
      (.enterAnonymous node.id ∈ (tree.search name exact leaf).moves tree.ranks ↔
        (tree.ranks.rank? node.id .anonymous).isSome = true) ∧
      (.compareName node.id ∈ (tree.search name exact leaf).moves tree.ranks ↔
        tree.ranks.rank? node.id .localClass = none ∧ tree.ranks.rank? node.id .anonymous = none) := by
  have hwf := htree.wellFormed
  have hfaithful := hwf.faithful_search name exact hleaf
  refine ⟨?_, fun id series hask => hfaithful.bornOut _ hask, ?_⟩
  · intro ranks
    rw [search, Dialogue.outcome_along, hwf.holds_inClass hleaf]
  · intro node hnode hclass hparent hreach
    have hknown := (hwf.linked_lineage leaf).known node hnode
    have hlocal := hfaithful.bornOut (.enterLocal node.id)
    have hanonymous : .enterAnonymous node.id ∈ (tree.search name exact leaf).moves tree.ranks →
        (tree.ranks.rank? node.id .anonymous).isSome = true := fun hmove =>
      (hfaithful.bornOut _ hmove).resolve_right (not_hasNamedBody_of_isClass hknown hclass)
    have hmember := hfaithful.bornOut (.compareName node.id)
    have htaken := hfaithful.taken node hknown hclass hparent hreach
    have hexclusive := hwf.rank?_exclusive node.id
    simp only [BearsOut] at hlocal hmember
    -- The class is taken for one of the three, and what the ranks say of each excludes the others.
    grind

/-- A method in whose block an object is made of a class with a name, and a local class is declared. -/
def namedBody : Tree :=
  (unit none).pushed [(0, .classDecl "A" .ordinary), (1, .method "m" [] none), (2, .block), (3, .construction none),
    (4, .classDecl "B" .ordinary), (3, .classDecl "L" .ordinary)]

theorem search_classifies_namedBody :
    .askRank 4 .anonymous ∈ (namedBody.search "A$0" true 5).moves namedBody.ranks ∧ namedBody.HasNamedBody 4 ∧
    ⟨6, some 3, [], .classDecl "L" .ordinary⟩ ∈ namedBody.lineage 6 ∧
    .reach 6 ∈ (namedBody.search "A$0L" true 6).moves namedBody.ranks ∧
    .enterLocal 6 ∈ (namedBody.search "A$0L" true 6).moves namedBody.ranks ∧
    (namedBody.ranks.rank? 6 .localClass).isSome = true := by
  have htree : namedBody.Grown := Grown.pushed (.unit none) _
  have hmissing : .askRank 4 .anonymous ∈ (namedBody.search "A$0" true 5).moves namedBody.ranks := by
    decide +kernel
  have hnode : ⟨6, some 3, [], .classDecl "L" .ordinary⟩ ∈ namedBody.lineage 6 := by decide +kernel
  have hreach : .reach 6 ∈ (namedBody.search "A$0L" true 6).moves namedBody.ranks := by decide +kernel
  have hlocal : .enterLocal 6 ∈ (namedBody.search "A$0L" true 6).moves namedBody.ranks := by decide +kernel
  have hasked := (search_classifies_as_ranks htree "A$0" true (by decide +kernel)).2.1 4 .anonymous hmissing
  have htaken := (search_classifies_as_ranks htree "A$0L" true (by decide +kernel)).2.2 _ hnode rfl
    (by decide +kernel) hreach
  exact ⟨hmissing, hasked.mp (by decide +kernel), hnode, hreach, hlocal, htaken.1.mp hlocal⟩

end Tree

end Pinpoint
