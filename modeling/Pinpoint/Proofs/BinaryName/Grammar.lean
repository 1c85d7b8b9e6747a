import Mathlib.Data.List.Basic
import Mathlib.Tactic.Common
import Pinpoint.BinaryName.Reading
import Pinpoint.Criterion.Basic
import Pinpoint.Proofs.BinaryName.Rank
import Pinpoint.Proofs.BinaryName.Segment

namespace Pinpoint

/-- A method or a variable. -/
def Kind.isMember (kind : Kind) : Bool := kind.isMethod || kind.isVariable

theorem Kind.isUnit_of_package? {kind : Kind} {package : String}
    (hpackage : kind.package? = some package) : kind.isUnit = true := by
  cases kind <;> first | rfl | cases hpackage

theorem Kind.isClass_of_isUnit {kind : Kind} (hunit : kind.isUnit = true) : kind.isClass = false := by
  cases kind <;> first | rfl | cases hunit

theorem Kind.isConstruction_of_isUnit {kind : Kind} (hunit : kind.isUnit = true) :
    kind.isConstruction = false := by
  cases kind <;> first | rfl | cases hunit

theorem Kind.isUnit_of_isClass {kind : Kind} (hclass : kind.isClass = true) : kind.isUnit = false := by
  cases kind <;> first | rfl | cases hclass

theorem Kind.isUnit_of_isConstruction {kind : Kind} (hconstruction : kind.isConstruction = true) :
    kind.isUnit = false := by
  cases kind <;> first | rfl | cases hconstruction

theorem Kind.isConstruction_of_isClass {kind : Kind} (hclass : kind.isClass = true) :
    kind.isConstruction = false := by
  cases kind <;> first | rfl | cases hclass

theorem Kind.isClass_of_isConstruction {kind : Kind} (hconstruction : kind.isConstruction = true) :
    kind.isClass = false := by
  cases kind <;> first | rfl | cases hconstruction

namespace BinaryName

/-- What may follow the simple name of a class: the end of the name, or a separator. -/
inductive NameEnds : (tail rest : List Char) → Prop where
  | last : NameEnds [] []
  | separator {c : Char} {rest : List Char} (hc : c = '$' ∨ c = '.') : NameEnds (c :: rest) rest

/-- The part of a name that a node consumes, `above` being the kind of the node before it on the path, and
the rest that it leaves. -/
inductive Consumes (ranks : RankIndex) (above : Option Kind) (node : Node) :
    (name rest : List Char) → Prop where
  /-- A file in a package consumes the package and a dot. -/
  | package {package : String} {rest : List Char} (hpackage : node.kind.package? = some package) :
      Consumes ranks above node (package.toList ++ '.' :: rest) rest
  /-- A class of a block consumes its rank and a start of its name. -/
  | localClass {name : String} {flavor : Flavor} {rank : Nat} {digits start tail rest : List Char}
      (hkind : node.kind = .classDecl name flavor) (habove : above = some .block)
      (hrank : ranks.rank? node.id .localClass = some rank) (hdigits : Denotes digits rank)
      (hstart : start ≠ []) (hdollar : '$' ∉ start) (hname : start <+: name.toList)
      (hlongest : Segment.Longest digits start) (hends : Segment.Ends tail rest) :
      Consumes ranks above node (digits ++ start ++ tail) rest
  /-- A class without a name consumes its rank, unless it is the body of a construction. -/
  | anonymousClass {flavor : Flavor} {rank : Nat} {digits tail rest : List Char}
      (hkind : node.kind = .classDecl "" flavor) (hblock : above ≠ some .block)
      (hbody : above.any Kind.isConstruction = false)
      (hrank : ranks.rank? node.id .anonymous = some rank) (hdigits : Denotes digits rank)
      (hends : Segment.Ends tail rest) :
      Consumes ranks above node (digits ++ tail) rest
  /-- A construction consumes the rank of its body while something of the name is left. -/
  | constructionBody {body : NodeId} {rank : Nat} {digits tail rest : List Char}
      (hkind : node.kind = .construction (some body))
      (hrank : ranks.rank? body .anonymous = some rank) (hdigits : Denotes digits rank)
      (hends : Segment.Ends tail rest) :
      Consumes ranks above node (digits ++ tail) rest
  /-- Any other class consumes its name, unless it is the body of a construction. -/
  | memberClass {name : String} {flavor : Flavor} {tail rest : List Char}
      (hkind : node.kind = .classDecl name flavor) (hname : name ≠ "") (hblock : above ≠ some .block)
      (hbody : above.any Kind.isConstruction = false) (hends : NameEnds tail rest) :
      Consumes ranks above node (name.toList ++ tail) rest
  /-- A file outside every package consumes nothing. -/
  | noPackage {name : List Char} (hunit : node.kind.isUnit = true)
      (hpackage : node.kind.package? = none) : Consumes ranks above node name name
  /-- The body of a construction consumes nothing: the construction has done so. -/
  | body {name : List Char} (hclass : node.kind.isClass = true)
      (habove : above.any Kind.isConstruction = true) : Consumes ranks above node name name
  /-- A construction where nothing of the name is left consumes nothing. -/
  | spent (hconstruction : node.kind.isConstruction = true) : Consumes ranks above node [] []
  /-- A construction without a body consumes nothing. -/
  | bodyless {name : List Char} (hkind : node.kind = .construction none) :
      Consumes ranks above node name name
  /-- Methods, variables, blocks and all else consume nothing. -/
  | plain {name : List Char} (hunit : node.kind.isUnit = false) (hclass : node.kind.isClass = false)
      (hconstruction : node.kind.isConstruction = false) : Consumes ranks above node name name

/-- A name that the nodes of a path consume completely. No method or variable may come after a
construction that is reached when the name is used up: it would be a member of a class inside the
named one. -/
inductive Spells (ranks : RankIndex) : (above : Option Kind) → List Node → (name : List Char) → Prop where
  | nil {above : Option Kind} : Spells ranks above [] []
  | cons {above : Option Kind} {node : Node} {nodes : List Node} {name rest : List Char}
      (hnode : Consumes ranks above node name rest)
      (hquiet : node.kind.isConstruction = true → name = [] →
        ∀ below ∈ nodes, below.kind.isMember = false)
      (hnodes : Spells ranks (some node.kind) nodes rest) :
      Spells ranks above (node :: nodes) name

/-- An index of 32-bit ranks that answers for a construction as for its body. -/
structure Suits (ranks : RankIndex) (nodes : List Node) : Prop where
  fits : ∀ {id series rank}, ranks.rank? id series = some rank → rank < UInt32.size
  body : ∀ node ∈ nodes, ∀ body, node.kind.body? = some body →
    ranks.rank? node.id .anonymous = ranks.rank? body .anonymous

section Reading

variable {ranks : RankIndex} {above : Option Kind} {inside inside' : Bool} {name rest : List Char}

/-- A unit is passed with its package and a dot taken off, or with nothing taken off if it has no package. -/
theorem readUnit_eq_onward_iff {package : Option String} :
    readUnit package inside name = .onward inside' rest ↔ inside' = inside ∧
      match package with
      | none => rest = name
      | some package => name = package.toList ++ '.' :: rest := by
  cases package with
  | none => simp [readUnit, eq_comm]
  | some package =>
    rw [readUnit]
    cases hafter : Text.after? (package.toList ++ ['.']) name with
    | none =>
      have hne : ¬ name = package.toList ++ '.' :: rest := by
        rintro rfl
        have hsome := Text.after?_append (package.toList ++ ['.']) rest
        rw [List.append_assoc, List.singleton_append, hafter] at hsome
        cases hsome
      simp [hne]
    | some after =>
      rw [Text.after?_eq_some_iff] at hafter
      subst hafter
      simp [eq_comm]

theorem nameEnds_nil_iff : NameEnds [] rest ↔ rest = [] := by
  constructor
  · intro h
    cases h
    rfl
  · rintro rfl
    exact .last

theorem nameEnds_cons_iff {c : Char} {after : List Char} :
    NameEnds (c :: after) rest ↔ (c = '$' ∨ c = '.') ∧ after = rest := by
  constructor
  · intro h
    cases h with
    | separator hc => exact ⟨hc, rfl⟩
  · rintro ⟨hc, rfl⟩
    exact .separator hc

/-- An exact search passes a class with a name of its own where its name is followed by what may follow one. -/
theorem readMember_eq_onward_iff {className : String} :
    readMember true className inside name = .onward inside' rest ↔
      inside' = inside ∧ ∃ tail, name = className.toList ++ tail ∧ NameEnds tail rest := by
  unfold readMember
  by_cases hlast : name = className.toList
  · subst hlast
    simp [nameEnds_nil_iff, eq_comm]
  · rw [if_neg hlast]
    cases hafter : Text.after? className.toList name with
    | none =>
      have hne : ∀ tail, name ≠ className.toList ++ tail := by
        rintro tail rfl
        rw [Text.after?_append] at hafter
        cases hafter
      simp [hne]
    | some after =>
      rw [Text.after?_eq_some_iff] at hafter
      subst hafter
      cases after with
      | nil => exact absurd (List.append_nil _) hlast
      | cons c after =>
        by_cases hc : c = '$' ∨ c = '.'
        · simp [hc, nameEnds_cons_iff, eq_comm]
        · simp [hc, nameEnds_cons_iff]

/-- The name of a class never settles an exact search in its favour, since the innermost class has to be the
named one. -/
theorem readMember_ne_decided_true {className : String} :
    readMember true className inside name ≠ .decided true := by
  unfold readMember
  split
  · simp
  · split
    · split <;> simp
    · simp

/-- Going on once a rank has been read means that the rank meets its condition. -/
theorem rank_map_eq_onward_iff {digits after : List Char} {wants : Nat → Prop} [DecidablePred wants] :
    ((Segment.rank digits).map fun wanted =>
        if wants wanted then Step.onward inside after else .decided false) =
      .ok (.onward inside' rest) ↔
    inside' = inside ∧ after = rest ∧ ∃ wanted, Segment.rank digits = .ok wanted ∧ wants wanted := by
  cases hrank : Segment.rank digits with
  | error overflow => simp [Except.map]
  | ok wanted =>
    rw [Except.map]
    by_cases hwants : wants wanted
    · simp [hwants, eq_comm]
    · simp [hwants]

/-- The same of a rank. -/
theorem rank_map_ne_decided_true {digits after : List Char} {wants : Nat → Prop}
    [DecidablePred wants] :
    ((Segment.rank digits).map fun wanted =>
        if wants wanted then Step.onward inside after else .decided false) ≠ .ok (.decided true) := by
  cases Segment.rank digits with
  | error overflow => simp [Except.map]
  | ok wanted =>
    rw [Except.map]
    split <;> simp

/-- An anonymous class is passed with digits that denote its rank taken off, up to the next dollar sign. -/
theorem readAnonymous_eq {id : NodeId} {rank : Nat} {digits tail : List Char}
    (hrank : ranks.rank? id .anonymous = some rank) (hfits : rank < UInt32.size)
    (hdigits : Denotes digits rank) (hends : Segment.Ends tail rest) :
    readAnonymous ranks id inside (digits ++ tail) = .ok (.onward inside rest) := by
  obtain ⟨hne, hdecimal, hvalue⟩ := hdigits
  rw [readAnonymous, Segment.anonymous?_eq_some_iff.mpr ⟨hne, hdecimal, tail, rfl, hends⟩]
  exact rank_map_eq_onward_iff.mpr
    ⟨rfl, rfl, rank, Segment.rank_eq_ok_iff.mpr ⟨hvalue, hfits⟩, hrank⟩

/-- An anonymous class is passed in no other way. -/
theorem of_readAnonymous {id : NodeId}
    (hread : readAnonymous ranks id inside name = .ok (.onward inside' rest)) :
    inside' = inside ∧ ∃ digits rank tail, ranks.rank? id .anonymous = some rank ∧
      Denotes digits rank ∧ name = digits ++ tail ∧ Segment.Ends tail rest := by
  unfold readAnonymous at hread
  cases hsegment : Segment.anonymous? name with
  | none => simp [hsegment] at hread
  | some segment =>
    obtain ⟨digits, after⟩ := segment
    simp only [hsegment] at hread
    obtain ⟨rfl, rfl, rank, hrank, hindex⟩ := rank_map_eq_onward_iff.mp hread
    obtain ⟨hne, hdecimal, tail, hname, hends⟩ := Segment.anonymous?_eq_some_iff.mp hsegment
    exact ⟨rfl, digits, rank, tail, hindex,
      ⟨hne, hdecimal, (Segment.rank_eq_ok_iff.mp hrank).1⟩, hname, hends⟩

theorem readAnonymous_ne_decided_true {id : NodeId} :
    readAnonymous ranks id inside name ≠ .ok (.decided true) := by
  unfold readAnonymous
  split
  · simp
  · exact rank_map_ne_decided_true

/-- A local class is passed with digits that denote its rank and a start of its name taken off. -/
theorem readLocal_eq {id : NodeId} {className : String} {rank : Nat} {digits start tail : List Char}
    (hrank : ranks.rank? id .localClass = some rank) (hfits : rank < UInt32.size)
    (hdigits : Denotes digits rank) (hstart : start ≠ []) (hdollar : '$' ∉ start)
    (hname : start <+: className.toList) (hlongest : Segment.Longest digits start)
    (hends : Segment.Ends tail rest) :
    readLocal ranks id className inside (digits ++ start ++ tail) = .ok (.onward inside rest) := by
  obtain ⟨hne, hdecimal, hvalue⟩ := hdigits
  rw [readLocal, Segment.localClass?_eq_some_iff.mpr
    ⟨hne, hdecimal, hstart, hdollar, hlongest, tail, rfl, hends⟩]
  exact rank_map_eq_onward_iff.mpr ⟨rfl, rfl, rank, Segment.rank_eq_ok_iff.mpr ⟨hvalue, hfits⟩, hrank,
    List.isPrefixOf_iff_prefix.mpr hname⟩

/-- A local class is passed in no other way. -/
theorem of_readLocal {id : NodeId} {className : String}
    (hread : readLocal ranks id className inside name = .ok (.onward inside' rest)) :
    inside' = inside ∧ ∃ digits start rank tail, ranks.rank? id .localClass = some rank ∧
      Denotes digits rank ∧ start ≠ [] ∧ '$' ∉ start ∧ start <+: className.toList ∧
      Segment.Longest digits start ∧ name = digits ++ start ++ tail ∧ Segment.Ends tail rest := by
  unfold readLocal at hread
  cases hsegment : Segment.localClass? name with
  | none => simp [hsegment] at hread
  | some segment =>
    obtain ⟨digits, start, after⟩ := segment
    simp only [hsegment] at hread
    obtain ⟨rfl, rfl, rank, hrank, hindex, hprefix⟩ := rank_map_eq_onward_iff.mp hread
    obtain ⟨hne, hdecimal, hstart, hdollar, hlongest, tail, hname, hends⟩ :=
      Segment.localClass?_eq_some_iff.mp hsegment
    exact ⟨rfl, digits, start, rank, tail, hindex,
      ⟨hne, hdecimal, (Segment.rank_eq_ok_iff.mp hrank).1⟩, hstart, hdollar,
      List.isPrefixOf_iff_prefix.mp hprefix, hlongest, hname, hends⟩

theorem readLocal_ne_decided_true {id : NodeId} {className : String} :
    readLocal ranks id className inside name ≠ .ok (.decided true) := by
  unfold readLocal
  split
  · simp
  · exact rank_map_ne_decided_true

section Node

variable {exact : Bool} {node : Node} {className : String} {flavor : Flavor}

theorem readNode_unit (hunit : node.kind.isUnit = true) :
    readNode ranks exact above inside name node = .ok (readUnit node.kind.package? inside name) := by
  obtain ⟨id, parent, children, kind⟩ := node
  cases kind with
  | unit package => rfl
  | _ => cases hunit

/-- The body of a construction takes nothing off, since the construction has. -/
theorem readNode_body (hclass : node.kind.isClass = true)
    (habove : above.any Kind.isConstruction = true) :
    readNode ranks exact above inside name node = .ok (.onward inside name) := by
  obtain ⟨id, parent, children, kind⟩ := node
  cases kind with
  | classDecl className flavor =>
    cases above with
    | none => cases habove
    | some aboveKind =>
      cases aboveKind with
      | construction body => rfl
      | _ => cases habove
  | _ => cases hclass

/-- A class with a name is local directly in a block. -/
theorem readNode_local (hkind : node.kind = .classDecl className flavor) :
    readNode ranks exact (some .block) inside name node =
      readLocal ranks node.id className inside name := by
  simp only [readNode, hkind]

/-- A class that is neither local nor the body of a construction has a name of its own or is read as an
anonymous one. -/
theorem readNode_class (hkind : node.kind = .classDecl className flavor) (hblock : above ≠ some .block)
    (hbody : above.any Kind.isConstruction = false) :
    readNode ranks exact above inside name node =
      if className.isEmpty then readAnonymous ranks node.id inside name
      else .ok (readMember exact className inside name) := by
  cases above with
  | none => simp only [readNode, hkind]
  | some aboveKind =>
    cases aboveKind with
    | construction body => cases hbody
    | block => exact absurd rfl hblock
    | _ => simp only [readNode, hkind]

/-- A construction is read for its body, unless the name has been used up before it. -/
theorem readNode_construction {body : Option NodeId} (hkind : node.kind = .construction body) :
    readNode ranks exact above inside name node =
      if name.isEmpty then .ok (.onward true name)
      else if body.isSome then readAnonymous ranks node.id inside name
      else .ok (.onward inside name) := by
  simp only [readNode, hkind]

/-- Other nodes take nothing off, but inside a construction that the named class holds a member ends the search. -/
theorem readNode_plain (hunit : node.kind.isUnit = false) (hclass : node.kind.isClass = false)
    (hconstruction : node.kind.isConstruction = false) :
    readNode ranks exact above inside name node =
      .ok (if inside = true ∧ node.kind.isMember = true then .decided false
        else .onward inside name) := by
  obtain ⟨id, parent, children, kind⟩ := node
  cases kind with
  | unit package => cases hunit
  | classDecl className flavor => cases hclass
  | construction body => cases hconstruction
  | method methodName parameters receiver | «variable» variableName flagged =>
    simp [readNode, Kind.isMember, Kind.isMethod, Kind.isVariable]
  | block | other label =>
    simp [readNode, Kind.isMember, Kind.isMethod, Kind.isVariable]

/-- Whether a class is reached with just its own name left. -/
def isNamedBy (above : Option Kind) (node : Node) (name : List Char) : Bool :=
  above ≠ some .block && !above.any Kind.isConstruction &&
    node.kind.className?.any fun className => className ≠ "" && name = className.toList

theorem exists_className_of_isNamedBy (hnamed : isNamedBy above node name = true) :
    ∃ className, node.kind.className? = some className ∧ className ≠ "" ∧ name = className.toList := by
  rw [isNamedBy, Bool.and_eq_true, Option.any_eq_true] at hnamed
  obtain ⟨-, className, hname, hown⟩ := hnamed
  rw [Bool.and_eq_true, decide_eq_true_eq, decide_eq_true_eq] at hown
  exact ⟨className, hname, hown⟩

/-- A search at any depth reads nodes as an exact one does, but is over at the class it is about. -/
theorem readNode_inexact : readNode ranks false above inside name node =
    if isNamedBy above node name then .ok (.decided true)
    else readNode ranks true above inside name node := by
  cases hkind : node.kind with
  | classDecl className flavor =>
    have hclass : node.kind.isClass = true := by rw [hkind, Kind.isClass]
    cases habove : above.any Kind.isConstruction with
    | true => simp [readNode_body hclass habove, isNamedBy, habove]
    | false =>
      by_cases hblock : above = some .block
      · rw [hblock, readNode_local hkind, readNode_local hkind]
        simp [isNamedBy]
      · rw [readNode_class hkind hblock habove, readNode_class hkind hblock habove]
        by_cases hempty : className = ""
        · simp [hempty, isNamedBy, hkind, Kind.className?]
        · by_cases hname : name = className.toList
          · simp [isNamedBy, hblock, habove, hkind, Kind.className?, hempty, hname, readMember]
          · simp [isNamedBy, hkind, Kind.className?, hempty, hname, readMember]
  | _ => simp [readNode, isNamedBy, hkind, Kind.className?]

/-- An exact search uses the name up at the class that has it. -/
theorem readNode_of_isNamedBy (hnamed : isNamedBy above node name = true) :
    readNode ranks true above inside name node = .ok (.onward inside []) := by
  rw [isNamedBy, Bool.and_eq_true, Bool.and_eq_true, Option.any_eq_true] at hnamed
  obtain ⟨⟨hblock, hbody⟩, className, hname, hown⟩ := hnamed
  obtain ⟨flavor, hkind⟩ := Kind.className?_eq_some_iff.mp hname
  rw [Bool.and_eq_true, decide_eq_true_eq, decide_eq_true_eq] at hown
  rw [readNode_class hkind (by simpa using hblock) (by simpa using hbody),
    if_neg (by simpa using hown.1), readMember, if_pos hown.2, if_pos rfl]

/-- A node that is no class, or leaves something of the name, is read alike by every search. -/
theorem readNode_of_rest (hread : readNode ranks true above inside name node = .ok (.onward inside' rest))
    (hrest : exact = false → node.kind.isClass = true → rest ≠ []) :
    readNode ranks exact above inside name node = .ok (.onward inside' rest) := by
  cases exact with
  | true => exact hread
  | false =>
    rw [readNode_inexact, if_neg, hread]
    intro hnamed
    obtain ⟨className, hname, -⟩ := exists_className_of_isNamedBy hnamed
    rw [readNode_of_isNamedBy hnamed] at hread
    cases hread
    exact hrest rfl (Kind.isClass_of_className? hname) rfl

end Node

/-- A node that consumes a part of the name is read as doing so. A construction that is reached when the
name is used up sets the mark `inside`, and a method or variable is not read under it. -/
theorem Consumes.readNode_eq {node : Node} (hnode : Consumes ranks above node name rest)
    (hfits : ∀ {id series rank}, ranks.rank? id series = some rank → rank < UInt32.size)
    (hbody : ∀ body, node.kind.body? = some body →
      ranks.rank? node.id .anonymous = ranks.rank? body .anonymous)
    (hquiet : inside = true → node.kind.isMember = false) :
    readNode ranks true above inside name node =
      .ok (.onward (inside || (node.kind.isConstruction && name.isEmpty)) rest) := by
  cases hnode with
  | @package package rest hpackage =>
    have hunit := Kind.isUnit_of_package? hpackage
    rw [readNode_unit hunit, Except.ok.injEq, readUnit_eq_onward_iff, hpackage]
    exact ⟨by simp [Kind.isConstruction_of_isUnit hunit], rfl⟩
  | localClass hkind habove hrank hdigits hstart hdollar hname hlongest hends =>
    rw [habove, readNode_local hkind,
      readLocal_eq hrank (hfits hrank) hdigits hstart hdollar hname hlongest hends]
    simp [hkind, Kind.isConstruction]
  | anonymousClass hkind hblock habove hrank hdigits hends =>
    rw [readNode_class hkind hblock habove, if_pos (by simp),
      readAnonymous_eq hrank (hfits hrank) hdigits hends]
    simp [hkind, Kind.isConstruction]
  | @constructionBody body rank digits tail rest hkind hrank hdigits hends =>
    have hempty : (digits ++ tail).isEmpty = false := by simp [hdigits.nonempty]
    have hasked := (hbody body (by rw [hkind, Kind.body?])).trans hrank
    rw [readNode_construction hkind, if_neg (by simp [hempty]), if_pos (by simp),
      readAnonymous_eq hasked (hfits hasked) hdigits hends]
    simp [hempty]
  | memberClass hkind hname hblock habove hends =>
    rw [readNode_class hkind hblock habove, if_neg (by simpa using hname), Except.ok.injEq,
      readMember_eq_onward_iff]
    exact ⟨by simp [hkind, Kind.isConstruction], _, rfl, hends⟩
  | noPackage hunit hpackage =>
    rw [readNode_unit hunit, Except.ok.injEq, readUnit_eq_onward_iff, hpackage]
    exact ⟨by simp [Kind.isConstruction_of_isUnit hunit], rfl⟩
  | body hclass habove =>
    rw [readNode_body hclass habove]
    simp [Kind.isConstruction_of_isClass hclass]
  | spent hconstruction =>
    cases hkind : node.kind with
    | construction body =>
      rw [readNode_construction hkind]
      simp [Kind.isConstruction]
    | _ => simp [hkind, Kind.isConstruction] at hconstruction
  | bodyless hkind =>
    rw [readNode_construction hkind]
    cases hempty : name.isEmpty <;> simp [hkind, Kind.isConstruction]
  | plain hunit hclass hconstruction =>
    rw [readNode_plain hunit hclass hconstruction, if_neg (by
      rintro ⟨hinside, hmember⟩
      rw [hquiet hinside] at hmember
      cases hmember)]
    simp [hconstruction]

/-- A node after which the reading goes on has consumed a part of the name. -/
theorem consumes_of_readNode {node : Node}
    (hbody : ∀ body, node.kind.body? = some body →
      ranks.rank? node.id .anonymous = ranks.rank? body .anonymous)
    (hread : readNode ranks true above inside name node = .ok (.onward inside' rest)) :
    Consumes ranks above node name rest ∧ (inside = true → node.kind.isMember = false) ∧
      inside' = (inside || (node.kind.isConstruction && name.isEmpty)) := by
  cases hkind : node.kind with
  | unit package =>
    have hunit : node.kind.isUnit = true := by rw [hkind, Kind.isUnit]
    rw [readNode_unit hunit, Except.ok.injEq, readUnit_eq_onward_iff] at hread
    refine ⟨?_, fun _ => rfl, by simp [hread.1, Kind.isConstruction]⟩
    cases hpackage : node.kind.package? with
    | none =>
      rw [hpackage] at hread
      exact hread.2 ▸ .noPackage hunit hpackage
    | some package =>
      rw [hpackage] at hread
      exact hread.2 ▸ .package hpackage
  | classDecl className flavor =>
    have hclass : node.kind.isClass = true := by rw [hkind, Kind.isClass]
    suffices Consumes ranks above node name rest ∧ inside' = inside from
      ⟨this.1, fun _ => rfl, by simp [this.2, Kind.isConstruction]⟩
    cases habove : above.any Kind.isConstruction with
    | true =>
      rw [readNode_body hclass habove] at hread
      cases hread
      exact ⟨.body hclass habove, rfl⟩
    | false =>
      by_cases hblock : above = some .block
      · rw [hblock, readNode_local hkind] at hread
        obtain ⟨hinside, digits, start, rank, tail, hrank, hdigits, hstart, hdollar, hprefix, hlongest,
          rfl, hends⟩ := of_readLocal hread
        exact ⟨.localClass hkind hblock hrank hdigits hstart hdollar hprefix hlongest hends, hinside⟩
      · rw [readNode_class hkind hblock habove] at hread
        by_cases hname : className = ""
        · subst hname
          rw [if_pos (by simp)] at hread
          obtain ⟨hinside, digits, rank, tail, hrank, hdigits, rfl, hends⟩ := of_readAnonymous hread
          exact ⟨.anonymousClass hkind hblock habove hrank hdigits hends, hinside⟩
        · rw [if_neg (by simpa using hname), Except.ok.injEq, readMember_eq_onward_iff] at hread
          obtain ⟨hinside, tail, rfl, hends⟩ := hread
          exact ⟨.memberClass hkind hname hblock habove hends, hinside⟩
  | construction body =>
    suffices Consumes ranks above node name rest ∧ inside' = (inside || name.isEmpty) from
      ⟨this.1, fun _ => rfl, by simp [this.2, Kind.isConstruction]⟩
    rw [readNode_construction hkind] at hread
    cases name with
    | nil =>
      cases hread
      exact ⟨.spent (by rw [hkind, Kind.isConstruction]), by simp⟩
    | cons c name =>
      rw [if_neg (by simp)] at hread
      cases body with
      | none =>
        cases hread
        exact ⟨.bodyless hkind, by simp⟩
      | some body =>
        rw [if_pos (by simp)] at hread
        obtain ⟨hinside, digits, rank, tail, hrank, hdigits, hname, hends⟩ := of_readAnonymous hread
        rw [hbody body (by rw [hkind, Kind.body?])] at hrank
        exact ⟨hname ▸ .constructionBody hkind hrank hdigits hends, by simp [hinside]⟩
  | _ =>
    have hunit : node.kind.isUnit = false := by rw [hkind]; rfl
    have hclass : node.kind.isClass = false := by rw [hkind]; rfl
    have hconstruction : node.kind.isConstruction = false := by rw [hkind]; rfl
    rw [readNode_plain hunit hclass hconstruction, Except.ok.injEq] at hread
    rw [← hkind, hconstruction]
    split at hread
    · cases hread
    · rename_i hquiet
      cases hread
      exact ⟨.plain hunit hclass hconstruction, fun hinside => by simpa [hinside] using hquiet, by simp⟩

/-- No node settles an exact search in its favour: only the end of the path does. -/
theorem readNode_ne_decided_true {node : Node} :
    readNode ranks true above inside name node ≠ .ok (.decided true) := by
  unfold readNode
  split
  · unfold readUnit
    split
    · simp
    · split <;> simp
  · split
    · simp
    · exact readLocal_ne_decided_true
    · split
      · exact readAnonymous_ne_decided_true
      · simpa using readMember_ne_decided_true
  · split
    · simp
    · split
      · exact readAnonymous_ne_decided_true
      · simp
  · split <;> simp
  · split <;> simp
  · simp
  · simp

/-- A path is accepted step by step: no single node decides for it. -/
theorem walk_cons_eq_ok_true_iff {node : Node} {nodes : List Node} :
    walk ranks true above inside name (node :: nodes) = .ok true ↔
      ∃ inside' rest, readNode ranks true above inside name node = .ok (.onward inside' rest) ∧
        walk ranks true (some node.kind) inside' rest nodes = .ok true := by
  rw [walk]
  cases hread : readNode ranks true above inside name node with
  | error overflow => simp
  | ok step =>
    cases step with
    | decided answer =>
      have hanswer : answer ≠ true := by
        rintro rfl
        exact readNode_ne_decided_true hread
      simpa using hanswer
    | onward inside' rest => simp [and_assoc]

/-- A name that the walk along a path accepts is consumed by the nodes of the path. -/
theorem spells_of_walk {nodes : List Node}
    (hbody : ∀ node ∈ nodes, ∀ body, node.kind.body? = some body →
      ranks.rank? node.id .anonymous = ranks.rank? body .anonymous)
    (hwalk : walk ranks true above inside name nodes = .ok true) :
    Spells ranks above nodes name ∧ (inside = true → ∀ node ∈ nodes, node.kind.isMember = false) := by
  induction nodes generalizing above inside name with
  | nil =>
    rw [walk, Except.ok.injEq, List.isEmpty_iff] at hwalk
    subst hwalk
    exact ⟨.nil, by simp⟩
  | cons node nodes ih =>
    obtain ⟨inside', rest, hread, hwalk⟩ := walk_cons_eq_ok_true_iff.mp hwalk
    obtain ⟨hnode, hquiet, rfl⟩ := consumes_of_readNode (hbody node List.mem_cons_self) hread
    obtain ⟨hnodes, hmembers⟩ :=
      ih (fun other hother => hbody other (List.mem_cons_of_mem node hother)) hwalk
    refine ⟨.cons hnode (fun hconstruction hname => hmembers (by simp [hconstruction, hname])) hnodes, ?_⟩
    intro hinside other hother
    obtain rfl | hother := List.mem_cons.mp hother
    · exact hquiet hinside
    · exact hmembers (by simp [hinside]) other hother

/-- The walk along a path accepts a name just when the nodes of the path consume it. -/
theorem walk_eq_ok_true_iff {nodes : List Node} (hsuits : Suits ranks nodes) :
    walk ranks true above inside name nodes = .ok true ↔
      Spells ranks above nodes name ∧ (inside = true → ∀ node ∈ nodes, node.kind.isMember = false) := by
  refine ⟨spells_of_walk hsuits.body, ?_⟩
  rintro ⟨hspells, hmembers⟩
  induction hspells generalizing inside with
  | nil => rfl
  | @cons above node nodes name rest hnode hquiet hnodes ih =>
    have hread := hnode.readNode_eq hsuits.fits (hsuits.body node List.mem_cons_self)
      fun hinside => hmembers hinside node List.mem_cons_self
    refine walk_cons_eq_ok_true_iff.mpr ⟨_, rest, hread, ih ⟨hsuits.fits, fun other hother =>
      hsuits.body other (List.mem_cons_of_mem node hother)⟩ ?_⟩
    intro hmark other hother
    rw [Bool.or_eq_true, Bool.and_eq_true, List.isEmpty_iff] at hmark
    obtain hinside | ⟨hconstruction, hname⟩ := hmark
    · exact hmembers hinside other (List.mem_cons_of_mem node hother)
    · exact hquiet hconstruction hname other hother

end Reading

end BinaryName

namespace Tree

variable {tree : Tree}

/-- Ranks are smaller than the size of the tree, so 32-bit ids have 32-bit ranks. -/
theorem WellFormed.suits (hwf : tree.WellFormed) (hids : tree.size ≤ UInt32.size) {nodes : List Node}
    (hlinked : tree.Linked nodes) : BinaryName.Suits tree.ranks nodes where
  fits hrank := Nat.lt_of_lt_of_le (hwf.rank?_lt hrank) hids
  body node hnode _ hbody := hwf.rank?_construction (hlinked.known node hnode) hbody

/-- The answer at a node is that of the walk along its lineage. -/
theorem WellFormed.holds_inClass (hwf : tree.WellFormed) {id : NodeId} (hid : id < tree.size)
    {ranks : RankIndex} (name : String) (exact : Bool) :
    (Criterion.inClass name exact).holds ranks (tree.path? id) =
      BinaryName.walk ranks exact none false name.toList (tree.lineage id) := by
  obtain ⟨path, hpath, hnodes⟩ := hwf.path?_eq hid
  rw [hpath, ← hnodes]
  rfl

/-- An exact search for a class finds a node just when the nodes from the root to it consume the class
name. The ids of the tree have to fit in 32 bits, as ranks do. -/
theorem inClass_exact_iff_spells (htree : tree.Grown) (hids : tree.size ≤ UInt32.size) {id : NodeId}
    (hid : id < tree.size) (name : String) :
    (Criterion.inClass name true).holds tree.ranks (tree.path? id) = .ok true ↔
      BinaryName.Spells tree.ranks none (tree.lineage id) name.toList := by
  have hwf := htree.wellFormed
  rw [hwf.holds_inClass hid, BinaryName.walk_eq_ok_true_iff (hwf.suits hids (hwf.linked_lineage id))]
  simp

theorem spells_sample_local : sample.size ≤ UInt32.size ∧ 12 < sample.size ∧
    BinaryName.Spells sample.ranks none (sample.lineage 12) "a.b.Outer$0Local".toList := by
  have hids : sample.size ≤ UInt32.size := by decide +kernel
  have hid : 12 < sample.size := by decide +kernel
  exact ⟨hids, hid, (inClass_exact_iff_spells grown_sample hids hid _).mp (by decide +kernel)⟩

end Tree

end Pinpoint
