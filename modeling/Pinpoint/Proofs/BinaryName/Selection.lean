import Mathlib.Data.List.Basic
import Mathlib.Tactic.Common
import Pinpoint.Proofs.BinaryName.Grammar

namespace Pinpoint

namespace Segment

variable {name digits start rest last : List Char}

/-- The rest after a segment is that after the first dollar sign, however the segment is read. -/
theorem remainder?_of_anonymous? (hread : anonymous? name = some (digits, rest)) :
    remainder? (name.dropWhile (· ≠ '$')) = some rest := by
  obtain ⟨-, hdigits, tail, rfl, hends⟩ := anonymous?_eq_some_iff.mp hread
  have hfirst : ∀ c ∈ digits, decide (c ≠ '$') = true := by
    intro c hc
    rw [decide_eq_true_eq]
    rintro rfl
    exact dollar_not_mem hdigits hc
  rw [(hends.takeWhile_append (by decide) hfirst).2]
  exact remainder?_eq_some_iff.mpr hends

/-- The segment of a local class ends at the first dollar sign. -/
theorem remainder?_of_localClass? (hread : localClass? name = some (digits, start, rest)) :
    remainder? (name.dropWhile (· ≠ '$')) = some rest := by
  unfold localClass? at hread
  dsimp only at hread
  split at hread
  · cases hread
  · obtain ⟨after, hafter, heq⟩ := Option.map_eq_some_iff.mp hread
    cases heq
    exact hafter

/-- The rank that a name ends with, for a class of a series. -/
def lastRank? (name : List Char) : RankSeries → Option Nat
  | .anonymous =>
    (anonymous? name).bind fun (digits, rest) =>
      if rest = [] then some (Text.decimalValue digits) else none
  | .localClass =>
    (localClass? name).bind fun (digits, _, rest) =>
      if rest = [] then some (Text.decimalValue digits) else none

/-- A name with a last rank holds one segment. -/
theorem remainder?_of_lastRank? {series : RankSeries} {rank : Nat}
    (hrank : lastRank? name series = some rank) :
    name ≠ [] ∧ remainder? (name.dropWhile (· ≠ '$')) = some [] := by
  refine ⟨?_, ?_⟩
  · rintro rfl
    cases series <;> cases hrank
  · cases series with
    | anonymous =>
      obtain ⟨⟨digits, rest⟩, hread, hrest⟩ := Option.bind_eq_some_iff.mp hrank
      by_cases hnil : rest = []
      · subst hnil
        exact remainder?_of_anonymous? hread
      · simp [hnil] at hrest
    | localClass =>
      obtain ⟨⟨digits, start, rest⟩, hread, hrest⟩ := Option.bind_eq_some_iff.mp hrank
      by_cases hnil : rest = []
      · subst hnil
        exact remainder?_of_localClass? hread
      · simp [hnil] at hrest

/-- Passing over segments of anonymous classes. -/
inductive Skips : (name last : List Char) → Prop where
  | refl {name : List Char} : Skips name name
  | step {name digits rest last : List Char} (hread : anonymous? name = some (digits, rest))
      (hskips : Skips rest last) : Skips name last

/-- From a name with a last rank there is nothing to pass over to. -/
theorem Skips.eq_of_lastRank? {series series' : RankSeries} {rank rank' : Nat} (hskips : Skips name last)
    (hrank : lastRank? name series = some rank) (hrank' : lastRank? last series' = some rank') :
    name = last := by
  cases hskips with
  | refl => rfl
  | step hread hskips =>
    have hrest := (remainder?_of_lastRank? hrank).2
    rw [remainder?_of_anonymous? hread, Option.some.injEq] at hrest
    subst hrest
    cases hskips with
    | refl => exact absurd rfl (remainder?_of_lastRank? hrank').1
    | step hread hskips => cases hread

/-- The place in a name where its last rank stands is unique. -/
theorem Skips.unique {series series' : RankSeries} {rank rank' : Nat} {other : List Char}
    (hlast : Skips name last) (hother : Skips name other) (hrank : lastRank? last series = some rank)
    (hrank' : lastRank? other series' = some rank') : last = other := by
  induction hlast with
  | refl => exact hother.eq_of_lastRank? hrank hrank'
  | step hread hskips ih =>
    cases hother with
    | refl => exact ((Skips.step hread hskips).eq_of_lastRank? hrank' hrank).symm
    | step hread' hskips' =>
      rw [hread, Option.some.injEq, Prod.mk.injEq] at hread'
      obtain ⟨-, rfl⟩ := hread'
      exact ih hskips' hrank

end Segment

namespace BinaryName

variable {ranks : RankIndex} {above : Option Kind} {inside : Bool} {name rest : List Char} {node : Node}

/-- A node that is neither a unit nor a class nor a construction consumes nothing. -/
theorem Consumes.of_plain (hnode : Consumes ranks above node name rest)
    (hunit : node.kind.isUnit = false) (hclass : node.kind.isClass = false)
    (hconstruction : node.kind.isConstruction = false) : rest = name := by
  cases hnode with
  | package hpackage =>
    rw [Kind.isUnit_of_package? hpackage] at hunit
    cases hunit
  | localClass hkind | anonymousClass hkind | memberClass hkind => simp [hkind, Kind.isClass] at hclass
  | constructionBody hkind => simp [hkind, Kind.isConstruction] at hconstruction
  | spent | noPackage | body | bodyless | plain => rfl

/-- The body of a construction consumes nothing. -/
theorem Consumes.of_body (hnode : Consumes ranks above node name rest) (hclass : node.kind.isClass = true)
    (habove : above.any Kind.isConstruction = true) : name = rest := by
  cases hnode with
  | package hpackage =>
    rw [Kind.isClass_of_isUnit (Kind.isUnit_of_package? hpackage)] at hclass
    cases hclass
  | localClass hkind hblock =>
    rw [hblock] at habove
    cases habove
  | anonymousClass hkind hblock hbody | memberClass hkind hname hblock hbody =>
    rw [hbody] at habove
    cases habove
  | constructionBody hkind => simp [hkind, Kind.isClass] at hclass
  | spent | noPackage | body | bodyless | plain => rfl

/-- A construction that finds something to consume takes the rank of its body, if it has one. -/
theorem Consumes.of_construction (hnode : Consumes ranks above node name rest)
    (hconstruction : node.kind.isConstruction = true) (hname : name ≠ []) :
    (node.kind.body? = none ∧ rest = name) ∨
      ∃ body digits rank tail, node.kind.body? = some body ∧ ranks.rank? body .anonymous = some rank ∧
        Denotes digits rank ∧ name = digits ++ tail ∧ Segment.Ends tail rest := by
  cases hnode with
  | package hpackage =>
    rw [Kind.isConstruction_of_isUnit (Kind.isUnit_of_package? hpackage)] at hconstruction
    cases hconstruction
  | noPackage hunit =>
    rw [Kind.isConstruction_of_isUnit hunit] at hconstruction
    cases hconstruction
  | localClass hkind | anonymousClass hkind | memberClass hkind =>
    simp [hkind, Kind.isConstruction] at hconstruction
  | body hclass =>
    rw [Kind.isConstruction_of_isClass hclass] at hconstruction
    cases hconstruction
  | constructionBody hkind hrank hdigits hends =>
    exact .inr ⟨_, _, _, _, by rw [hkind, Kind.body?], hrank, hdigits, rfl, hends⟩
  | spent => exact absurd rfl hname
  | bodyless hkind => exact .inl ⟨by rw [hkind, Kind.body?], rfl⟩
  | plain hunit hclass hplain =>
    rw [hplain] at hconstruction
    cases hconstruction

/-- Two paths that part after a node are read alike down to it. -/
theorem walk_fork {front left right : List Node}
    (hleft : walk ranks true above inside name (front ++ node :: left) = .ok true)
    (hright : walk ranks true above inside name (front ++ node :: right) = .ok true) :
    ∃ inside' rest, walk ranks true (some node.kind) inside' rest left = .ok true ∧
      walk ranks true (some node.kind) inside' rest right = .ok true := by
  induction front generalizing above inside name with
  | nil =>
    obtain ⟨inside', rest, hread, hleft⟩ := walk_cons_eq_ok_true_iff.mp hleft
    obtain ⟨inside'', rest', hread', hright⟩ := walk_cons_eq_ok_true_iff.mp hright
    rw [hread] at hread'
    cases hread'
    exact ⟨inside', rest, hleft, hright⟩
  | cons first front ih =>
    obtain ⟨inside', rest, hread, hleft⟩ := walk_cons_eq_ok_true_iff.mp hleft
    obtain ⟨inside'', rest', hread', hright⟩ := walk_cons_eq_ok_true_iff.mp hright
    rw [hread] at hread'
    cases hread'
    exact ih hleft hright

end BinaryName

namespace Tree

variable {tree : Tree} {above node leaf : Node} {name : List Char} {series : RankSeries}

theorem isClass_of_series? (hseries : tree.series? node = some series) : node.kind.isClass = true := by
  unfold series? at hseries
  split at hseries
  · rename_i hkind
    rw [hkind, Kind.isClass]
  · cases hseries

/-- A numbered class that uses up a name takes its rank from the end of it. -/
theorem WellFormed.lastRank?_of_consumes (hwf : tree.WellFormed) {nodes : List Node}
    (hlinked : tree.Linked (above :: node :: nodes)) (hseries : tree.series? node = some series)
    (habove : above.kind.isConstruction = false)
    (hnode : BinaryName.Consumes tree.ranks (some above.kind) node name []) :
    Segment.lastRank? name series = some (tree.rank node.id) := by
  have hclass := isClass_of_series? hseries
  have hknown := hlinked.known node (by simp)
  cases hnode with
  | @localClass _ _ rank digits start tail _ hkind hblock hrank hdigits hstart hdollar hname hlongest
      hends =>
    obtain ⟨hlocal, rfl⟩ := (hwf.rank?_eq_some_iff hknown hclass).mp hrank
    rw [hseries, Option.some.injEq] at hlocal
    subst hlocal
    have hread := Segment.localClass?_eq_some_iff.mpr ⟨hdigits.nonempty, hdigits.decimal, hstart, hdollar,
      hlongest, tail, rfl, hends⟩
    simp only [Segment.lastRank?, hread, Option.bind_some, hdigits.value, if_true]
  | @anonymousClass _ rank digits tail _ hkind hblock hbody hrank hdigits hends =>
    obtain ⟨hanonymous, rfl⟩ := (hwf.rank?_eq_some_iff hknown hclass).mp hrank
    rw [hseries, Option.some.injEq] at hanonymous
    subst hanonymous
    have hread := Segment.anonymous?_eq_some_iff.mpr
      ⟨hdigits.nonempty, hdigits.decimal, tail, rfl, hends⟩
    simp only [Segment.lastRank?, hread, Option.bind_some, hdigits.value, if_true]
  | @memberClass className _ _ _ hkind hname hblock =>
    have hown : node.kind.className? = some className := by rw [hkind, Kind.className?]
    rw [hlinked.series?_eq hown, if_neg (fun h => hblock (congrArg some h)), if_neg hname] at hseries
    cases hseries
  -- the others are no numbered classes, or are read with the construction above
  | body _ hbody =>
    rw [Option.any_some, habove] at hbody
    cases hbody
  | package hpackage =>
    rw [Kind.isClass_of_isUnit (Kind.isUnit_of_package? hpackage)] at hclass
    cases hclass
  | noPackage hunit =>
    rw [Kind.isClass_of_isUnit hunit] at hclass
    cases hclass
  | constructionBody hkind | bodyless hkind => simp [hkind, Kind.isClass] at hclass
  | spent hconstruction =>
    rw [Kind.isConstruction_of_isClass hclass] at hconstruction
    cases hconstruction
  | plain _ hplain =>
    rw [hplain] at hclass
    cases hclass

/-- A member at the end of a path consumes nothing, so nothing may be left for it. -/
theorem spells_leaf (hleaf : leaf.kind.isMember = true) {kind : Option Kind}
    (hspells : BinaryName.Spells tree.ranks kind [leaf] name) : name = [] := by
  cases hspells with
  | cons hnode hquiet hnodes =>
    cases hnodes
    have hplain : leaf.kind.isUnit = false ∧ leaf.kind.isClass = false ∧
        leaf.kind.isConstruction = false := by
      cases hkind : leaf.kind <;> simp_all [Kind.isMember, Kind.isMethod, Kind.isVariable, Kind.isUnit,
        Kind.isClass, Kind.isConstruction]
    exact (hnode.of_plain hplain.1 hplain.2.1 hplain.2.2).symm

/-- The rank that a construction takes for its body is the last one of a name that ends with a member of
the body. -/
theorem WellFormed.lastRank?_of_body (hwf : tree.WellFormed) (hlinked : tree.Linked [above, node, leaf])
    (habove : above.kind.isConstruction = true) (hseries : tree.series? node = some series)
    (hleaf : leaf.kind.isMember = true) {body : NodeId} (hbody : above.kind.body? = some body) {rank : Nat}
    (hrank : tree.ranks.rank? body .anonymous = some rank) {digits rest : List Char}
    (hdigits : Denotes digits rank) (hread : Segment.anonymous? name = some (digits, rest))
    (hspells : BinaryName.Spells tree.ranks (some above.kind) [node, leaf] rest) :
    Segment.lastRank? name series = some (tree.rank node.id) := by
  have hclass := isClass_of_series? hseries
  rw [hlinked.body?_eq hwf habove hclass, Option.some.injEq] at hbody
  subst hbody
  obtain ⟨hanonymous, rfl⟩ := (hwf.rank?_eq_some_iff (hlinked.known node (by simp)) hclass).mp hrank
  rw [hseries, Option.some.injEq] at hanonymous
  subst hanonymous
  cases hspells with
  | cons hnode hquiet hnodes =>
    rw [hnode.of_body hclass habove, spells_leaf hleaf hnodes] at hread
    simp only [Segment.lastRank?, hread, Option.bind_some, hdigits.value, if_true]

/-- Below a scope, a name that is spelled down to a member of a numbered class passes over the
constructions on the way and ends with the rank of the class. -/
theorem WellFormed.exists_lastRank? (hwf : tree.WellFormed) {between : List Node}
    (hlinked : tree.Linked (above :: (between ++ [node, leaf])))
    (hbetween : ∀ other ∈ between, other.kind.isClass = false)
    (habove : between = [] → above.kind.isConstruction = false)
    (hseries : tree.series? node = some series) (hleaf : leaf.kind.isMember = true)
    (hspells : BinaryName.Spells tree.ranks (some above.kind) (between ++ [node, leaf]) name) :
    ∃ last, Segment.Skips name last ∧ Segment.lastRank? last series = some (tree.rank node.id) := by
  -- A construction reads for the class right below it, so above the class itself there is none.
  induction between generalizing above name with
  | nil =>
    cases hspells with
    | cons hnode hquiet hnodes =>
      rw [spells_leaf hleaf hnodes] at hnode
      exact ⟨name, .refl, hwf.lastRank?_of_consumes hlinked hseries (habove rfl) hnode⟩
  | cons first between ih =>
    have hclass := hbetween first List.mem_cons_self
    have hunit := hlinked.isUnit_eq_false hwf
    cases hspells with
    | @cons _ _ _ _ rest hfirst hquiet hnodes =>
      have hlater := @ih first rest hlinked.tail fun other hother =>
        hbetween other (List.mem_cons_of_mem first hother)
      cases hconstruction : first.kind.isConstruction with
      | false =>
        rw [hfirst.of_plain hunit hclass hconstruction] at hlater hnodes
        exact hlater (fun _ => hconstruction) hnodes
      | true =>
        have hname : name ≠ [] := by
          rintro rfl
          rw [hquiet hconstruction rfl leaf (by simp)] at hleaf
          cases hleaf
        obtain ⟨hbody, rfl⟩ | ⟨body, digits, rank, tail, hbody, hrank, hdigits, rfl, hends⟩ :=
          hfirst.of_construction hconstruction hname
        · refine hlater (fun hnil => ?_) hnodes
          subst hnil
          have hown := hlinked.tail.body?_eq hwf hconstruction (isClass_of_series? hseries)
          rw [hbody] at hown
          cases hown
        · have hread := Segment.anonymous?_eq_some_iff.mpr
            ⟨hdigits.nonempty, hdigits.decimal, tail, rfl, hends⟩
          cases between with
          | nil =>
            refine ⟨_, .refl, ?_⟩
            exact hwf.lastRank?_of_body hlinked.tail hconstruction hseries hleaf hbody hrank hdigits
              hread hnodes
          | cons next between =>
            obtain ⟨last, hskips, hlast⟩ := hlater (by simp) hnodes
            exact ⟨last, .step hread hskips, hlast⟩

/-- If an exact search finds a member of a numbered class, the rank that it has read last is that of the class. -/
theorem WellFormed.exists_lastRank?_of_walk (hwf : tree.WellFormed) {between : List Node} {inside : Bool}
    (hlinked : tree.Linked (above :: (between ++ [node, leaf])))
    (hbetween : ∀ other ∈ between, other.kind.isClass = false)
    (habove : above.kind.isConstruction = false) (hseries : tree.series? node = some series)
    (hleaf : leaf.kind.isMember = true)
    (hwalk : BinaryName.walk tree.ranks true (some above.kind) inside name (between ++ [node, leaf]) =
      .ok true) :
    ∃ last, Segment.Skips name last ∧ Segment.lastRank? last series = some (tree.rank node.id) := by
  have hspells := (BinaryName.spells_of_walk (fun other hother _ hbody =>
    hwf.rank?_construction (hlinked.tail.known other hother) hbody) hwalk).1
  exact hwf.exists_lastRank? hlinked hbetween (fun _ => habove) hseries hleaf hspells

/-- The way from the root to a member of a numbered class, parted at the scope of the class. -/
theorem WellFormed.lineage_member (hwf : tree.WellFormed) {id member : NodeId}
    (hseries : tree.seriesAt? id = some series) (hmember : tree.HasChild Kind.isMember id member) :
    ∃ front top between node leaf, tree.lineage ((tree.scope? id).getD 0) = front ++ [top] ∧
      tree.lineage member = front ++ top :: (between ++ [node, leaf]) ∧
      top.kind.isConstruction = false ∧ (∀ other ∈ between, other.kind.isClass = false) ∧
      tree.series? node = some series ∧ node.id = id ∧ leaf.kind.isMember = true := by
  obtain ⟨node, hnode, hseries⟩ := Option.bind_eq_some_iff.mp hseries
  obtain ⟨leaf, hleaf, hparent, hmember⟩ := hmember
  have hunit := Kind.isUnit_of_isClass (isClass_of_series? hseries)
  obtain ⟨front, top, between, hscope, htop, hlineage, hbetween⟩ := hwf.lineage_scope hnode hunit
  refine ⟨front, top, between, node, leaf, hscope, ?_, ?_, hbetween, hseries, hwf.id_eq hnode, hmember⟩
  · rw [hwf.lineage_child hleaf hparent, hlineage]
    simp
  · obtain htop | htop := htop
    · exact Kind.isConstruction_of_isUnit htop
    · exact Kind.isConstruction_of_isClass htop

/-- An exact search finds members of at most one of the classes that are numbered together. -/
theorem inClass_exact_selects (htree : tree.Grown) {first second : NodeId}
    (hfirst : tree.seriesAt? first = some series) (hsecond : tree.seriesAt? second = some series)
    (hscope : tree.scope? first = tree.scope? second) (hne : first ≠ second) {left right : NodeId}
    (hleft : tree.HasChild Kind.isMember first left) (hright : tree.HasChild Kind.isMember second right)
    (name : String) :
    ¬ ((Criterion.inClass name true).holds tree.ranks (tree.path? left) = .ok true ∧
      (Criterion.inClass name true).holds tree.ranks (tree.path? right) = .ok true) := by
  have hwf := htree.wellFormed
  have hsize {id member : NodeId} (hmember : tree.HasChild Kind.isMember id member) :
      member < tree.size := by
    obtain ⟨node, hnode, -⟩ := hmember
    exact lt_size_of_node? hnode
  rw [hwf.holds_inClass (hsize hleft), hwf.holds_inClass (hsize hright)]
  obtain ⟨front, top, between, node, leaf, hshared, hlineage, htop, hbetween, hseries, rfl, hleaf⟩ :=
    hwf.lineage_member hfirst hleft
  obtain ⟨front', top', between', node', leaf', hshared', hlineage', -, hbetween', hseries', rfl,
    hleaf'⟩ := hwf.lineage_member hsecond hright
  rw [← hscope, hshared] at hshared'
  obtain ⟨rfl, htops⟩ := List.append_inj' hshared' rfl
  cases htops
  rw [hlineage, hlineage']
  rintro ⟨hwalk, hwalk'⟩
  obtain ⟨inside, rest, hwalk, hwalk'⟩ := BinaryName.walk_fork hwalk hwalk'
  have hlinked := (hlineage ▸ hwf.linked_lineage left).of_append
  have hlinked' := (hlineage' ▸ hwf.linked_lineage right).of_append
  obtain ⟨last, hskips, hrank⟩ :=
    hwf.exists_lastRank?_of_walk hlinked hbetween htop hseries hleaf hwalk
  obtain ⟨last', hskips', hrank'⟩ :=
    hwf.exists_lastRank?_of_walk hlinked' hbetween' htop hseries' hleaf' hwalk'
  have hlast := hskips.unique hskips' hrank hrank'
  rw [hlast, hrank', Option.some.injEq] at hrank
  have halike : tree.alike node.id node'.id = true :=
    decide_eq_true ⟨hsecond.trans hfirst.symm, hscope.symm⟩
  apply hne
  exact hwf.rank_injective (lt_size_of_seriesAt? hfirst) (lt_size_of_seriesAt? hsecond) halike hrank.symm

theorem selects_sample :
    sample.seriesAt? 5 = some .anonymous ∧ sample.seriesAt? 9 = some .anonymous ∧
    sample.scope? 5 = sample.scope? 9 ∧
    (Criterion.inClass "a.b.Outer$0" true).holds sample.ranks (sample.path? 6) = .ok true ∧
    (Criterion.inClass "a.b.Outer$0" true).holds sample.ranks (sample.path? 10) ≠ .ok true := by
  have hfirst : sample.seriesAt? 5 = some .anonymous := by decide +kernel
  have hsecond : sample.seriesAt? 9 = some .anonymous := by decide +kernel
  have hscope : sample.scope? 5 = sample.scope? 9 := by decide +kernel
  have hleft : sample.HasChild Kind.isMember 5 6 :=
    ⟨⟨6, some 5, [], .variable "x" false⟩, by decide +kernel⟩
  have hright : sample.HasChild Kind.isMember 9 10 :=
    ⟨⟨10, some 9, [], .variable "y" false⟩, by decide +kernel⟩
  have hfound : (Criterion.inClass "a.b.Outer$0" true).holds sample.ranks (sample.path? 6) = .ok true := by
    decide +kernel
  refine ⟨hfirst, hsecond, hscope, hfound, fun hboth => ?_⟩
  exact inClass_exact_selects grown_sample hfirst hsecond hscope (by decide) hleft hright _ ⟨hfound, hboth⟩

end Tree

end Pinpoint
