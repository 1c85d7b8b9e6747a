import Mathlib.Data.List.Basic
import Mathlib.Tactic.Common
import Pinpoint.Proofs.BinaryName.Extent
import Pinpoint.Proofs.BinaryName.Nesting
import Pinpoint.Proofs.BinaryName.Separators

namespace Pinpoint

namespace BinaryName

/-- A name that ends with a character of its last part, and not with a separator. -/
def EndsInPart (name : List Char) : Prop := name.getLast?.any (fun c => !isSeparator c) = true

instance (name : List Char) : Decidable (EndsInPart name) := inferInstanceAs (Decidable (_ = true))

variable {ranks : RankIndex} {above : Option Kind} {node : Node} {name part tail rest rest' : List Char} {c : Char}

theorem not_endsInPart_nil : ¬ EndsInPart [] := by
  simp [EndsInPart]

theorem EndsInPart.ne_nil (hname : EndsInPart name) : name ≠ [] := by
  rintro rfl
  exact not_endsInPart_nil hname

/-- Whether a name ends in a part is told by its end. -/
theorem endsInPart_append (front : List Char) (hrest : rest ≠ []) : EndsInPart (front ++ rest) ↔ EndsInPart rest := by
  rw [EndsInPart, List.getLast?_append_of_ne_nil front hrest, EndsInPart]

/-- A name does not end in a part just when its last character is a separator. -/
theorem endsInPart_concat_iff : EndsInPart (name ++ [c]) ↔ isSeparator c = false := by
  simp [EndsInPart]

/-- Behind a separator a name ends as the whole name does. -/
theorem endsInPart_append_cons (hc : isSeparator c = true) : EndsInPart (part ++ c :: rest) ↔ EndsInPart rest := by
  cases rest with
  | nil => simp [endsInPart_concat_iff, not_endsInPart_nil, hc]
  | cons next rest =>
    rw [List.append_cons, endsInPart_append _ (List.cons_ne_nil next rest)]

theorem Undivided.endsInPart (hpart : Undivided part) (hne : part ≠ []) : EndsInPart part := by
  obtain rfl | ⟨front, last, rfl⟩ := List.eq_nil_or_concat part
  · exact absurd rfl hne
  · rw [List.concat_eq_append] at hpart ⊢
    exact endsInPart_concat_iff.mpr (hpart last (by simp))

/-- A suffix of a name that ends with a separator does so too, or is empty. -/
theorem not_endsInPart_of_suffix (hname : ¬ EndsInPart name) (hrest : rest <:+ name) : ¬ EndsInPart rest := by
  obtain ⟨front, rfl⟩ := hrest
  by_cases hnil : rest = []
  · rw [hnil]
    exact not_endsInPart_nil
  · rwa [endsInPart_append front hnil] at hname

theorem undivided_digits {digits : List Char} (hdigits : ∀ digit ∈ digits, digit.isDigit = true) :
    Undivided digits := by
  intro c hc
  rw [Bool.eq_false_iff]
  intro hseparator
  have hdigit := hdigits c hc
  rw [isDigit_of_isSeparator hseparator] at hdigit
  cases hdigit

/-- A separator at the end of a name comes after its first part. -/
theorem Undivided.split_concat (hpart : Undivided part) (hc : isSeparator c = true)
    (hname : name ++ [c] = part ++ tail) : ∃ front, name = part ++ front ∧ tail = front ++ [c] := by
  obtain rfl | ⟨front, last, rfl⟩ := List.eq_nil_or_concat tail
  · rw [List.append_nil] at hname
    exact absurd (hname ▸ List.mem_append_right name List.mem_cons_self) (hpart.not_mem hc)
  · rw [List.concat_eq_append, ← List.append_assoc] at hname
    obtain ⟨rfl, hlast⟩ := List.append_inj' hname rfl
    rw [List.concat_eq_append, hlast]
    exact ⟨front, rfl, rfl⟩

/-- A separator at the end ends a part, or stays at the end of what is left. -/
theorem NameEnds.of_concat (hends : NameEnds (tail ++ [c]) rest') :
    (tail = [] ∧ rest' = []) ∨ ∃ separator rest, isSeparator separator = true ∧ tail = separator :: rest ∧
      rest' = rest ++ [c] := by
  cases tail with
  | nil =>
    cases hends with
    | separator => exact .inl ⟨rfl, rfl⟩
  | cons first tail =>
    cases hends with
    | separator hfirst => exact .inr ⟨first, tail, isSeparator_iff.mpr hfirst, rfl, rfl⟩

/-- What ends a segment, with one more character: the character is the separator itself, or it comes behind what
the segment leaves. -/
theorem ends_of_concat (hends : Segment.Ends (tail ++ [c]) rest') :
    (tail = [] ∧ c = '$' ∧ rest' = []) ∨ ∃ rest, '\n' ∉ rest ∧ tail = '$' :: rest ∧ rest' = rest ++ [c] := by
  cases tail with
  | nil =>
    cases hends with
    | dollar => exact .inl ⟨rfl, rfl, rfl⟩
  | cons first tail =>
    cases hends with
    | dollar hline =>
      exact .inr ⟨tail, fun hmem => hline (List.mem_append_left [c] hmem), rfl, rfl⟩

/-- A class that takes its own name and nothing else: it has a name, and is neither a class of a block nor the body
of a construction. -/
def isMemberClass (above : Option Kind) (node : Node) : Bool :=
  above ≠ some .block && !above.any Kind.isConstruction && node.kind.className?.any (· ≠ "")

/-- A class with a name is a member unless it is in a block or the body of a construction. -/
theorem isMemberClass_of_kind {className : String} {flavor : Flavor} (hkind : node.kind = .classDecl className flavor)
    (hname : className ≠ "") (hblock : above ≠ some .block) (hbody : above.any Kind.isConstruction = false) :
    isMemberClass above node = true := by
  simp [isMemberClass, hkind, Kind.className?, hname, hblock, hbody]

/-- What a node leaves of a name with a separator behind it, against what it leaves of the name. -/
inductive LeavesBehind (ranks : RankIndex) (above : Option Kind) (node : Node) (name : List Char) (c : Char) :
    (rest : List Char) → Prop where
  /-- The node takes the name and the separator with it. -/
  | last (hname : EndsInPart name) (hnode : Consumes ranks above node name [])
      (hc : c = '$' ∨ isMemberClass above node = true) : LeavesBehind ranks above node name c []
  /-- The node leaves the separator. -/
  | onward {rest : List Char} (hnode : Consumes ranks above node name rest)
      (hrest : EndsInPart rest ↔ EndsInPart name) : LeavesBehind ranks above node name c (rest ++ [c])

/-- A node that takes a part which only a dollar sign ends takes a dollar sign right behind the part, and leaves any
separator further behind. -/
theorem leavesBehind_of_ends (hpart : Undivided part) (hne : part ≠ []) (hc : isSeparator c = true)
    (hnode : ∀ {tail rest}, Segment.Ends tail rest → Consumes ranks above node (part ++ tail) rest)
    (hname : name ++ [c] = part ++ tail) (hends : Segment.Ends tail rest') :
    LeavesBehind ranks above node name c rest' := by
  obtain ⟨front, rfl, rfl⟩ := hpart.split_concat hc hname
  obtain ⟨rfl, rfl, rfl⟩ | ⟨rest, hline, rfl, rfl⟩ := ends_of_concat hends
  · rw [List.append_nil]
    exact .last (hpart.endsInPart hne) (by simpa using hnode .last) (.inl rfl)
  · exact .onward (hnode (.dollar hline)) (endsInPart_append_cons rfl).symm

/-- A node that takes a part which either separator ends takes the one right behind the part. -/
theorem leavesBehind_of_nameEnds (hpart : Undivided part) (hne : part ≠ []) (hc : isSeparator c = true)
    (hmember : isMemberClass above node = true)
    (hnode : ∀ {tail rest}, NameEnds tail rest → Consumes ranks above node (part ++ tail) rest)
    (hname : name ++ [c] = part ++ tail) (hends : NameEnds tail rest') :
    LeavesBehind ranks above node name c rest' := by
  obtain ⟨front, rfl, rfl⟩ := hpart.split_concat hc hname
  obtain ⟨rfl, rfl⟩ | ⟨separator, rest, hseparator, rfl, rfl⟩ := hends.of_concat
  · rw [List.append_nil]
    exact .last (hpart.endsInPart hne) (by simpa using hnode .last) (.inr hmember)
  · exact .onward (hnode (.separator (isSeparator_iff.mp hseparator))) (endsInPart_append_cons hseparator).symm

/-- A node that takes a part of a name with a separator behind it takes a part of the name. -/
theorem Consumes.of_concat (hunit : node.kind.isUnit = false)
    (hnames : ∀ className ∈ node.kind.className?, Undivided className.toList) (hc : isSeparator c = true)
    (hnode : Consumes ranks above node (name ++ [c]) rest') : LeavesBehind ranks above node name c rest' := by
  -- A taken part has no separator in it, so the last character is behind the part in every case.
  generalize hwhole : name ++ [c] = whole at hnode
  cases hnode with
  | package hpackage =>
    rw [Kind.isUnit_of_package? hpackage] at hunit
    cases hunit
  | @localClass className flavor rank digits start tail rest hkind habove hrank hdigits hstart hdollar hstarts
      hlongest hends =>
    have hundivided : Undivided (digits ++ start) := by
      refine List.forall_mem_append.mpr ⟨undivided_digits hdigits.decimal, ?_⟩
      intro other hother
      exact hnames className (by rw [hkind]; rfl) other (hstarts.subset hother)
    exact leavesBehind_of_ends hundivided (by simp [hstart]) hc
      (.localClass hkind habove hrank hdigits hstart hdollar hstarts hlongest) hwhole hends
  | anonymousClass hkind hblock hbody hrank hdigits hends =>
    exact leavesBehind_of_ends (undivided_digits hdigits.decimal) hdigits.nonempty hc
      (.anonymousClass hkind hblock hbody hrank hdigits) hwhole hends
  | constructionBody hkind hrank hdigits hends =>
    exact leavesBehind_of_ends (undivided_digits hdigits.decimal) hdigits.nonempty hc
      (.constructionBody hkind hrank hdigits) hwhole hends
  | @memberClass className flavor tail rest hkind hname hblock hbody hends =>
    exact leavesBehind_of_nameEnds (hnames className (by rw [hkind]; rfl)) (by simpa using hname) hc
      (isMemberClass_of_kind hkind hname hblock hbody) (.memberClass hkind hname hblock hbody) hwhole hends
  | noPackage hroot =>
    rw [hroot] at hunit
    cases hunit
  | body hclass habove => exact hwhole ▸ .onward (.body hclass habove) Iff.rfl
  | spent => simp at hwhole
  | bodyless hkind => exact hwhole ▸ .onward (.bodyless hkind) Iff.rfl
  | plain hunit hclass hconstruction => exact hwhole ▸ .onward (.plain hunit hclass hconstruction) Iff.rfl

/-- What ends a part ends it too if a separator is put behind the name, which stays unless it is a dollar sign right
behind the part. -/
theorem ends_concat (hname : EndsInPart (part ++ tail)) (hc : isSeparator c = true) (hends : Segment.Ends tail rest)
    (hlast : rest = [] → c = '$') : Segment.Ends (tail ++ [c]) (if rest = [] then [] else rest ++ [c]) := by
  cases hends with
  | last =>
    rw [if_pos rfl, hlast rfl]
    exact .dollar List.not_mem_nil
  | dollar hline =>
    rw [endsInPart_append_cons rfl] at hname
    rw [if_neg hname.ne_nil]
    exact .dollar (line_not_mem_append hline List.not_mem_nil hc)

/-- A separator at the end of a name is taken with the class name if nothing else follows, and else it is left to be
read. -/
theorem nameEnds_concat (hname : EndsInPart (part ++ tail)) (hc : isSeparator c = true) (hends : NameEnds tail rest) :
    NameEnds (tail ++ [c]) (if rest = [] then [] else rest ++ [c]) := by
  cases hends with
  | last => exact .separator (isSeparator_iff.mp hc)
  | separator hseparator =>
    rw [endsInPart_append_cons (isSeparator_iff.mpr hseparator)] at hname
    rw [if_neg hname.ne_nil]
    exact .separator hseparator

/-- A node that takes a part of a name takes it too if a separator stands behind the name. -/
theorem Consumes.concat (hunit : node.kind.isUnit = false) (hname : EndsInPart name) (hc : isSeparator c = true)
    (hnode : Consumes ranks above node name rest) (hlast : rest = [] → c = '$' ∨ isMemberClass above node = true) :
    Consumes ranks above node (name ++ [c]) (if rest = [] then [] else rest ++ [c]) := by
  have hne := hname.ne_nil
  cases hnode with
  | package hpackage =>
    rw [Kind.isUnit_of_package? hpackage] at hunit
    cases hunit
  | localClass hkind habove hrank hdigits hstart hdollar hprefix hlongest hends =>
    have hnumbered : isMemberClass above node = false := by simp [isMemberClass, habove]
    rw [List.append_assoc]
    exact .localClass hkind habove hrank hdigits hstart hdollar hprefix hlongest
      (ends_concat hname hc hends (by simpa [hnumbered] using hlast))
  | anonymousClass hkind hblock hbody hrank hdigits hends =>
    have hnumbered : isMemberClass above node = false := by simp [isMemberClass, hkind, Kind.className?]
    rw [List.append_assoc]
    exact .anonymousClass hkind hblock hbody hrank hdigits
      (ends_concat hname hc hends (by simpa [hnumbered] using hlast))
  | constructionBody hkind hrank hdigits hends =>
    have hnumbered : isMemberClass above node = false := by simp [isMemberClass, hkind, Kind.className?]
    rw [List.append_assoc]
    exact .constructionBody hkind hrank hdigits
      (ends_concat hname hc hends (by simpa [hnumbered] using hlast))
  | memberClass hkind hown hblock hbody hends =>
    rw [List.append_assoc]
    exact .memberClass hkind hown hblock hbody (nameEnds_concat hname hc hends)
  | noPackage hroot =>
    rw [hroot] at hunit
    cases hunit
  | body hclass habove =>
    rw [if_neg hne]
    exact .body hclass habove
  | spent => exact absurd rfl hne
  | bodyless hkind =>
    rw [if_neg hne]
    exact .bodyless hkind
  | plain hunit hclass hconstruction =>
    rw [if_neg hne]
    exact .plain hunit hclass hconstruction

/-- A node takes its part off the front of the name. -/
theorem Consumes.suffix (hnode : Consumes ranks above node name rest) : rest <:+ name := by
  have hends {part tail rest : List Char} (hends : Segment.Ends tail rest) : rest <:+ part ++ tail := by
    cases hends with
    | last => exact List.nil_suffix
    | @dollar rest => exact ⟨part ++ ['$'], by simp⟩
  cases hnode with
  | @package package => exact ⟨package.toList ++ ['.'], by simp⟩
  | localClass _ _ _ _ _ _ _ _ h => exact hends h
  | anonymousClass _ _ _ _ _ h => exact hends h
  | constructionBody _ _ _ h => exact hends h
  | @memberClass className _ _ _ _ _ _ _ h =>
    cases h with
    | last => exact List.nil_suffix
    | @separator c rest => exact ⟨className.toList ++ [c], by simp⟩
  | _ => exact List.suffix_rfl

/-- A search at any depth for a name with a separator at its end is not over before the end of the path: no class is
reached with just its own name left. -/
theorem walk_dangling_inexact {exact inside : Bool} {nodes : List Node}
    (hbody : ∀ node ∈ nodes, ∀ body, node.kind.body? = some body →
      ranks.rank? node.id .anonymous = ranks.rank? body .anonymous)
    (hnames : ∀ node ∈ nodes, ∀ className ∈ node.kind.className?, Undivided className.toList)
    (hname : ¬ EndsInPart name) :
    walk ranks exact above inside name nodes = walk ranks true above inside name nodes := by
  cases exact with
  | true => rfl
  | false =>
    induction nodes generalizing above inside name with
    | nil => rfl
    | cons node nodes ih =>
      rw [List.forall_mem_cons] at hbody hnames
      -- What is left always ends with a separator or is empty, and a class name does neither.
      have hnamed : ¬ isNamedBy above node name = true := by
        intro hnamed
        obtain ⟨className, hclass, hne, rfl⟩ := exists_className_of_isNamedBy hnamed
        exact hname ((hnames.1 className hclass).endsInPart (by simpa using hne))
      rw [walk, walk, readNode_inexact, if_neg hnamed]
      cases hread : readNode ranks true above inside name node with
      | error overflow => rfl
      | ok step =>
        cases step with
        | decided answer => rfl
        | onward inside' rest =>
          have hsuffix := (consumes_of_readNode hbody.1 hread).1.suffix
          exact ih hbody.2 hnames.2 (not_endsInPart_of_suffix hname hsuffix)

end BinaryName

namespace Tree

open BinaryName

/-- A class of the tree that takes its own name and nothing else. -/
def isMemberClass (tree : Tree) (node : Node) : Bool := BinaryName.isMemberClass (node.parent.bind tree.kind?) node

/-- A name is used up at a class with a name of its own among the nodes of a path. -/
def EndsAtMember (tree : Tree) (above : Option Kind) (inside : Bool) (name : List Char) (nodes : List Node) : Prop :=
  ∃ front node below, nodes = front ++ node :: below ∧ tree.isMemberClass node = true ∧
    walk tree.ranks true above inside name (front ++ [node]) = .ok true

variable {tree : Tree} {inside inside' : Bool} {above node : Node} {nodes : List Node} {name rest : List Char} {c : Char}

/-- The name is used up at a member class here, or further down. -/
theorem endsAtMember_cons_iff {kind : Option Kind}
    (hread : readNode tree.ranks true kind inside name node = .ok (.onward inside' rest)) :
    tree.EndsAtMember kind inside name (node :: nodes) ↔
      (tree.isMemberClass node = true ∧ rest = []) ∨ tree.EndsAtMember (some node.kind) inside' rest nodes := by
  constructor
  · rintro ⟨front, last, below, hsplit, hmember, hwalk⟩
    cases front with
    | nil =>
      obtain ⟨rfl, rfl⟩ := List.cons.inj hsplit
      rw [List.nil_append, walk, hread] at hwalk
      exact .inl ⟨hmember, by simpa [walk] using hwalk⟩
    | cons first front =>
      obtain ⟨rfl, rfl⟩ := List.cons.inj hsplit
      rw [List.cons_append, walk, hread] at hwalk
      exact .inr ⟨front, last, below, rfl, hmember, hwalk⟩
  · rintro (⟨hmember, rfl⟩ | ⟨front, last, below, rfl, hmember, hwalk⟩)
    · refine ⟨[], node, nodes, rfl, hmember, ?_⟩
      rw [List.nil_append, walk, hread]
      rfl
    · refine ⟨node :: front, last, below, rfl, hmember, ?_⟩
      rw [List.cons_append, walk, hread]
      exact hwalk

/-- Whether a class is a member can be read off the node before it on a path. -/
theorem Linked.isMemberClass_eq (hlinked : tree.Linked (above :: node :: nodes)) :
    tree.isMemberClass node = BinaryName.isMemberClass (some above.kind) node := by
  rw [isMemberClass, hlinked.parent_kind]

/-- Where nothing of a name is left, no class with a name of its own uses it up. -/
theorem WellFormed.not_endsAtMember_nil (hwf : tree.WellFormed) (hlinked : tree.Linked (above :: nodes)) :
    ¬ tree.EndsAtMember (some above.kind) inside [] nodes := by
  induction nodes generalizing above inside with
  | nil =>
    rintro ⟨front, last, below, hsplit, -⟩
    simp at hsplit
  | cons node nodes ih =>
    intro hends
    obtain hread | ⟨inside', hread⟩ := readNode_nil_cases tree.ranks true (some above.kind) inside node
    · obtain ⟨front, last, below, hsplit, -, hwalk⟩ := hends
      obtain ⟨more, hmore⟩ : ∃ more, front ++ [last] = node :: more := by
        cases front with
        | nil => exact ⟨[], by rw [(List.cons.inj hsplit).1]; rfl⟩
        | cons first front => exact ⟨front ++ [last], by rw [(List.cons.inj hsplit).1]; rfl⟩
      rw [hmore, walk, hread] at hwalk
      cases hwalk
    · obtain ⟨hmember, -⟩ | hends := (endsAtMember_cons_iff hread).mp hends
      · rw [hlinked.isMemberClass_eq, BinaryName.isMemberClass, Bool.and_eq_true, Bool.and_eq_true,
          Option.any_eq_true] at hmember
        obtain ⟨⟨-, hbody⟩, className, hname, -⟩ := hmember
        rw [readNode_spent (hlinked.isUnit_eq_false hwf),
          if_pos (.inl ⟨Kind.isClass_of_className? hname, by simpa using hbody⟩)] at hread
        cases hread
      · exact ih hlinked.tail hends

/-- While something of the name is left, a node leaves what it does not consume. -/
theorem WellFormed.readNode_eq_onward_iff (hwf : tree.WellFormed) (hids : tree.size ≤ UInt32.size)
    (hlinked : tree.Linked (above :: node :: nodes)) (hname : name ≠ []) :
    readNode tree.ranks true (some above.kind) inside name node = .ok (.onward inside' rest) ↔
      Consumes tree.ranks (some above.kind) node name rest ∧ (inside = true → node.kind.isMember = false) ∧
      inside' = inside := by
  have hsuits := hwf.suits hids hlinked
  have hbody := hsuits.body node (by simp)
  have hmark : (inside || (node.kind.isConstruction && name.isEmpty)) = inside := by simp [hname]
  constructor
  · intro hread
    obtain ⟨hconsumes, hquiet, hinside⟩ := consumes_of_readNode hbody hread
    exact ⟨hconsumes, hquiet, hinside.trans hmark⟩
  · rintro ⟨hconsumes, hquiet, rfl⟩
    rw [hconsumes.readNode_eq hsuits.fits hbody hquiet, hmark]

section Concat

variable (hwf : tree.WellFormed) (hids : tree.size ≤ UInt32.size) (hc : isSeparator c = true)

include hwf hids hc

/-- Nodes that use up a name with a separator at its end use up the name. If the separator is a dot, they do so at a
class with a name of its own. -/
theorem WellFormed.walk_of_concat (hnames : tree.Undivided) (hlinked : tree.Linked (above :: nodes))
    (hwalk : walk tree.ranks true (some above.kind) inside (name ++ [c]) nodes = .ok true) :
    EndsInPart name ∧ walk tree.ranks true (some above.kind) inside name nodes = .ok true ∧
      (c = '$' ∨ tree.EndsAtMember (some above.kind) inside name nodes) := by
  induction nodes generalizing above inside name with
  | nil => simp [walk] at hwalk
  | cons node nodes ih =>
    obtain ⟨inside', rest', hread, hbelow⟩ := walk_cons_eq_ok_true_iff.mp hwalk
    obtain ⟨hconsumes, hquiet, rfl⟩ := (hwf.readNode_eq_onward_iff hids hlinked (by simp)).mp hread
    have hknown := hnames.of_node? (hlinked.known node (by simp))
    cases hconsumes.of_concat (hlinked.isUnit_eq_false hwf) hknown hc with
    | last hname hnode hclosed =>
      have hread := (hwf.readNode_eq_onward_iff hids hlinked hname.ne_nil).mpr ⟨hnode, hquiet, rfl⟩
      refine ⟨hname, walk_cons_eq_ok_true_iff.mpr ⟨_, _, hread, hbelow⟩, ?_⟩
      rw [endsAtMember_cons_iff hread, hlinked.isMemberClass_eq]
      exact hclosed.imp_right fun hmember => .inl ⟨hmember, rfl⟩
    | onward hnode hrest =>
      obtain ⟨hends, hbelow, hclosed⟩ := ih hlinked.tail hbelow
      have hname := hrest.mp hends
      have hread := (hwf.readNode_eq_onward_iff hids hlinked hname.ne_nil).mpr ⟨hnode, hquiet, rfl⟩
      refine ⟨hname, walk_cons_eq_ok_true_iff.mpr ⟨_, _, hread, hbelow⟩, ?_⟩
      rw [endsAtMember_cons_iff hread]
      exact hclosed.imp_right .inr

/-- Nodes that use up a name use up one more dollar sign too, and a dot if they use up the name at a class with a name
of its own. -/
theorem WellFormed.walk_concat (hlinked : tree.Linked (above :: nodes)) (hname : EndsInPart name)
    (hwalk : walk tree.ranks true (some above.kind) inside name nodes = .ok true)
    (hclosed : c = '$' ∨ tree.EndsAtMember (some above.kind) inside name nodes) :
    walk tree.ranks true (some above.kind) inside (name ++ [c]) nodes = .ok true := by
  induction nodes generalizing above inside name with
  | nil =>
    rw [walk, Except.ok.injEq, List.isEmpty_iff] at hwalk
    exact absurd hwalk hname.ne_nil
  | cons node nodes ih =>
    obtain ⟨inside', rest, hread, hbelow⟩ := walk_cons_eq_ok_true_iff.mp hwalk
    rw [endsAtMember_cons_iff hread, hlinked.isMemberClass_eq] at hclosed
    obtain ⟨hnode, hquiet, rfl⟩ := (hwf.readNode_eq_onward_iff hids hlinked hname.ne_nil).mp hread
    -- With nothing left behind this node, no later class can be the one that uses up the name.
    have hlast : rest = [] → c = '$' ∨ BinaryName.isMemberClass (some above.kind) node = true := by
      rintro rfl
      exact hclosed.imp_right fun hmember => (hmember.resolve_right (hwf.not_endsAtMember_nil hlinked.tail)).1
    have hconcat := hnode.concat (hlinked.isUnit_eq_false hwf) hname hc hlast
    have hread := (hwf.readNode_eq_onward_iff hids hlinked (by simp)).mpr ⟨hconcat, hquiet, rfl⟩
    refine walk_cons_eq_ok_true_iff.mpr ⟨_, _, hread, ?_⟩
    by_cases hrest : rest = []
    · rw [if_pos hrest, ← hrest]
      exact hbelow
    · obtain ⟨front, rfl⟩ := hnode.suffix
      rw [if_neg hrest]
      exact ih hlinked.tail ((endsInPart_append front hrest).mp hname) hbelow
        (hclosed.imp_right fun hmember => hmember.resolve_left fun hmember => hrest hmember.2)

end Concat

section Root

variable {root : Node} (hwf : tree.WellFormed) (htop : tree.lineage 0 = [root]) (hunit : root.kind.isUnit = true)

include hwf htop

/-- The package adds no character of a part to the end of a name. -/
theorem WellFormed.endsInPart_packageText_append : EndsInPart (tree.packageText ++ name) ↔ EndsInPart name := by
  rw [hwf.packageText_eq htop]
  cases root.kind.package? with
  | none => rfl
  | some package =>
    rw [Option.elim_some, List.append_assoc, List.singleton_append]
    exact endsInPart_append_cons rfl

/-- The text of a package ends with its dot. -/
theorem WellFormed.packageText_eq_concat_iff {package : String} :
    package.toList ++ [c] = tree.packageText ↔ c = '.' ∧ root.kind.package? = some package := by
  rw [hwf.packageText_eq htop]
  cases root.kind.package? with
  | none => simp
  | some own =>
    rw [Option.elim_some, Option.some.injEq]
    constructor
    · intro heq
      obtain ⟨hown, hdot⟩ := List.append_inj' heq rfl
      exact ⟨(List.cons.inj hdot).1, (String.toList_inj.mp hown).symm⟩
    · rintro ⟨rfl, rfl⟩
      rfl

include hunit

/-- A path that is found takes the package from the name at its root. -/
theorem WellFormed.walk_root_iff :
    walk tree.ranks true none false name (root :: nodes) = .ok true ↔
      ∃ rest, name = tree.packageText ++ rest ∧ walk tree.ranks true (some root.kind) false rest nodes = .ok true := by
  rw [walk_cons_eq_ok_true_iff]
  constructor
  · rintro ⟨inside, rest, hread, hwalk⟩
    obtain ⟨rfl, hname⟩ := (hwf.readNode_root_eq_onward_iff hunit htop).mp hread
    exact ⟨rest, hname, hwalk⟩
  · rintro ⟨rest, hname, hwalk⟩
    exact ⟨false, rest, (hwf.readNode_root_eq_onward_iff hunit htop).mpr ⟨rfl, hname⟩, hwalk⟩

/-- The name is not used up at a member class in reading the package. -/
theorem WellFormed.endsAtMember_root_iff :
    tree.EndsAtMember none false (tree.packageText ++ rest) (root :: nodes) ↔
      tree.EndsAtMember (some root.kind) false rest nodes := by
  have hread : readNode tree.ranks true none false (tree.packageText ++ rest) root = .ok (.onward false rest) :=
    (hwf.readNode_root_eq_onward_iff hunit htop).mpr ⟨rfl, rfl⟩
  have hmember : tree.isMemberClass root = false := by
    cases hkind : root.kind <;> simp_all [isMemberClass, BinaryName.isMemberClass, Kind.isUnit, Kind.className?]
  rw [endsAtMember_cons_iff hread, hmember]
  simp

/-- From the root down, a name with a separator at its end is used up by the package, if it is the package and a dot,
or where the name is. -/
theorem WellFormed.walk_root_concat_iff (hids : tree.size ≤ UInt32.size) (hnames : tree.Undivided)
    (hc : isSeparator c = true) (hlinked : tree.Linked (root :: nodes)) {text : String} :
    walk tree.ranks true none false (text.toList ++ [c]) (root :: nodes) = .ok true ↔
      (c = '.' ∧ root.kind.package? = some text ∧ Leaks root nodes) ∨
      (EndsInPart text.toList ∧ walk tree.ranks true none false text.toList (root :: nodes) = .ok true ∧
        (c = '$' ∨ tree.EndsAtMember none false text.toList (root :: nodes))) := by
  have hspent : walk tree.ranks true (some root.kind) false [] nodes = .ok true ↔ Leaks root nodes := by
    rw [walk_spent (hlinked.isUnit_of_mem hwf)]
    simp
  constructor
  · intro hwalk
    obtain ⟨rest, hname, hbelow⟩ := (hwf.walk_root_iff htop hunit).mp hwalk
    obtain rfl | ⟨front, last, rfl⟩ := List.eq_nil_or_concat rest
    · -- the package has taken the whole name
      rw [List.append_nil, hwf.packageText_eq_concat_iff htop] at hname
      exact .inl ⟨hname.1, hname.2, hspent.mp hbelow⟩
    · rw [List.concat_eq_append] at hname hbelow
      rw [← List.append_assoc] at hname
      obtain ⟨hfront, hlast⟩ := List.append_inj' hname rfl
      obtain ⟨rfl, -⟩ := List.cons.inj hlast
      obtain ⟨hends, hbelow, hclosed⟩ := hwf.walk_of_concat hids hc hnames hlinked hbelow
      rw [hfront, hwf.endsInPart_packageText_append htop, hwf.walk_root_iff htop hunit,
        hwf.endsAtMember_root_iff htop hunit]
      exact .inr ⟨hends, ⟨front, rfl, hbelow⟩, hclosed⟩
  · intro hfound
    apply (hwf.walk_root_iff htop hunit).mpr
    obtain ⟨hdot, hpackage, hleaks⟩ | ⟨hends, hwalk, hclosed⟩ := hfound
    · have hname := (hwf.packageText_eq_concat_iff htop).mpr ⟨hdot, hpackage⟩
      exact ⟨[], by rw [hname, List.append_nil], hspent.mpr hleaks⟩
    · obtain ⟨rest, hname, hbelow⟩ := (hwf.walk_root_iff htop hunit).mp hwalk
      rw [hname, hwf.endsInPart_packageText_append htop] at hends
      rw [hname, hwf.endsAtMember_root_iff htop hunit] at hclosed
      refine ⟨rest ++ [c], ?_, hwf.walk_concat hids hc hlinked hends hbelow hclosed⟩
      rw [hname, List.append_assoc]

end Root

/-- A class of a path at which a name is used up is found by an exact search for the name. -/
theorem WellFormed.endsAtMember_lineage_iff (hwf : tree.WellFormed) {id : NodeId} {text : String} :
    tree.EndsAtMember none false text.toList (tree.lineage id) ↔
      ∃ node ∈ tree.lineage id, tree.isMemberClass node = true ∧
        (Criterion.inClass text true).holds tree.ranks (tree.path? node.id) = .ok true := by
  have hholds {front below : List Node} {node : Node} (hsplit : tree.lineage id = front ++ node :: below) :
      (Criterion.inClass text true).holds tree.ranks (tree.path? node.id) =
        walk tree.ranks true none false text.toList (front ++ [node]) := by
    obtain ⟨hnode, hlineage⟩ := hwf.lineage_split hsplit
    rw [hwf.holds_inClass (lt_size_of_node? hnode), hlineage]
  constructor
  · rintro ⟨front, node, below, hsplit, hmember, hwalk⟩
    refine ⟨node, hsplit ▸ List.mem_append_right front List.mem_cons_self, hmember, ?_⟩
    rw [hholds hsplit, hwalk]
  · rintro ⟨node, hmem, hmember, hfound⟩
    obtain ⟨front, below, hsplit⟩ := List.append_of_mem hmem
    exact ⟨front, node, below, hsplit, hmember, hholds hsplit ▸ hfound⟩

/-- Where a search, exact or at any depth, finds a name with a separator at its end: where an exact search finds the
name, if the name does not end with a separator itself and a dot comes behind a class with a name of its own. The
package with its dot is found from the root down to the first classes. Elsewhere the answer is no, unless a rank is
too long. -/
theorem inClass_dangling_iff (htree : tree.Grown) (hids : tree.size ≤ UInt32.size) (hnames : tree.Undivided)
    {id : NodeId} (hid : id < tree.size) (name : String) {separator : Char} (hseparator : isSeparator separator = true)
    (exact : Bool) :
    ((Criterion.inClass (name.push separator) exact).holds tree.ranks (tree.path? id) = .ok true ↔
      (separator = '.' ∧ ∃ root below, tree.lineage id = root :: below ∧ root.kind.package? = some name ∧
        Leaks root below) ∨
      (EndsInPart name.toList ∧ (Criterion.inClass name true).holds tree.ranks (tree.path? id) = .ok true ∧
        (separator = '$' ∨ ∃ node ∈ tree.lineage id, tree.isMemberClass node = true ∧
          (Criterion.inClass name true).holds tree.ranks (tree.path? node.id) = .ok true))) ∧
    (ShortRanks (name.push separator).toList →
      ∃ answer, (Criterion.inClass (name.push separator) exact).holds tree.ranks (tree.path? id) = .ok answer) := by
  have hwf := htree.wellFormed
  obtain ⟨root, below, hlineage, htop, hunit⟩ := hwf.exists_lineage_eq_cons hid
  have hlinked := hlineage ▸ hwf.linked_lineage id
  have hknown : ∀ node ∈ root :: below, ∀ className ∈ node.kind.className?,
      BinaryName.Undivided className.toList := fun node hnode => hnames.of_node? (hlinked.known node hnode)
  have hdangling : ¬ EndsInPart (name.toList ++ [separator]) := by
    rw [endsInPart_concat_iff, hseparator]
    exact Bool.noConfusion
  rw [← hwf.endsAtMember_lineage_iff, hwf.holds_inClass hid, hwf.holds_inClass hid, hlineage, String.toList_push]
  refine ⟨?_, fun hshort => (LeftOf.self _).exists_walk hshort _⟩
  rw [walk_dangling_inexact (hwf.suits hids hlinked).body hknown hdangling,
    hwf.walk_root_concat_iff htop hunit hids hnames hseparator hlinked]
  simp

theorem dangling_sample : sample.Undivided ∧ EndsInPart "a.b.Outer".toList ∧
    (Criterion.inClass "a.b.Outer." false).holds sample.ranks (sample.path? 3) = .ok true := by
  have hids : sample.size ≤ UInt32.size := by decide +kernel
  have hnames : sample.Undivided := by decide +kernel
  have hid : 3 < sample.size := by decide +kernel
  have hends : EndsInPart "a.b.Outer".toList := by decide +kernel
  have hmember : ∃ node ∈ sample.lineage 3, sample.isMemberClass node = true ∧
      (Criterion.inClass "a.b.Outer" true).holds sample.ranks (sample.path? node.id) = .ok true := by
    decide +kernel
  have hseparator : isSeparator '.' = true := rfl
  have hfound := (inClass_dangling_iff grown_sample hids hnames hid "a.b.Outer" hseparator false).1.mpr
    (.inr ⟨hends, by decide +kernel, .inr hmember⟩)
  have htext : "a.b.Outer".push '.' = "a.b.Outer." := by decide +kernel
  exact ⟨hnames, hends, htext ▸ hfound⟩

/-- The package with its dot is found at the root, which is in no class, and a class is found by its name with a dollar
sign behind it. -/
theorem dangling_found : sample.Grown ∧ sample.Undivided ∧ sample.scope? 0 = none ∧
    (∀ exact, (Criterion.inClass "a.b." exact).holds sample.ranks (sample.path? 0) = .ok true) ∧
    (∀ exact, (Criterion.inClass "a.b.Outer$" exact).holds sample.ranks (sample.path? 1) = .ok true) := by
  refine ⟨grown_sample, ?_⟩
  decide +kernel

end Tree

end Pinpoint
