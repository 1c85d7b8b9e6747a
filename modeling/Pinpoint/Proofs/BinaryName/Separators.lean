import Mathlib.Data.List.DropRight
import Mathlib.Data.List.TakeWhile
import Mathlib.Tactic.Common
import Pinpoint.Proofs.BinaryName.CompilerName

namespace Pinpoint

namespace BinaryName

/-- A character that may stand between two parts of a name. -/
def isSeparator (c : Char) : Bool := c = '$' || c = '.'

theorem isSeparator_iff {c : Char} : isSeparator c = true ↔ c = '$' ∨ c = '.' := by
  simp [isSeparator]

theorem isDigit_of_isSeparator {c : Char} (hc : isSeparator c = true) : c.isDigit = false := by
  obtain rfl | rfl := isSeparator_iff.mp hc <;> rfl

/-- A text without separators. -/
def Undivided (text : List Char) : Prop := ∀ c ∈ text, isSeparator c = false

-- By the list's own instance: a search through all characters would not end in time.
instance (text : List Char) : Decidable (Undivided text) := List.decidableBAll (isSeparator · = false) text

theorem Undivided.not_mem {text : List Char} (htext : Undivided text) {c : Char} (hc : isSeparator c = true) :
    c ∉ text := by
  intro hmem
  rw [htext c hmem] at hc
  cases hc

/-- What stands behind the last separator of a name, or all of it if there is none. -/
def lastPart (name : List Char) : List Char := name.rtakeWhile fun c => !isSeparator c

theorem lastPart_of_undivided {text : List Char} (htext : Undivided text) : lastPart text = text := by
  rw [lastPart, List.rtakeWhile_eq_self_iff]
  intro c hc
  simp [htext c hc]

/-- The last part of a text is behind its last separator. -/
theorem lastPart_append {front rest : List Char} {c : Char} (hc : isSeparator c = true) :
    lastPart (front ++ c :: rest) = lastPart rest := by
  induction rest using List.reverseRecOn with
  | nil => rw [lastPart, List.rtakeWhile_concat_neg _ _ _ (by simp [hc]), lastPart, List.rtakeWhile_nil]
  | append_singleton rest last ih =>
    rw [← List.cons_append, ← List.append_assoc, lastPart, lastPart, List.rtakeWhile_concat,
      List.rtakeWhile_concat]
    split
    · exact congrArg (· ++ [last]) ih
    · rfl

/-- A text is undivided or splits at its first separator. -/
theorem undivided_or_split (text : List Char) :
    Undivided text ∨ ∃ part c rest, Undivided part ∧ isSeparator c = true ∧ text = part ++ c :: rest := by
  induction text with
  | nil => exact .inl (List.forall_mem_nil _)
  | cons c text ih =>
    cases hc : isSeparator c with
    | true => exact .inr ⟨[], c, text, List.forall_mem_nil _, hc, rfl⟩
    | false =>
      obtain htext | ⟨part, separator, rest, hpart, hseparator, rfl⟩ := ih
      · exact .inl (List.forall_mem_cons.mpr ⟨hc, htext⟩)
      · exact .inr ⟨c :: part, separator, rest, List.forall_mem_cons.mpr ⟨hc, hpart⟩, hseparator, rfl⟩

end BinaryName

namespace Segment

open BinaryName

variable {part rest : List Char}

/-- Without a digit at its start, a name starts with no anonymous class. -/
theorem anonymous?_of_head {name : List Char} (hhead : name.head?.any Char.isDigit = false) :
    anonymous? name = none := by
  cases name with
  | nil => rfl
  | cons c name =>
    rw [List.head?_cons, Option.any_some] at hhead
    simp [anonymous?, hhead]

/-- Nor does it start with a local class. -/
theorem localClass?_of_head {name : List Char} (hhead : name.head?.any Char.isDigit = false) :
    localClass? name = none := by
  cases name with
  | nil => rfl
  | cons c name =>
    rw [List.head?_cons, Option.any_some] at hhead
    have hdigits : ((c :: name).takeWhile (· ≠ '$')).dropLast.takeWhile Char.isDigit = [] := by
      rw [List.takeWhile_cons]
      split
      · cases name.takeWhile (· ≠ '$') with
        | nil => rfl
        | cons next more => simp [hhead]
      · rfl
    rw [localClass?, hdigits]
    rfl

/-- Behind the digits of an anonymous class a dollar sign is as good as the end of the name, and a dot is not. -/
theorem anonymous?_append {c : Char} (hpart : Undivided part) (hc : isSeparator c = true) (hrest : '\n' ∉ rest) :
    anonymous? (part ++ c :: rest) =
      if c = '$' then (anonymous? part).map fun segment => (segment.1, rest) else none := by
  obtain ⟨htake, hdrop⟩ := Text.takeWhile_append_cons (p := Char.isDigit) (isDigit_of_isSeparator hc) part rest
  simp only [anonymous?, htake, hdrop]
  split
  · simp
  · cases htail : part.dropWhile Char.isDigit with
    | nil => by_cases hdollar : c = '$' <;> simp [remainder?, hrest, hdollar]
    | cons first tail =>
      have hmem : first ∈ part := (List.dropWhile_sublist _).mem (htail ▸ List.mem_cons_self)
      have hfirst : first ≠ '$' := fun heq => hpart.not_mem rfl (heq ▸ hmem)
      simp [remainder?, hfirst]

/-- A dollar sign ends a local class as the end of the name does. -/
theorem localClass?_append_dollar (hpart : '$' ∉ part) (hrest : '\n' ∉ rest) :
    localClass? (part ++ '$' :: rest) =
      (localClass? part).map fun segment => (segment.1, segment.2.1, rest) := by
  have hall : ∀ c ∈ part, decide (c ≠ '$') = true := by
    intro c hc
    rw [decide_eq_true_eq]
    rintro rfl
    exact hpart hc
  obtain ⟨htake, hdrop⟩ := Text.takeWhile_append_cons (p := fun c => decide (c ≠ '$')) (c := '$') rfl part rest
  have hself := List.takeWhile_eq_self_iff.mpr hall
  have hnil := List.dropWhile_eq_nil_iff.mpr hall
  simp only [localClass?, htake, hdrop, hself, hnil, List.nil_append, remainder?, hrest]
  split
  · rfl
  · simp

/-- In a name of one line a segment ends at the first dollar sign or with the name. -/
theorem exists_remainder? {name : List Char} (hname : '\n' ∉ name) :
    ∃ after, remainder? (name.dropWhile (· ≠ '$')) = some after := by
  induction name with
  | nil => exact ⟨[], rfl⟩
  | cons c name ih =>
    rw [List.mem_cons, not_or] at hname
    by_cases hc : c = '$'
    · exact ⟨name, by simp [hc, remainder?, hname.2]⟩
    · simpa [hc] using ih hname.2

/-- A dot does not end the segment of a local class, but becomes part of the class name. -/
theorem localClass?_append_dot (hpart : Undivided part) (hrest : '\n' ∉ rest)
    (hdigits : part.takeWhile Char.isDigit ≠ []) :
    ∃ start after, localClass? (part ++ '.' :: rest) = some (part.takeWhile Char.isDigit, start, after) ∧
      '.' ∈ start := by
  have hall : ∀ c ∈ part, decide (c ≠ '$') = true := by
    intro c hc
    rw [decide_eq_true_eq]
    rintro rfl
    exact hpart.not_mem rfl hc
  obtain ⟨after, hafter⟩ := exists_remainder? hrest
  generalize hmore : rest.takeWhile (fun c => decide (c ≠ '$')) = more
  have hhead : (part ++ '.' :: rest).takeWhile (fun c => decide (c ≠ '$')) = part ++ '.' :: more := by
    rw [List.takeWhile_append_of_pos hall, List.takeWhile_cons_of_pos (by decide), hmore]
  have htail : (part ++ '.' :: rest).dropWhile (fun c => decide (c ≠ '$')) =
      rest.dropWhile fun c => decide (c ≠ '$') := by
    rw [List.dropWhile_append_of_pos hall, List.dropWhile_cons_of_pos (by decide)]
  have hrun : (part ++ '.' :: more).dropLast.takeWhile Char.isDigit = part.takeWhile Char.isDigit := by
    rw [List.dropLast_append_of_ne_nil (List.cons_ne_nil _ _)]
    cases more with
    | nil => rw [List.dropLast_singleton, List.append_nil]
    | cons next more => exact (Text.takeWhile_append_cons rfl part _).1
  refine ⟨(part ++ '.' :: more).drop (part.takeWhile Char.isDigit).length, after, ?_, ?_⟩
  · simp only [localClass?, hhead, htail, hrun, hafter, List.isEmpty_iff, if_neg hdigits, Option.map_some]
  · rw [List.drop_append_of_le_length (List.takeWhile_prefix _).length_le]
    simp

end Segment

namespace BinaryName

/-- Two names that are the same up to the separator behind a part that no digit starts. -/
inductive Varies : (name name' : List Char) → Prop where
  | same (name : List Char) : Varies name name
  | separator {front rest : List Char} {c d : Char} (hc : isSeparator c = true) (hd : isSeparator d = true)
      (hpart : (lastPart front).head?.any Char.isDigit = false) (hfront : '\n' ∉ front) (hrest : '\n' ∉ rest) :
      Varies (front ++ c :: rest) (front ++ d :: rest)

/-- Readings of a node that come to the same: both break off, or both decide, or both go on with names that are the
same up to a separator. -/
inductive Alike : (result result' : Except RankOverflow Step) → Prop where
  | same (result : Except RankOverflow Step) : Alike result result
  | onward {rest rest' : List Char} (inside : Bool) (hrest : Varies rest rest') :
      Alike (.ok (.onward inside rest)) (.ok (.onward inside rest'))

variable {ranks : RankIndex} {exact inside : Bool} {above : Option Kind} {node : Node} {id : NodeId}
  {className : String} {name name' front rest : List Char} {c d : Char}

/-- Behind an earlier separator the names still differ in the later one only. -/
theorem Varies.behind {part : List Char} {separator : Char} (hseparator : isSeparator separator = true)
    (hc : isSeparator c = true) (hd : isSeparator d = true)
    (hpart : (lastPart (part ++ separator :: front)).head?.any Char.isDigit = false)
    (hfront : '\n' ∉ part ++ separator :: front) (hrest : '\n' ∉ rest) :
    Varies (front ++ c :: rest) (front ++ d :: rest) := by
  rw [lastPart_append hseparator] at hpart
  refine .separator hc hd hpart ?_ hrest
  intro hmem
  exact hfront (List.mem_append_right part (List.mem_cons_of_mem separator hmem))

theorem Varies.isEmpty_eq (hvaries : Varies name name') : name.isEmpty = name'.isEmpty := by
  cases hvaries with
  | same => rfl
  | @separator front => cases front <;> rfl

/-- A rank that is read and compared leads to alike readings if what is behind its segment does. -/
theorem alike_rank {digits : List Char} {wants : Nat → Prop} [DecidablePred wants] (hrest : Varies name name') :
    Alike ((Segment.rank digits).map fun wanted => if wants wanted then .onward inside name else .decided false)
      ((Segment.rank digits).map fun wanted => if wants wanted then .onward inside name' else .decided false) := by
  cases Segment.rank digits with
  | error overflow => exact .same _
  | ok wanted =>
    rw [Except.map, Except.map]
    split
    · exact .onward inside hrest
    · exact .same _

/-- A class with a name of its own takes either separator. -/
theorem readMember_alike (hname : Undivided className.toList) (hvaries : Varies name name') :
    Alike (.ok (readMember exact className inside name)) (.ok (readMember exact className inside name')) := by
  cases hvaries with
  | same => exact .same _
  | @separator front rest c d hc hd hpart hfront hrest =>
    have hwhole : ∀ {separator : Char}, isSeparator separator = true →
        ¬ front ++ separator :: rest = className.toList := by
      intro separator hseparator heq
      exact hname.not_mem hseparator (heq ▸ List.mem_append_right front List.mem_cons_self)
    rw [readMember, readMember, if_neg (hwhole hc), if_neg (hwhole hd),
      Text.after?_append_cons (hname.not_mem hc), Text.after?_append_cons (hname.not_mem hd)]
    cases hafter : Text.after? className.toList front with
    | none => exact .same _
    | some after =>
      rw [Text.after?_eq_some_iff] at hafter
      subst hafter
      cases after with
      | nil =>
        simp only [Option.map_some, List.nil_append, isSeparator_iff.mp hc, isSeparator_iff.mp hd, if_true]
        exact .same _
      | cons separator after =>
        simp only [Option.map_some, List.cons_append]
        split
        · rename_i hseparator
          exact .onward inside (Varies.behind (isSeparator_iff.mpr hseparator) hc hd hpart hfront hrest)
        · exact .same _

theorem line_not_mem_append (hfront : '\n' ∉ front) (hrest : '\n' ∉ rest) (hc : isSeparator c = true) :
    '\n' ∉ front ++ c :: rest := by
  have hline : '\n' ≠ c := by
    rintro rfl
    cases hc
  rw [List.mem_append, List.mem_cons]
  rintro (hmem | rfl | hmem)
  · exact hfront hmem
  · exact hline rfl
  · exact hrest hmem

/-- The names start with no digit, or with a part that ends at a separator in both of them. -/
theorem Varies.cases_front (hvaries : Varies name name') :
    name = name' ∨ (name.head?.any Char.isDigit = false ∧ name'.head?.any Char.isDigit = false) ∨
      ∃ part separator rest rest', name = part ++ separator :: rest ∧ name' = part ++ separator :: rest' ∧
        Undivided part ∧ isSeparator separator = true ∧ '\n' ∉ rest ∧ '\n' ∉ rest' ∧ Varies rest rest' := by
  cases hvaries with
  | same => exact .inl rfl
  | @separator front rest c d hc hd hpart hfront hrest =>
    right
    obtain hundivided | ⟨part, separator, more, hundivided, hseparator, rfl⟩ := undivided_or_split front
    · left
      rw [lastPart_of_undivided hundivided] at hpart
      cases front with
      | nil => exact ⟨isDigit_of_isSeparator hc, isDigit_of_isSeparator hd⟩
      | cons first front => exact ⟨hpart, hpart⟩
    · right
      have hmore : '\n' ∉ more := fun hmem =>
        hfront (List.mem_append_right part (List.mem_cons_of_mem separator hmem))
      exact ⟨part, separator, more ++ c :: rest, more ++ d :: rest, by simp, by simp, hundivided, hseparator,
        line_not_mem_append hmore hrest hc, line_not_mem_append hmore hrest hd,
        .behind hseparator hc hd hpart hfront hrest⟩

/-- An anonymous class is read alike, since the separator that varies is not the one behind its digits. -/
theorem readAnonymous_alike (hvaries : Varies name name') :
    Alike (readAnonymous ranks id inside name) (readAnonymous ranks id inside name') := by
  obtain rfl | ⟨hhead, hhead'⟩ | ⟨part, separator, rest, rest', rfl, rfl, hpart, hseparator, hline, hline', hrest⟩ :=
    hvaries.cases_front
  · exact .same _
  · rw [readAnonymous, readAnonymous, Segment.anonymous?_of_head hhead, Segment.anonymous?_of_head hhead']
    exact .same _
  · rw [readAnonymous, readAnonymous, Segment.anonymous?_append hpart hseparator hline,
      Segment.anonymous?_append hpart hseparator hline']
    by_cases hdollar : separator = '$'
    · rw [if_pos hdollar, if_pos hdollar]
      cases Segment.anonymous? part with
      | none => exact .same _
      | some segment => exact alike_rank hrest
    · rw [if_neg hdollar, if_neg hdollar]
      exact .same _

/-- A dot in the segment of a local class is in no class name, so that only the digits count. -/
theorem readLocal_append_dot {part : List Char} (hname : Undivided className.toList) (hpart : Undivided part)
    (hrest : '\n' ∉ rest) :
    readLocal ranks id className inside (part ++ '.' :: rest) =
      if part.takeWhile Char.isDigit = [] then .ok (.decided false)
      else (Segment.rank (part.takeWhile Char.isDigit)).map fun _ => .decided false := by
  split
  · rename_i hdigits
    have hhead : (part ++ '.' :: rest).head?.any Char.isDigit = false := by
      cases part with
      | nil => rfl
      | cons first part =>
        cases hfirst : first.isDigit with
        | false => exact hfirst
        | true => simp [hfirst] at hdigits
    rw [readLocal, Segment.localClass?_of_head hhead]
  · rename_i hdigits
    obtain ⟨start, after, hsegment, hdot⟩ := Segment.localClass?_append_dot hpart hrest hdigits
    have hstart : ¬ start.isPrefixOf className.toList := by
      intro hprefix
      exact hname.not_mem rfl ((List.isPrefixOf_iff_prefix.mp hprefix).subset hdot)
    simp [readLocal, hsegment, hstart]

/-- A local class is read alike for the same reason. -/
theorem readLocal_alike (hname : Undivided className.toList) (hvaries : Varies name name') :
    Alike (readLocal ranks id className inside name) (readLocal ranks id className inside name') := by
  obtain rfl | ⟨hhead, hhead'⟩ | ⟨part, separator, rest, rest', rfl, rfl, hpart, hseparator, hline, hline', hrest⟩ :=
    hvaries.cases_front
  · exact .same _
  · rw [readLocal, readLocal, Segment.localClass?_of_head hhead, Segment.localClass?_of_head hhead']
    exact .same _
  · obtain rfl | rfl := isSeparator_iff.mp hseparator
    · rw [readLocal, readLocal, Segment.localClass?_append_dollar (hpart.not_mem rfl) hline,
        Segment.localClass?_append_dollar (hpart.not_mem rfl) hline']
      cases Segment.localClass? part with
      | none => exact .same _
      | some segment => exact alike_rank hrest
    · rw [readLocal_append_dot hname hpart hline, readLocal_append_dot hname hpart hline']
      exact .same _

/-- One node reads names alike that differ in a separator. -/
theorem readNode_alike (hunit : node.kind.isUnit = false)
    (hname : ∀ className ∈ node.kind.className?, Undivided className.toList) (hvaries : Varies name name') :
    Alike (readNode ranks exact above inside name node) (readNode ranks exact above inside name' node) := by
  cases hkind : node.kind with
  | unit package =>
    rw [hkind] at hunit
    cases hunit
  | classDecl className flavor =>
    have hundivided : Undivided className.toList := hname className (by rw [hkind]; rfl)
    cases hbody : above.any Kind.isConstruction with
    | true =>
      rw [readNode_body (by rw [hkind, Kind.isClass]) hbody, readNode_body (by rw [hkind, Kind.isClass]) hbody]
      exact .onward inside hvaries
    | false =>
      by_cases hblock : above = some .block
      · rw [hblock, readNode_local hkind, readNode_local hkind]
        exact readLocal_alike hundivided hvaries
      · rw [readNode_class hkind hblock hbody, readNode_class hkind hblock hbody]
        split
        · exact readAnonymous_alike hvaries
        · exact readMember_alike hundivided hvaries
  | construction body =>
    rw [readNode_construction hkind, readNode_construction hkind, ← hvaries.isEmpty_eq]
    split
    · exact .onward true hvaries
    · split
      · exact readAnonymous_alike hvaries
      · exact .onward inside hvaries
  | _ =>
    have hclass : node.kind.isClass = false := by rw [hkind]; rfl
    have hconstruction : node.kind.isConstruction = false := by rw [hkind]; rfl
    rw [readNode_plain hunit hclass hconstruction, readNode_plain hunit hclass hconstruction]
    split
    · exact .same _
    · exact .onward inside hvaries

/-- The nodes of a path read names alike that differ in a separator. -/
theorem walk_eq_of_varies {nodes : List Node} (hunit : ∀ node ∈ nodes, node.kind.isUnit = false)
    (hnames : ∀ node ∈ nodes, ∀ className ∈ node.kind.className?, Undivided className.toList)
    (hvaries : Varies name name') :
    walk ranks exact above inside name nodes = walk ranks exact above inside name' nodes := by
  induction nodes generalizing above inside name name' with
  | nil => rw [walk, walk, hvaries.isEmpty_eq]
  | cons node nodes ih =>
    rw [List.forall_mem_cons] at hunit hnames
    have halike : Alike (readNode ranks exact above inside name node) (readNode ranks exact above inside name' node) :=
      readNode_alike hunit.1 hnames.1 hvaries
    rw [walk, walk]
    generalize readNode ranks exact above inside name node = result at halike ⊢
    generalize readNode ranks exact above inside name' node = result' at halike ⊢
    cases halike with
    | same => rfl
    | onward inside hrest => exact ih hunit.2 hnames.2 hrest

end BinaryName

namespace Tree

/-- No class of the tree has a separator in its name. -/
def Undivided (tree : Tree) : Prop :=
  ∀ node ∈ tree.nodes.toList, ∀ className ∈ node.kind.className?, BinaryName.Undivided className.toList

instance (tree : Tree) : Decidable tree.Undivided :=
  inferInstanceAs (Decidable (∀ node ∈ tree.nodes.toList, ∀ className ∈ node.kind.className?, _))

variable {tree : Tree}

theorem Undivided.of_node? (hnames : tree.Undivided) {id : NodeId} {node : Node} (hnode : tree.node? id = some node) :
    ∀ className ∈ node.kind.className?, BinaryName.Undivided className.toList :=
  hnames node (Array.mem_toList_iff.mpr (Array.mem_of_getElem? hnode))

/-- A search answers the same for a dollar sign and for a dot behind a part of a name that does not start with a
digit, if no class has a separator in its name. -/
theorem inClass_dollar_eq_dot (htree : tree.Grown) (hnames : tree.Undivided) (ranks : RankIndex) (id : NodeId)
    (exact : Bool) (front rest : String) (hfront : '\n' ∉ front.toList) (hrest : '\n' ∉ rest.toList)
    (hpart : (BinaryName.lastPart front.toList).head?.any Char.isDigit = false) :
    (Criterion.inClass (String.ofList tree.packageText ++ front ++ "$" ++ rest) exact).holds ranks (tree.path? id) =
      (Criterion.inClass (String.ofList tree.packageText ++ front ++ "." ++ rest) exact).holds ranks
        (tree.path? id) := by
  have hwf := htree.wellFormed
  by_cases hid : id < tree.size
  · obtain ⟨root, below, hlineage, htop, hunit⟩ := hwf.exists_lineage_eq_cons hid
    have hlinked := hlineage ▸ hwf.linked_lineage id
    have hread {separator : String} {c : Char} (hseparator : separator.toList = [c]) :
        BinaryName.readNode ranks exact none false
          (String.ofList tree.packageText ++ front ++ separator ++ rest).toList root =
        .ok (.onward false (front.toList ++ c :: rest.toList)) := by
      rw [hwf.readNode_root_eq_onward_iff hunit htop]
      simp [hseparator]
    rw [hwf.holds_inClass hid, hwf.holds_inClass hid, hlineage, BinaryName.walk, BinaryName.walk, hread rfl, hread rfl]
    exact BinaryName.walk_eq_of_varies (hlinked.isUnit_of_mem hwf)
      (fun node hnode => hnames.of_node? (hlinked.known node (List.mem_cons_of_mem root hnode)))
      (.separator rfl rfl hpart hfront hrest)
  · rw [path?, lineage_eq_nil (node?_eq_none hid)]
    rfl

theorem dollar_eq_dot_sample : sample.Undivided ∧
    (Criterion.inClass "a.b.Outer.0Local" true).holds sample.ranks (sample.path? 12) = .ok true := by
  have hnames : sample.Undivided := by decide +kernel
  have hpackage : String.ofList sample.packageText = "a.b." := by decide +kernel
  have hsame := inClass_dollar_eq_dot grown_sample hnames sample.ranks 12 true "Outer" "0Local"
    (by decide) (by decide) (by decide)
  rw [hpackage] at hsame
  exact ⟨hnames, hsame.symm.trans (by decide +kernel)⟩

end Tree

end Pinpoint
