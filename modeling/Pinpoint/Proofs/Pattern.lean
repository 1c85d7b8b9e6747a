import Mathlib.Data.List.TakeWhile
import Mathlib.Tactic.Common

namespace Pinpoint

/-- Patterns in which single characters repeat and nothing else does. -/
inductive Pattern where
  /-- The start of the whole text. -/
  | start
  /-- The end of the whole text. -/
  | stop
  | char (c : Char)
  /-- At least so many characters, all of them accepted. -/
  | run (accepts : Char → Bool) (least : Nat)
  | seq (first second : Pattern)
  | optional (body : Pattern)
  | group (body : Pattern)

namespace Pattern

/-- What the groups have taken, in the order in which they open; a group that is passed over has taken nothing. -/
abbrev Groups := List (Option (List Char))

/-- The text of a group, empty if the group is passed over. -/
def groupText (groups : Groups) (index : Nat) : List Char := groups[index]?.join.getD []

def groupCount : Pattern → Nat
  | .start | .stop | .char _ | .run _ _ => 0
  | .seq first second => first.groupCount + second.groupCount
  | .optional body => body.groupCount
  | .group body => body.groupCount + 1

/-- The pattern matches `taken`, which stands between `before` and `after`, and its groups take `groups`. -/
inductive Matches : Pattern → (before taken after : List Char) → Groups → Prop where
  | start {after : List Char} : Matches .start [] [] after []
  | stop {before : List Char} : Matches .stop before [] [] []
  | char {c : Char} {before after : List Char} : Matches (.char c) before [c] after []
  | run {accepts : Char → Bool} {least : Nat} {before taken after : List Char}
      (haccepts : ∀ c ∈ taken, accepts c = true) (hleast : least ≤ taken.length) :
      Matches (.run accepts least) before taken after []
  | seq {first second : Pattern} {before taken taken' after : List Char} {groups groups' : Groups}
      (hfirst : Matches first before taken (taken' ++ after) groups)
      (hsecond : Matches second (before ++ taken) taken' after groups') :
      Matches (.seq first second) before (taken ++ taken') after (groups ++ groups')
  | skip {body : Pattern} {before after : List Char} :
      Matches (.optional body) before [] after (List.replicate body.groupCount none)
  | take {body : Pattern} {before taken after : List Char} {groups : Groups}
      (hbody : Matches body before taken after groups) : Matches (.optional body) before taken after groups
  | group {body : Pattern} {before taken after : List Char} {groups : Groups}
      (hbody : Matches body before taken after groups) :
      Matches (.group body) before taken after (some taken :: groups)

/-- A match in a text. The whole match comes before the groups, so that these count from one. -/
def Accepts (pattern : Pattern) (text : List Char) (groups : Groups) : Prop :=
  ∃ before taken after inner, text = before ++ taken ++ after ∧ pattern.Matches before taken after inner ∧
    groups = some taken :: inner

/-- A match whose first group is as long as in any match. -/
structure Preferred (pattern : Pattern) (text : List Char) (groups : Groups) : Prop where
  accepts : pattern.Accepts text groups
  longest : ∀ others, pattern.Accepts text others → (groupText others 1).length ≤ (groupText groups 1).length

/-- What a search has come to at the end of a pattern. -/
structure Found where
  taken : List Char
  after : List Char
  groups : Groups

/-- How many characters a run may take, the most first. -/
def runLengths (accepts : Char → Bool) (least : Nat) (rest : List Char) : List Nat :=
  (List.range ((rest.takeWhile accepts).length + 1)).reverse.filter (least ≤ ·)

/-- All ways to match at the start of `rest`, the preferred ones first. -/
def search : Pattern → (before rest : List Char) → List Found
  | .start, before, rest => if before = [] then [⟨[], rest, []⟩] else []
  | .stop, _, rest => if rest = [] then [⟨[], [], []⟩] else []
  | .char c, _, rest => if rest.head? = some c then [⟨[c], rest.tail, []⟩] else []
  | .run accepts least, _, rest =>
    (runLengths accepts least rest).map fun length => ⟨rest.take length, rest.drop length, []⟩
  | .seq first second, before, rest =>
    (first.search before rest).flatMap fun found =>
      (second.search (before ++ found.taken) found.after).map fun next =>
        ⟨found.taken ++ next.taken, next.after, found.groups ++ next.groups⟩
  | .optional body, before, rest =>
    body.search before rest ++ [⟨[], rest, List.replicate body.groupCount none⟩]
  | .group body, before, rest =>
    (body.search before rest).map fun found => ⟨found.taken, found.after, some found.taken :: found.groups⟩

/-- All matches in a text, those that start earlier first. -/
def all (pattern : Pattern) (text : List Char) : List Groups :=
  (List.range (text.length + 1)).flatMap fun position =>
    (pattern.search (text.take position) (text.drop position)).map fun found => some found.taken :: found.groups

/-- The groups of the first match, if there is one. -/
def captures? (pattern : Pattern) (text : List Char) : Option Groups := (pattern.all text).head?

variable {pattern second tail : Pattern} {accepts : Char → Bool} {least : Nat}
  {text before taken after rest : List Char} {groups : Groups}

/-- A run can be as long as the characters that it accepts, and no shorter than its least length. -/
theorem mem_runLengths_iff {length : Nat} :
    length ∈ runLengths accepts least rest ↔ length ≤ (rest.takeWhile accepts).length ∧ least ≤ length := by
  rw [runLengths, List.mem_filter, List.mem_reverse, List.mem_range, decide_eq_true_eq, Nat.lt_succ_iff]

theorem length_le_of_mem_runLengths {length : Nat} (hlength : length ∈ runLengths accepts least rest) :
    length ≤ rest.length :=
  Nat.le_trans (mem_runLengths_iff.mp hlength).1 (List.takeWhile_prefix accepts).length_le

/-- Longer runs are tried first. -/
theorem pairwise_runLengths : (runLengths accepts least rest).Pairwise (· > ·) :=
  (List.pairwise_reverse.mpr List.pairwise_lt_range).filter _

/-- A run takes just the starts of a text that are accepted throughout and long enough. -/
theorem exists_mem_runLengths_iff :
    (∃ length ∈ runLengths accepts least rest, rest.take length = taken ∧ rest.drop length = after) ↔
      rest = taken ++ after ∧ (∀ c ∈ taken, accepts c = true) ∧ least ≤ taken.length := by
  constructor
  · rintro ⟨length, hlength, rfl, rfl⟩
    have hle := length_le_of_mem_runLengths hlength
    obtain ⟨hmost, hleast⟩ := mem_runLengths_iff.mp hlength
    refine ⟨(List.take_append_drop length rest).symm, fun c hc => ?_, by rw [List.length_take]; omega⟩
    have hstart : rest.take length <+: rest.takeWhile accepts :=
      List.prefix_of_prefix_length_le (List.take_prefix length rest) (List.takeWhile_prefix accepts)
        (by rw [List.length_take]; omega)
    exact List.mem_takeWhile_imp (hstart.subset hc)
  · rintro ⟨rfl, haccepts, hleast⟩
    have hmost : taken.length ≤ ((taken ++ after).takeWhile accepts).length := by
      rw [List.takeWhile_append_of_pos haccepts, List.length_append]
      exact Nat.le_add_right _ _
    exact ⟨taken.length, mem_runLengths_iff.mpr ⟨hmost, hleast⟩, List.take_left, List.drop_left⟩

/-- A search lists just the matches. -/
theorem mem_search_iff : ⟨taken, after, groups⟩ ∈ pattern.search before rest ↔
    rest = taken ++ after ∧ pattern.Matches before taken after groups := by
  induction pattern generalizing before rest taken after groups with
  | start =>
    rw [search, List.mem_ite_nil_right, List.mem_singleton]
    constructor
    · rintro ⟨rfl, ⟨⟩⟩
      exact ⟨rfl, .start⟩
    · rintro ⟨rfl, ⟨⟩⟩
      exact ⟨rfl, rfl⟩
  | stop =>
    rw [search, List.mem_ite_nil_right, List.mem_singleton]
    constructor
    · rintro ⟨rfl, ⟨⟩⟩
      exact ⟨rfl, .stop⟩
    · rintro ⟨rfl, ⟨⟩⟩
      exact ⟨rfl, rfl⟩
  | char c =>
    rw [search, List.mem_ite_nil_right, List.mem_singleton]
    constructor
    · rintro ⟨hhead, ⟨⟩⟩
      obtain ⟨after, rfl⟩ := List.head?_eq_some_iff.mp hhead
      exact ⟨rfl, .char⟩
    · rintro ⟨rfl, ⟨⟩⟩
      exact ⟨rfl, rfl⟩
  | run accepts least =>
    rw [search, List.mem_map]
    constructor
    · rintro ⟨length, hlength, hfound⟩
      cases hfound
      obtain ⟨hrest, haccepts, hleast⟩ := exists_mem_runLengths_iff.mp ⟨length, hlength, rfl, rfl⟩
      exact ⟨hrest, .run haccepts hleast⟩
    · rintro ⟨hrest, hmatches⟩
      cases hmatches with
      | run haccepts hleast =>
        obtain ⟨length, hlength, rfl, rfl⟩ := exists_mem_runLengths_iff.mpr ⟨hrest, haccepts, hleast⟩
        exact ⟨length, hlength, rfl⟩
  | seq first second ihFirst ihSecond =>
    rw [search, List.mem_flatMap]
    -- the second part is searched for behind each match of the first, which is before it then
    constructor
    · rintro ⟨⟨taken₁, after₁, groups₁⟩, hmem₁, hmem⟩
      obtain ⟨⟨taken₂, after₂, groups₂⟩, hmem₂, hfound⟩ := List.mem_map.mp hmem
      cases hfound
      obtain ⟨rfl, hfirst⟩ := ihFirst.mp hmem₁
      obtain ⟨rfl, hsecond⟩ := ihSecond.mp hmem₂
      exact ⟨(List.append_assoc _ _ _).symm, .seq hfirst hsecond⟩
    · rintro ⟨rfl, hmatches⟩
      cases hmatches with
      | @seq _ _ _ taken₁ taken₂ _ groups₁ groups₂ hfirst hsecond =>
        refine ⟨⟨taken₁, taken₂ ++ after, groups₁⟩, ihFirst.mpr ⟨List.append_assoc _ _ _, hfirst⟩, ?_⟩
        exact List.mem_map.mpr ⟨⟨taken₂, after, groups₂⟩, ihSecond.mpr ⟨rfl, hsecond⟩, rfl⟩
  | optional body ih =>
    rw [search, List.mem_append, ih, List.mem_singleton]
    constructor
    · rintro (⟨hrest, hbody⟩ | hfound)
      · exact ⟨hrest, .take hbody⟩
      · cases hfound
        exact ⟨rfl, .skip⟩
    · rintro ⟨rfl, hmatches⟩
      cases hmatches with
      | skip => exact .inr rfl
      | take hbody => exact .inl ⟨rfl, hbody⟩
  | group body ih =>
    rw [search, List.mem_map]
    constructor
    · rintro ⟨⟨taken₁, after₁, groups₁⟩, hmem, hfound⟩
      cases hfound
      obtain ⟨hrest, hbody⟩ := ih.mp hmem
      exact ⟨hrest, .group hbody⟩
    · rintro ⟨hrest, hmatches⟩
      cases hmatches with
      | @group _ _ _ _ inner hbody => exact ⟨⟨taken, after, inner⟩, ih.mpr ⟨hrest, hbody⟩, rfl⟩

/-- The search lists just what the pattern accepts. -/
theorem mem_all_iff : groups ∈ pattern.all text ↔ pattern.Accepts text groups := by
  rw [all, List.mem_flatMap]
  constructor
  · rintro ⟨position, -, hmem⟩
    obtain ⟨⟨taken, after, inner⟩, hsearch, rfl⟩ := List.mem_map.mp hmem
    obtain ⟨hdrop, hmatches⟩ := mem_search_iff.mp hsearch
    refine ⟨text.take position, taken, after, inner, ?_, hmatches, rfl⟩
    rw [List.append_assoc, ← hdrop, List.take_append_drop]
  · rintro ⟨before, taken, after, inner, rfl, hmatches, rfl⟩
    refine ⟨before.length, List.mem_range.mpr (by simp only [List.length_append]; omega), ?_⟩
    rw [List.append_assoc, List.take_left, List.drop_left]
    exact List.mem_map.mpr ⟨⟨taken, after, inner⟩, mem_search_iff.mpr ⟨rfl, hmatches⟩, rfl⟩

/-- The search finds something just when the pattern accepts the text in some way. -/
theorem isSome_captures?_iff : (pattern.captures? text).isSome = true ↔ ∃ groups, pattern.Accepts text groups := by
  rw [captures?, List.isSome_head?]
  constructor
  · intro hne
    obtain ⟨groups, hmem⟩ := List.exists_mem_of_ne_nil _ hne
    exact ⟨groups, mem_all_iff.mp hmem⟩
  · rintro ⟨groups, haccepts⟩
    exact List.ne_nil_of_mem (mem_all_iff.mpr haccepts)

/-- A pattern that is tied to the start of the text is searched for there only. -/
theorem all_start_seq : (Pattern.seq .start second).all text =
    (second.search [] text).map fun found => some found.taken :: found.groups := by
  have hlater : ∀ position ∈ List.range text.length,
      ((Pattern.seq .start second).search (text.take (position + 1)) (text.drop (position + 1))) = [] := by
    intro position hposition
    have hbefore : text.take (position + 1) ≠ [] := by
      have hlt := List.mem_range.mp hposition
      rw [← List.length_pos_iff, List.length_take]
      omega
    rw [search, search, if_neg hbefore, List.flatMap_nil]
  rw [all, List.range_succ_eq_map, List.flatMap_cons, List.flatMap_map, List.flatMap_eq_nil_iff.mpr, List.append_nil]
  · simp [search]
  · intro position hposition
    rw [Nat.succ_eq_add_one, hlater position hposition, List.map_nil]

/-- A search for a run in a group lists the ways to match by the length of that group. -/
theorem pairwise_search_run :
    ((Pattern.seq (.group (.run accepts least)) tail).search before rest).Pairwise fun found found' =>
      (groupText found'.groups 0).length ≤ (groupText found.groups 0).length := by
  rw [search, search, search, List.map_map, List.flatMap_map, List.pairwise_flatMap]
  constructor
  · -- the group has one length as long as the run has
    intro length _
    rw [List.pairwise_map]
    exact List.pairwise_of_forall fun _ _ => Nat.le_refl _
  · refine pairwise_runLengths.imp fun {length length'} hgt => ?_
    intro found hfound found' hfound'
    obtain ⟨next, -, rfl⟩ := List.mem_map.mp hfound
    obtain ⟨next', -, rfl⟩ := List.mem_map.mp hfound'
    change (rest.take length').length ≤ (rest.take length).length
    rw [List.length_take, List.length_take]
    omega

/-- Where the pattern matches it does so in one way. -/
def Determinate (pattern : Pattern) : Prop :=
  ∀ ⦃before taken after groups taken' after' groups'⦄, taken ++ after = taken' ++ after' →
    pattern.Matches before taken after groups → pattern.Matches before taken' after' groups' →
    taken = taken' ∧ groups = groups'

/-- A pattern that is tied to the start of the text and has a run as its first group. -/
abbrev led (accepts : Char → Bool) (least : Nat) (tail : Pattern) : Pattern :=
  .seq .start (.seq (.group (.run accepts least)) tail)

/-- A run in a group captures the characters that it takes. -/
theorem Matches.of_group_run (hmatches : (Pattern.group (.run accepts least)).Matches before taken after groups) :
    (∀ c ∈ taken, accepts c = true) ∧ least ≤ taken.length ∧ groups = [some taken] := by
  cases hmatches with
  | group hbody =>
    cases hbody with
    | run haccepts hleast => exact ⟨haccepts, hleast, rfl⟩

/-- A pattern that starts with a run in a group, from the start of the text: the run leads, and the rest matches
behind it. -/
theorem accepts_led_iff : (led accepts least tail).Accepts text groups ↔
    ∃ lead taken after inner, text = lead ++ (taken ++ after) ∧ (∀ c ∈ lead, accepts c = true) ∧
      least ≤ lead.length ∧ tail.Matches lead taken after inner ∧
      groups = some (lead ++ taken) :: some lead :: inner := by
  constructor
  · rintro ⟨before, taken, after, inner, rfl, hmatches, rfl⟩
    cases hmatches with
    | seq hstart hrest =>
      cases hstart
      cases hrest with
      | @seq _ _ _ lead taken _ _ inner hlead htail =>
        obtain ⟨haccepts, hleast, rfl⟩ := hlead.of_group_run
        exact ⟨lead, taken, after, inner, by simp, haccepts, hleast, htail, rfl⟩
  · rintro ⟨lead, taken, after, inner, rfl, haccepts, hleast, htail, rfl⟩
    exact ⟨[], lead ++ taken, after, some lead :: inner, by simp,
      .seq .start (.seq (.group (.run haccepts hleast)) htail), rfl⟩

/-- The match that is listed first has the longest first group. -/
theorem preferred_of_captures? (hcaptures : (led accepts least tail).captures? text = some groups) :
    (led accepts least tail).Preferred text groups := by
  obtain ⟨others, hall⟩ := List.head?_eq_some_iff.mp hcaptures
  have horder : ((led accepts least tail).all text).Pairwise fun groups groups' =>
      (groupText groups' 1).length ≤ (groupText groups 1).length := by
    rw [all_start_seq, List.pairwise_map]
    exact pairwise_search_run
  refine ⟨mem_all_iff.mp (hall ▸ List.mem_cons_self), fun other hother => ?_⟩
  rw [← mem_all_iff, hall] at hother
  rw [hall] at horder
  obtain rfl | hother := List.mem_cons.mp hother
  · exact Nat.le_refl _
  · exact List.rel_of_pairwise_cons horder hother

/-- First groups of one length are the same start of the text, and the rest of the pattern leaves no choice. -/
theorem Preferred.unique {groups' : Groups} (htail : tail.Determinate)
    (hpreferred : (led accepts least tail).Preferred text groups)
    (hpreferred' : (led accepts least tail).Preferred text groups') : groups = groups' := by
  have hlength := Nat.le_antisymm (hpreferred'.longest _ hpreferred.accepts)
    (hpreferred.longest _ hpreferred'.accepts)
  obtain ⟨lead, taken, after, inner, htext, -, -, hmatches, rfl⟩ := accepts_led_iff.mp hpreferred.accepts
  obtain ⟨lead', taken', after', inner', htext', -, -, hmatches', rfl⟩ := accepts_led_iff.mp hpreferred'.accepts
  obtain ⟨rfl, hrest⟩ := List.append_inj (htext.symm.trans htext') hlength
  obtain ⟨rfl, rfl⟩ := htail hrest hmatches hmatches'
  rfl

/-- What is captured first is what the preferred match captures. -/
theorem captures?_eq_some_iff_preferred (htail : tail.Determinate) :
    (led accepts least tail).captures? text = some groups ↔ (led accepts least tail).Preferred text groups := by
  refine ⟨preferred_of_captures?, fun hpreferred => ?_⟩
  have hsome := isSome_captures?_iff.mpr ⟨groups, hpreferred.accepts⟩
  obtain ⟨first, hcaptures⟩ := Option.isSome_iff_exists.mp hsome
  rw [hcaptures, (preferred_of_captures? hcaptures).unique htail hpreferred]

/-- A reader that comes to what the groups of a pattern show: it reads the texts in which there is a match, and
of several matches the one that a search lists first, which is the one with the longest first group. -/
structure ReadBy {α : Type} (pattern : Pattern) (read? : List Char → Option α) (view : Groups → α) : Prop where
  isSome_iff : ∀ text, (read? text).isSome = true ↔ ∃ groups, pattern.Accepts text groups
  eq_captures : ∀ text, read? text = (pattern.captures? text).map view
  captures_iff : ∀ text groups, pattern.captures? text = some groups ↔ pattern.Preferred text groups

/-- A reader that reads the preferred match off the text comes to what the search finds. -/
theorem readBy_of_preferred {α : Type} {read? : List Char → Option α} {view : Groups → α}
    (htail : tail.Determinate)
    (hread : ∀ text value, read? text = some value ↔
      ∃ groups, (led accepts least tail).Preferred text groups ∧ view groups = value) :
    (led accepts least tail).ReadBy read? view := by
  have hcaptures (text : List Char) : read? text = ((led accepts least tail).captures? text).map view := by
    apply Option.ext
    intro value
    rw [hread, Option.map_eq_some_iff]
    simp only [captures?_eq_some_iff_preferred htail]
  refine ⟨fun text => ?_, hcaptures, fun text groups => captures?_eq_some_iff_preferred htail⟩
  rw [hcaptures, Option.isSome_map, isSome_captures?_iff]

end Pattern

end Pinpoint
