import Mathlib.Data.List.Basic
import Mathlib.Tactic.Common
import Pinpoint.Proofs.Method.Signature
import Pinpoint.Proofs.Sites
import Pinpoint.Proofs.Source.FirstFault

namespace Pinpoint

namespace WrittenCriterion

/-- A criterion that can be set up: its class has a name, or its text spells a signature. -/
def Valid : WrittenCriterion → Prop
  | .inClass className _ => className ≠ ""
  | .onReceiver text => ∃ name parameters, MethodSignature.Spells text.toList name parameters
  | .hasSignature text => ∃ name parameters, MethodSignature.Spells text.toList name parameters

/-- A criterion that cannot be set up, and why. -/
inductive Faulty : WrittenCriterion → CriterionFault → Prop where
  | noClassName {exact : Bool} : Faulty (.inClass "" exact) .noClassName
  | onReceiver {text : String} {fault : SignatureFault}
      (htext : MethodSignature.Misspells text.toList fault) :
      Faulty (.onReceiver text) (.badSignature text fault.reason)
  | hasSignature {text : String} {fault : SignatureFault}
      (htext : MethodSignature.Misspells text.toList fault) :
      Faulty (.hasSignature text) (.badSignature text fault.reason)

/-- A signature is read just off the texts that spell one. -/
theorem exists_ofText_iff {text : String} :
    (∃ signature, MethodSignature.ofText text = .ok signature) ↔
      ∃ name parameters, MethodSignature.Spells text.toList name parameters := by
  constructor
  · rintro ⟨signature, htext⟩
    rw [MethodSignature.ofText] at htext
    split at htext
    · rename_i read hparse
      exact ⟨_, _, (MethodSignature.parse_eq_ok_iff.mp hparse).2⟩
    · cases htext
  · rintro ⟨name, parameters, hspells⟩
    have hparse : MethodSignature.parse text = .ok ⟨text, String.ofList name, String.ofList parameters⟩ := by
      apply MethodSignature.Spells.parse_eq
      simpa using hspells
    exact ⟨_, by rw [MethodSignature.ofText, hparse]⟩

/-- A text is refused with what is wrong with it. -/
theorem ofText_eq_error_iff {text : String} {fault : CriterionFault} :
    MethodSignature.ofText text = .error fault ↔
      ∃ reason, MethodSignature.Misspells text.toList reason ∧ .badSignature text reason.reason = fault := by
  simp only [← MethodSignature.parse_eq_error_iff, MethodSignature.ofText]
  cases MethodSignature.parse text <;> simp

/-- The criterion that is asked for exists just when it is valid. -/
theorem exists_build_iff {written : WrittenCriterion} :
    (∃ criterion, written.build = .ok criterion) ↔ written.Valid := by
  cases written with
  | inClass className exact => by_cases hname : className = "" <;> simp [build, Valid, hname]
  | onReceiver text =>
    rw [Valid, ← exists_ofText_iff, build, Criterion.ofReceiver]
    cases MethodSignature.ofText text <;> simp [Except.map]
  | hasSignature text =>
    rw [Valid, ← exists_ofText_iff, build, Criterion.ofSignature]
    cases MethodSignature.ofText text <;> simp [Except.map]

/-- A criterion is refused for just the faults it has. -/
theorem build_eq_error_iff {written : WrittenCriterion} {fault : CriterionFault} :
    written.build = .error fault ↔ written.Faulty fault := by
  constructor
  · intro hbuild
    cases written with
    | inClass className exact =>
      by_cases hname : className = ""
      · subst hname
        cases hbuild
        exact .noClassName
      · simp [build, hname] at hbuild
    | onReceiver text =>
      obtain ⟨reason, htext, rfl⟩ := ofText_eq_error_iff.mp (Except.map_eq_error_iff.mp hbuild)
      exact .onReceiver htext
    | hasSignature text =>
      obtain ⟨reason, htext, rfl⟩ := ofText_eq_error_iff.mp (Except.map_eq_error_iff.mp hbuild)
      exact .hasSignature htext
  · intro hfaulty
    cases hfaulty with
    | noClassName => rfl
    | onReceiver htext => exact Except.map_eq_error_iff.mpr (ofText_eq_error_iff.mpr ⟨_, htext, rfl⟩)
    | hasSignature htext => exact Except.map_eq_error_iff.mpr (ofText_eq_error_iff.mpr ⟨_, htext, rfl⟩)

/-- Criteria are set up in order, up to the first that cannot be. -/
theorem buildAll_eq_error_iff {criteria : List WrittenCriterion} {fault : CriterionFault} :
    buildAll criteria = .error fault ↔ FirstFault Faulty criteria fault := by
  induction criteria with
  | nil => simp [buildAll, FirstFault.not_nil]
  | cons written rest ih =>
    rw [buildAll, FirstFault.cons_iff, ← ih]
    simp only [← build_eq_error_iff]
    cases written.build with
    | error error => simp
    | ok criterion => cases buildAll rest <;> simp [Except.map]

/-- A criterion is valid just when nothing is wrong with it. -/
theorem valid_iff {written : WrittenCriterion} : written.Valid ↔ ∀ fault, ¬ written.Faulty fault := by
  rw [← exists_build_iff, Except.exists_eq_ok_iff]
  simp only [ne_eq, build_eq_error_iff]

/-- Criteria are set up just when all of them are valid. -/
theorem exists_buildAll_iff {criteria : List WrittenCriterion} :
    (∃ built, buildAll criteria = .ok built) ↔ ∀ written ∈ criteria, written.Valid := by
  rw [Except.exists_eq_ok_iff]
  simp only [ne_eq, buildAll_eq_error_iff, FirstFault.none_iff, valid_iff]

end WrittenCriterion

namespace SiteRequest

variable {request : SiteRequest} {failure : Failure}

/-- A node that an outline of `size` nodes does not have. -/
def Missing (size : Nat) (id missing : NodeId) : Prop := ¬ id < size ∧ missing = id

/-- A request without a fault. -/
structure Sound (request : SiteRequest) : Prop where
  criteria : ∀ written ∈ request.criteria, written.Valid
  tree : request.tree.kind.isUnit = true ∧ request.tree.Sound
  candidates : ∀ ids, request.candidates = some ids → ∀ id ∈ ids, id < request.tree.size

/-- Why a request is refused. A fault counts only where all that is looked at before is sound. -/
inductive Refused (request : SiteRequest) : Failure → Prop where
  | criterion {fault : CriterionFault}
      (hfirst : FirstFault WrittenCriterion.Faulty request.criteria fault) :
      Refused request (.badCriterion fault)
  | tree {fault : TreeFault} (hcriteria : ∀ written ∈ request.criteria, written.Valid)
      (hfirst : FirstFault Outline.Breaks request.tree.nodes fault) : Refused request (.badTree fault)
  | candidate {ids : List NodeId} {missing : NodeId}
      (hcriteria : ∀ written ∈ request.criteria, written.Valid)
      (htree : request.tree.kind.isUnit = true ∧ request.tree.Sound)
      (hids : request.candidates = some ids)
      (hfirst : FirstFault (Missing request.tree.size) ids missing) :
      Refused request (.unknownNode missing)

/-- The first candidate that is not found is the first that the outline does not have. -/
theorem find?_isNone_eq_some_iff {tree : Tree} (htree : Tree.ofOutline request.tree = .ok tree)
    {ids : List NodeId} {missing : NodeId} :
    (ids.find? fun id => (tree.node? id).isNone) = some missing ↔
      FirstFault (Missing request.tree.size) ids missing := by
  have hnone {id : NodeId} : (tree.node? id).isNone = true ↔ ¬ id < request.tree.size := by
    rw [← Tree.size_ofOutline htree, ← Tree.node?_isSome_iff, ← Option.isSome_iff_exists]
    simp
  rw [List.find?_eq_some_iff_append, hnone]
  constructor
  · rintro ⟨hmissing, before, after, hids, hbefore⟩
    refine ⟨before, missing, after, hids, ?_, hmissing, rfl⟩
    rintro earlier hearlier _ ⟨hearlierMissing, -⟩
    have hfound := hbefore earlier hearlier
    rw [hnone.mpr hearlierMissing] at hfound
    cases hfound
  · rintro ⟨before, id, after, hids, hbefore, hmissing, rfl⟩
    refine ⟨hmissing, before, after, hids, ?_⟩
    intro earlier hearlier
    rw [Bool.not_eq_true', Bool.eq_false_iff, Ne, hnone]
    exact fun hearlierMissing => hbefore earlier hearlier earlier ⟨hearlierMissing, rfl⟩

/-- Where the checks of a request end: at its criteria, at its tree or at its candidates. -/
theorem ofRequest_error_cases :
    Search.ofRequest request = .error failure ↔
      (∃ fault, WrittenCriterion.buildAll request.criteria = .error fault ∧
        .badCriterion fault = failure) ∨
      (∃ criteria, WrittenCriterion.buildAll request.criteria = .ok criteria ∧
        ((∃ fault, Tree.ofOutline request.tree = .error fault ∧ .badTree fault = failure) ∨
        ∃ tree, Tree.ofOutline request.tree = .ok tree ∧ ∃ ids, request.candidates = some ids ∧
          ∃ missing, (ids.find? fun id => (tree.node? id).isNone) = some missing ∧
            .unknownNode missing = failure)) := by
  rw [Search.ofRequest]
  cases WrittenCriterion.buildAll request.criteria with
  | error error => simp
  | ok criteria =>
    cases Tree.ofOutline request.tree with
    | error error => simp
    | ok tree =>
      cases request.candidates with
      | none => simp
      | some ids => cases hfind : ids.find? fun id => (tree.node? id).isNone <;> simp [hfind]

/-- A request is refused for the first fault in the order in which its parts are looked at. -/
theorem ofRequest_eq_error_iff : Search.ofRequest request = .error failure ↔ request.Refused failure := by
  rw [ofRequest_error_cases]
  constructor
  · rintro (⟨fault, hcriteria, rfl⟩ | ⟨criteria, hcriteria, ⟨fault, htree, rfl⟩ |
      ⟨tree, htree, ids, hids, missing, hfind, rfl⟩⟩)
    · exact .criterion (WrittenCriterion.buildAll_eq_error_iff.mp hcriteria)
    · exact .tree (WrittenCriterion.exists_buildAll_iff.mp ⟨criteria, hcriteria⟩)
        (Tree.ofOutline_eq_error_iff.mp htree)
    · exact .candidate (WrittenCriterion.exists_buildAll_iff.mp ⟨criteria, hcriteria⟩)
        (Tree.exists_ofOutline_iff.mp ⟨tree, htree⟩) hids ((find?_isNone_eq_some_iff htree).mp hfind)
  · intro hrefused
    cases hrefused with
    | criterion hfirst => exact .inl ⟨_, WrittenCriterion.buildAll_eq_error_iff.mpr hfirst, rfl⟩
    | tree hcriteria hfirst =>
      obtain ⟨criteria, hcriteria⟩ := WrittenCriterion.exists_buildAll_iff.mpr hcriteria
      exact .inr ⟨criteria, hcriteria, .inl ⟨_, Tree.ofOutline_eq_error_iff.mpr hfirst, rfl⟩⟩
    | candidate hcriteria hsound hids hfirst =>
      obtain ⟨criteria, hcriteria⟩ := WrittenCriterion.exists_buildAll_iff.mpr hcriteria
      obtain ⟨tree, htree⟩ := Tree.exists_ofOutline_iff.mpr hsound
      exact .inr ⟨criteria, hcriteria,
        .inr ⟨tree, htree, _, hids, _, (find?_isNone_eq_some_iff htree).mpr hfirst, rfl⟩⟩

/-- A request without a fault is not refused. -/
theorem Sound.not_refused (hsound : request.Sound) : ¬ request.Refused failure := by
  intro hrefused
  cases hrefused with
  | criterion hfirst =>
    obtain ⟨criteria, hcriteria⟩ := WrittenCriterion.exists_buildAll_iff.mpr hsound.criteria
    cases hcriteria.symm.trans (WrittenCriterion.buildAll_eq_error_iff.mpr hfirst)
  | tree _ hfirst =>
    obtain ⟨tree, htree⟩ := Tree.exists_ofOutline_iff.mpr hsound.tree
    cases htree.symm.trans (Tree.ofOutline_eq_error_iff.mpr hfirst)
  | candidate _ _ hids hfirst =>
    obtain ⟨before, id, after, rfl, -, hmissing, -⟩ := hfirst
    exact hmissing (hsound.candidates _ hids id (by simp))

/-- A request can be searched for just when it is sound. -/
theorem exists_ofRequest_iff : (∃ search, Search.ofRequest request = .ok search) ↔ request.Sound := by
  constructor
  · rintro ⟨search, hsearch⟩
    obtain ⟨hcriteria, htree, hcandidates, hlt⟩ := Search.ofRequest_eq_ok hsearch
    refine ⟨WrittenCriterion.exists_buildAll_iff.mp ⟨_, hcriteria⟩,
      Tree.exists_ofOutline_iff.mp ⟨_, htree⟩, ?_⟩
    intro ids hids id hid
    rw [hids, Option.getD_some] at hcandidates
    rw [← Tree.size_ofOutline htree]
    exact hlt id (hcandidates ▸ hid)
  · intro hsound
    cases hsearch : Search.ofRequest request with
    | error failure => exact absurd (ofRequest_eq_error_iff.mp hsearch) hsound.not_refused
    | ok search => exact ⟨search, rfl⟩

/-- A request fails in its checks or not at all. -/
theorem answer_eq_failure_iff :
    request.answer = .error (.failure failure) ↔ Search.ofRequest request = .error failure := by
  rw [answer]
  cases Search.ofRequest request with
  | error error => simp
  | ok search => cases hrun : search.run <;> simp [hrun]

/-- A request fails for the first fault that it has, those of the criteria coming before those of the tree and
these before those of the candidates. Unless the rank in a class name is too long, it is answered just when it
has no fault. -/
theorem answer_first_fault (request : SiteRequest) :
    (∀ failure, request.answer = .error (.failure failure) ↔ request.Refused failure) ∧
    ((∀ overflow, request.answer ≠ .error (.overflow overflow)) →
      ((∃ report, request.answer = .ok report) ↔ request.Sound)) := by
  constructor
  · intro failure
    rw [answer_eq_failure_iff, ofRequest_eq_error_iff]
  · intro hranks
    rw [← exists_ofRequest_iff]
    constructor
    · rintro ⟨report, hreport⟩
      cases hsearch : Search.ofRequest request with
      | error failure => cases hreport.symm.trans (answer_eq_failure_iff.mpr hsearch)
      | ok search => exact ⟨search, rfl⟩
    · rintro ⟨search, hsearch⟩
      cases hanswer : request.answer with
      | ok report => exact ⟨report, rfl⟩
      | error stop =>
        cases stop with
        | failure failure => cases hsearch.symm.trans (answer_eq_failure_iff.mp hanswer)
        | overflow overflow => exact absurd hanswer (hranks overflow)

/-- A request with two faults in each of its parts. -/
def faulty : SiteRequest :=
  ⟨⟨.unit none, [⟨.construction none, [⟨.namelessClass, []⟩, ⟨.block, [⟨.explicitReceiver, []⟩]⟩,
    ⟨.namelessClass, []⟩]⟩]⟩, [.inClass "A" true, .onReceiver ")a(", .inClass "" false], some [0, 9, 7]⟩

theorem answer_faulty :
    faulty.Refused (.badCriterion (.badSignature ")a(" "')' before '('")) ∧
    ({ faulty with criteria := [] } : SiteRequest).Refused (.badTree (.strayReceiver 3)) ∧
    ({ sample with candidates := some [2, 17, 40] } : SiteRequest).Refused (.unknownNode 17) ∧
    sample.Sound := by
  refine ⟨?_, ?_, ?_, ?_⟩
  · exact ((answer_first_fault _).1 _).mp (by decide +kernel)
  · exact ((answer_first_fault _).1 _).mp (by decide +kernel)
  · exact ((answer_first_fault _).1 _).mp (by decide +kernel)
  · have hok : sample.answer.isOk = true := by decide +kernel
    cases hanswer : sample.answer with
    | error stop =>
      rw [hanswer] at hok
      cases hok
    | ok report =>
      have hranks : ∀ overflow, sample.answer ≠ .error (.overflow overflow) := by simp [hanswer]
      exact ((answer_first_fault sample).2 hranks).mp ⟨report, hanswer⟩

end SiteRequest

end Pinpoint
