import Mathlib.Data.List.Basic
import Mathlib.Tactic.Common
import Pinpoint.Proofs.BinaryName.DigitRuns
import Pinpoint.Proofs.Careful.Criterion
import Pinpoint.Proofs.Refusal

namespace Pinpoint

namespace Careful

/-- Checks the criteria, then the tree, then the candidates. -/
def ofRequest (request : SiteRequest) : Careful (Except Failure Search) := do
  match ← buildAll request.criteria with
  | .error fault => return .error (.badCriterion fault)
  | .ok criteria =>
    match ← ofOutline request.tree with
    | .error fault => return .error (.badTree fault)
    | .ok tree =>
      match request.candidates with
      | none =>
        let order ← preorder tree
        return .ok ⟨criteria, tree, order⟩
      | some ids =>
        match ids.find? fun id => (tree.node? id).isNone with
        | some id => return .error (.unknownNode id)
        | none => return .ok ⟨criteria, tree, ids⟩

/-- The answers at one candidate: of each criterion, and of all together. -/
def answersAt (tree : Tree) (ranks : RankIndex) (criteria : Criteria) (id : NodeId) :
    Careful (NodeId × List Bool × Bool) := do
  let ids ← path tree id
  let each ← criteria.mapM fun criterion => holdsForLeaf tree ranks id criterion ids
  let all ← match ids with
    | none => pure false
    | some ids => allHold tree ranks ids criteria
  return (id, each, all)

/-- Carries out a search. -/
def run (search : Search) : Careful SiteReport := do
  let ranks ← ranks search.tree
  let answers ← search.candidates.mapM (answersAt search.tree ranks search.criteria)
  return search.report answers

/-- The answer to a request for sites. -/
def answer (request : SiteRequest) : Careful (Except Failure SiteReport) := do
  match ← ofRequest request with
  | .error failure => return .error failure
  | .ok search =>
    let report ← run search
    return .ok report

/-- An answer in which only a rank can be too long. -/
def ofAnswer : Except Stop SiteReport → Careful (Except Failure SiteReport)
  | .ok report => .ok (.ok report)
  | .error (.failure failure) => .ok (.error failure)
  | .error (.overflow overflow) => .error (.rankOverflow overflow)

theorem ofRanks_bind {α β : Type} (result : Except RankOverflow α) (next : α → Except RankOverflow β) :
    ofRanks (result >>= next) = ofRanks result >>= fun value => ofRanks (next value) := by
  cases result <;> rfl

/-- Careful work on a list is careful work on its elements, up to the first rank that is too long. -/
theorem mapM_ofRanks {α β : Type} {careful : α → Careful β} {plain : α → Except RankOverflow β}
    {items : List α} (hitems : ∀ item ∈ items, careful item = ofRanks (plain item)) :
    items.mapM careful = ofRanks (items.mapM plain) := by
  induction items with
  | nil => rfl
  | cons item rest ih =>
    obtain ⟨hitem, hrest⟩ := List.forall_mem_cons.mp hitems
    rw [List.mapM_cons, List.mapM_cons, ofRanks_bind, hitem, ih hrest]
    congr
    funext first
    rw [ofRanks_bind]
    rfl

/-- The answers at a node of the tree are the same, since its path leads to it. -/
theorem answersAt_eq {tree : Tree} (hwf : tree.WellFormed) (ranks : RankIndex) (criteria : Criteria)
    {id : NodeId} (hid : id < tree.size) :
    answersAt tree ranks criteria id =
      ofRanks (do return (id, ← Search.answersAt ranks criteria (tree.path? id))) := by
  obtain ⟨node, hnode⟩ := Tree.node?_isSome_iff.mpr hid
  obtain ⟨found, hfound, hnodes⟩ := hwf.path?_eq hid
  have hknown : Known tree found.nodes := hnodes ▸ (hwf.linked_lineage id).known
  have hleaf : found.leaf.id = id := by
    rw [hwf.leaf_eq hnode hnodes, hwf.id_eq hnode]
  have heach : (criteria.mapM fun criterion => holdsForLeaf tree ranks id criterion (some found.ids)) =
      ofRanks (criteria.mapM (·.holds ranks (some found))) := by
    apply mapM_ofRanks
    intro criterion _
    rw [← hleaf]
    exact holdsForLeaf_path hknown criterion
  have hall : criteria.hold ranks (some found) = criteria.allHoldAt ranks found := rfl
  rw [answersAt, path_eq hwf, hfound, Option.map_some, ok_bind, heach, Search.answersAt, hall]
  dsimp only
  rw [allHold_path hknown]
  cases criteria.mapM (·.holds ranks (some found)) with
  | error overflow => rfl
  | ok each => cases criteria.allHoldAt ranks found <;> rfl

/-- A search is carried out in a tree whose classes can be ranked, at nodes that it has. -/
theorem run_eq {search : Search} (hwf : search.tree.WellFormed) (hsize : search.tree.size < UInt32.size)
    (hcandidates : ∀ id ∈ search.candidates, id < search.tree.size) :
    run search = ofRanks search.run := by
  have hanswers : search.candidates.mapM (answersAt search.tree search.tree.ranks search.criteria) =
      ofRanks search.answers := by
    apply mapM_ofRanks
    intro id hid
    exact answersAt_eq hwf _ _ (hcandidates id hid)
  rw [run, ranks_eq hwf hsize, ok_bind, hanswers, Search.run]
  cases search.answers <;> rfl

/-- Checking a request breaks down on nothing if its nodes can be numbered. -/
theorem ofRequest_eq {request : SiteRequest} (hsize : request.tree.size ≤ UInt32.size) :
    ofRequest request = .ok (Search.ofRequest request) := by
  rw [ofRequest, buildAll_eq, ok_bind, Search.ofRequest]
  cases WrittenCriterion.buildAll request.criteria with
  | error fault => rfl
  | ok criteria =>
    dsimp only
    rw [ofOutline_eq hsize, ok_bind]
    cases htree : Tree.ofOutline request.tree with
    | error fault => rfl
    | ok tree =>
      have hwf := (Tree.Grown.of_ofOutline htree).wellFormed
      cases request.candidates with
      | none =>
        dsimp only
        rw [preorder_eq hwf]
        rfl
      | some ids =>
        dsimp only
        cases ids.find? fun id => (tree.node? id).isNone <;> rfl

/-- The careful answer is the answer. -/
theorem answer_eq {request : SiteRequest} (hsize : request.tree.size < UInt32.size) :
    answer request = ofAnswer request.answer := by
  rw [answer, ofRequest_eq (Nat.le_of_lt hsize), ok_bind, SiteRequest.answer]
  cases hsearch : Search.ofRequest request with
  | error failure => rfl
  | ok search =>
    obtain ⟨-, htree, -, hcandidates⟩ := Search.ofRequest_eq_ok hsearch
    have hwf := (Tree.Grown.of_ofOutline htree).wellFormed
    rw [← Tree.size_ofOutline htree] at hsize
    dsimp only
    rw [run_eq hwf hsize hcandidates]
    cases search.run <;> rfl

end Careful

/-- A request whose class names have short ranks only. -/
def SiteRequest.ShortRanks (request : SiteRequest) : Prop :=
  ∀ className exact, WrittenCriterion.inClass className exact ∈ request.criteria →
    BinaryName.ShortRanks className.toList

namespace Search

/-- A search whose criteria always have an answer has a report. -/
theorem exists_run {search : Search} (hcriteria : ∀ criterion ∈ search.criteria, ∀ path,
    ∃ answer, criterion.holds search.tree.ranks path = .ok answer) :
    ∃ report, search.run = .ok report := by
  have hall (path : Option Path) : ∃ answer, search.criteria.hold search.tree.ranks path = .ok answer := by
    cases path with
    | none => exact ⟨false, rfl⟩
    | some path => exact ⟨_, hold_eq fun criterion hcriterion => hcriteria criterion hcriterion _⟩
  have hanswers : ∃ answers, search.answers = .ok answers := by
    apply Except.exists_mapM
    intro id _
    obtain ⟨each, heach⟩ := Except.exists_mapM fun criterion hcriterion =>
      hcriteria criterion hcriterion (search.tree.path? id)
    obtain ⟨all, hall⟩ := hall (search.tree.path? id)
    exact ⟨(id, each, all), by rw [answersAt, heach, hall]; rfl⟩
  obtain ⟨answers, hanswers⟩ := hanswers
  exact ⟨_, by rw [run, hanswers]; rfl⟩

end Search

namespace SiteRequest

variable {request : SiteRequest}

/-- A criterion about a class is set up for no other text than its own name. -/
theorem eq_inClass_of_build {written : WrittenCriterion} {className : String} {exact : Bool}
    (hbuild : written.build = .ok (.inClass className exact)) : written = .inClass className exact := by
  cases written with
  | inClass writtenName writtenExact =>
    rw [WrittenCriterion.build] at hbuild
    split at hbuild <;> cases hbuild
    rfl
  | onReceiver text =>
    obtain ⟨signature, -, hsignature⟩ := Except.map_eq_ok_iff.1 hbuild
    cases hsignature
  | hasSignature text =>
    obtain ⟨signature, -, hsignature⟩ := Except.map_eq_ok_iff.1 hbuild
    cases hsignature

/-- Class names come into a search as they are written. -/
theorem inClass_mem_of_built {criteria : Criteria} {written : List WrittenCriterion}
    (hbuilt : List.Forall₂ (fun criterion written => written.build = .ok criterion) criteria written)
    {className : String} {exact : Bool} (hmem : .inClass className exact ∈ criteria) :
    .inClass className exact ∈ written := by
  induction hbuilt with
  | nil => cases hmem
  | cons hbuild _ ih =>
    obtain rfl | hmem := List.mem_cons.mp hmem
    · rw [eq_inClass_of_build hbuild]
      exact List.mem_cons_self
    · exact List.mem_cons_of_mem _ (ih hmem)

/-- Criteria with short ranks always have an answer. -/
theorem ShortRanks.exists_holds (hshort : request.ShortRanks) {criteria : Criteria}
    (hbuild : WrittenCriterion.buildAll request.criteria = .ok criteria) (ranks : RankIndex)
    (criterion : Criterion) (hcriterion : criterion ∈ criteria) (path : Option Path) :
    ∃ answer, criterion.holds ranks path = .ok answer := by
  cases path with
  | none => exact ⟨false, rfl⟩
  | some path =>
    cases criterion with
    | inClass className exact =>
      have hmem := inClass_mem_of_built (WrittenCriterion.forall₂_of_buildAll hbuild) hcriterion
      exact (hshort className exact hmem).exists_covers path
    | onReceiver method signature => exact ⟨_, rfl⟩
    | hasSignature signature => exact ⟨_, rfl⟩

/-- A request with short ranks is answered or fails. -/
theorem ShortRanks.exists_ofAnswer (hshort : request.ShortRanks) :
    ∃ outcome, Careful.ofAnswer request.answer = .ok outcome := by
  rw [answer]
  cases hsearch : Search.ofRequest request with
  | error failure => exact ⟨.error failure, rfl⟩
  | ok search =>
    obtain ⟨hbuild, -⟩ := Search.ofRequest_eq_ok hsearch
    obtain ⟨report, hreport⟩ := Search.exists_run (hshort.exists_holds hbuild search.tree.ranks)
    refine ⟨.ok report, ?_⟩
    dsimp only
    rw [hreport]
    rfl

/-- Answering a request about fewer than 2³² nodes, nothing is ever missing: no node, no depth of a path, no
part of a text; every path leads to the node asked about, no counter overflows, and all loops end. The careful
answer is the answer, and the one thing that can break it off is a rank of more than 32 bits in a class name.
If the digits in the class names are short enough, it does not break off at all. -/
theorem answer_unbroken (hsize : request.tree.size < UInt32.size) :
    Careful.answer request = Careful.ofAnswer request.answer ∧
    (∀ breakdown, Careful.answer request = .error breakdown →
      ∃ overflow, breakdown = .rankOverflow overflow ∧ request.answer = .error (.overflow overflow)) ∧
    (request.ShortRanks → ∃ outcome, Careful.answer request = .ok outcome) := by
  rw [Careful.answer_eq hsize]
  refine ⟨rfl, ?_, ShortRanks.exists_ofAnswer⟩
  intro breakdown hbroken
  cases hanswer : request.answer with
  | ok report =>
    rw [hanswer] at hbroken
    cases hbroken
  | error stop =>
    rw [hanswer] at hbroken
    cases stop with
    | failure failure => cases hbroken
    | overflow overflow =>
      cases hbroken
      exact ⟨overflow, rfl, rfl⟩

/-- Where a class is looked for whose rank is too long. -/
def overlong : SiteRequest := ⟨.sample, [.inClass "a.b.Outer$4294967296" true], none⟩

/-- Where the classes are looked for that have short names. -/
def brief : SiteRequest :=
  ⟨⟨.unit none, [⟨.classDecl "C" .ordinary, [⟨.construction none, [⟨.namelessClass, []⟩]⟩]⟩]⟩,
    [.inClass "C$0" true, .hasSignature "m()"], some [3, 1]⟩

theorem answer_unbroken_brief :
    (∃ outcome, Careful.answer brief = .ok outcome) ∧
    Careful.answer overlong = .error (.rankOverflow ⟨"4294967296"⟩) := by
  have hbrief : brief.tree.size < UInt32.size := by decide +kernel
  have hoverlong : overlong.tree.size < UInt32.size := by decide +kernel
  have hshort : brief.ShortRanks := by
    intro className exact hmem
    obtain ⟨rfl, rfl⟩ : className = "C$0" ∧ exact = true := by simpa [brief] using hmem
    exact BinaryName.ShortRanks.of_length (by decide +kernel)
  have hanswer : overlong.answer = .error (.overflow ⟨"4294967296"⟩) := by decide +kernel
  refine ⟨(answer_unbroken hbrief).2.2 hshort, ?_⟩
  rw [(answer_unbroken hoverlong).1, hanswer]
  rfl

end SiteRequest

end Pinpoint
