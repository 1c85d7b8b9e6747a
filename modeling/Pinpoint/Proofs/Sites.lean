import Mathlib.Data.List.Forall2
import Mathlib.Tactic.Common
import Pinpoint.Proofs.Except
import Pinpoint.Proofs.Source.Numbering
import Pinpoint.Sites

namespace Pinpoint

/-- Whether a criterion holds at a node of a tree, the ranks being those of the tree. -/
def Criterion.holdsIn (tree : Tree) (criterion : Criterion) (id : NodeId) : Bool :=
  criterion.holds tree.ranks (tree.path? id) = .ok true

/-- The report of a criterion on some nodes of a tree. -/
def Criterion.report (tree : Tree) (asked : List NodeId) (criterion : Criterion) : CriterionReport :=
  ⟨criterion.describe, criterion.tag, asked.filter (criterion.holdsIn tree)⟩

namespace WrittenCriterion

/-- Whether the criterion that is asked for can be set up and holds at a node of a tree. -/
def meets (tree : Tree) (written : WrittenCriterion) (id : NodeId) : Bool :=
  match written.build with
  | .error _ => false
  | .ok criterion => criterion.holdsIn tree id

/-- What is reported of one criterion: how it is described, and the nodes asked about where it holds. At none
of them does reading a class name break off. -/
structure Reported (tree : Tree) (asked : List NodeId) (written : WrittenCriterion)
    (entry : CriterionReport) : Prop where
  built : ∃ criterion, written.build = .ok criterion ∧ entry.criterion = criterion.describe ∧
    entry.kind = criterion.tag ∧
    ∀ id ∈ asked, ∃ answer, criterion.holds tree.ranks (tree.path? id) = .ok answer
  found : entry.found = asked.filter (written.meets tree)

/-- Criteria are set up one by one. -/
theorem forall₂_of_buildAll {criteria : List WrittenCriterion} {built : Criteria}
    (hbuild : buildAll criteria = .ok built) :
    List.Forall₂ (fun criterion written => written.build = .ok criterion) built criteria := by
  induction criteria generalizing built with
  | nil =>
    cases hbuild
    exact .nil
  | cons written rest ih =>
    rw [buildAll] at hbuild
    cases hfirst : written.build with
    | error error => simp [hfirst] at hbuild
    | ok criterion =>
      rw [hfirst] at hbuild
      obtain ⟨others, hothers, rfl⟩ := Except.map_eq_ok_iff.1 hbuild
      exact .cons hfirst (ih hothers)

/-- A criterion that can be set up is met where it holds. -/
theorem meets_eq {tree : Tree} {written : WrittenCriterion} {criterion : Criterion}
    (hbuild : written.build = .ok criterion) : written.meets tree = criterion.holdsIn tree := by
  funext id
  rw [meets, hbuild]

/-- Criteria that can be set up are all met where they all hold. -/
theorem all_meets_eq {tree : Tree} {built : Criteria} {criteria : List WrittenCriterion}
    (hbuilt : List.Forall₂ (fun criterion written => written.build = .ok criterion) built criteria)
    (id : NodeId) : criteria.all (·.meets tree id) = built.all (·.holdsIn tree id) := by
  induction hbuilt with
  | nil => rfl
  | cons hbuild _ ih => rw [List.all_cons, List.all_cons, meets_eq hbuild, ih]

end WrittenCriterion

namespace Search

variable {tree : Tree} {criteria : Criteria}

/-- Criteria that all have an answer at a path hold together where each holds. -/
theorem hold_eq {ranks : RankIndex} {path : Path}
    (hanswers : ∀ criterion ∈ criteria, ∃ answer, criterion.holds ranks (some path) = .ok answer) :
    criteria.hold ranks (some path) =
      .ok (criteria.all fun criterion => criterion.holds ranks (some path) = .ok true) := by
  change criteria.allHoldAt ranks path = _
  induction criteria with
  | nil => rfl
  | cons criterion criteria ih =>
    obtain ⟨answer, hanswer⟩ := hanswers criterion List.mem_cons_self
    have hrest := ih fun other hother => hanswers other (List.mem_cons_of_mem criterion hother)
    have hat : criterion.holdsAt ranks path = .ok answer := hanswer
    rw [Criteria.allHoldAt, hat, List.all_cons, hanswer]
    cases answer with
    | false => rfl
    | true => simpa using hrest

/-- The answers at a candidate are those of the criteria by themselves. -/
theorem answersAt_eq_ok {id : NodeId} {path : Path} (hpath : tree.path? id = some path)
    {answers : List Bool × Bool}
    (hanswers : answersAt tree.ranks criteria (tree.path? id) = .ok answers) :
    answers = (criteria.map (·.holdsIn tree id), criteria.all (·.holdsIn tree id)) ∧
      ∀ criterion ∈ criteria, ∃ answer, criterion.holds tree.ranks (tree.path? id) = .ok answer := by
  rw [answersAt, Except.bind_eq_ok_iff] at hanswers
  obtain ⟨each, heach, hanswers⟩ := hanswers
  rw [Except.bind_eq_ok_iff] at hanswers
  obtain ⟨all, hall, hpure⟩ := hanswers
  cases hpure
  have hvalue : ∀ criterion ∈ criteria, ∀ answer,
      criterion.holds tree.ranks (tree.path? id) = .ok answer → answer = criterion.holdsIn tree id := by
    intro criterion _ answer hanswer
    rw [Criterion.holdsIn, hanswer]
    cases answer <;> rfl
  obtain ⟨rfl, htotal⟩ := Except.eq_map_of_mapM hvalue heach
  refine ⟨?_, htotal⟩
  rw [hpath] at htotal hall
  rw [hold_eq htotal, Except.ok.injEq] at hall
  rw [← hall, ← hpath]
  rfl

/-- The answers of a search, node by node and criterion by criterion. -/
theorem answers_eq_ok {search : Search} {answers : List (NodeId × List Bool × Bool)}
    (hknown : ∀ id ∈ search.candidates, ∃ path, search.tree.path? id = some path)
    (hanswers : search.answers = .ok answers) :
    answers = search.candidates.map (fun id => (id, search.criteria.map (·.holdsIn search.tree id),
        search.criteria.all (·.holdsIn search.tree id))) ∧
      ∀ id ∈ search.candidates, ∀ criterion ∈ search.criteria, ∃ answer,
        criterion.holds search.tree.ranks (search.tree.path? id) = .ok answer := by
  have hstep {id : NodeId} {answer : NodeId × List Bool × Bool} (hid : id ∈ search.candidates)
      (hanswer : (do return (id, ← answersAt search.tree.ranks search.criteria (search.tree.path? id))) =
        Except.ok answer) :
      answer = (id, search.criteria.map (·.holdsIn search.tree id),
          search.criteria.all (·.holdsIn search.tree id)) ∧
        ∀ criterion ∈ search.criteria, ∃ answer,
          criterion.holds search.tree.ranks (search.tree.path? id) = .ok answer := by
    rw [Except.bind_eq_ok_iff] at hanswer
    obtain ⟨both, hboth, hpure⟩ := hanswer
    cases hpure
    obtain ⟨path, hpath⟩ := hknown id hid
    obtain ⟨rfl, htotal⟩ := answersAt_eq_ok hpath hboth
    exact ⟨rfl, htotal⟩
  obtain ⟨hmap, htotal⟩ := Except.eq_map_of_mapM (fun id hid answer hanswer => (hstep hid hanswer).1) hanswers
  refine ⟨hmap, fun id hid => ?_⟩
  obtain ⟨answer, hanswer⟩ := htotal id hid
  exact (hstep hid hanswer).2

/-- By its place among the answers, each criterion gets the nodes where it holds. -/
theorem foundBy_eq {asked : List NodeId} {all : NodeId → Bool} {place : Nat} {criterion : Criterion}
    (hplace : criteria[place]? = some criterion) :
    foundBy (asked.map fun id => (id, criteria.map (·.holdsIn tree id), all id)) place =
      asked.filter (criterion.holdsIn tree) := by
  rw [foundBy, List.filter_map, List.map_map]
  have hget : ((fun answer : NodeId × List Bool × Bool => answer.2.1.getD place false) ∘
      fun id => (id, criteria.map (·.holdsIn tree id), all id)) = criterion.holdsIn tree := by
    funext id
    simp [List.getD_eq_getElem?_getD, hplace]
  rw [← hget]
  exact List.map_id _

/-- What is reported on answers that are those of the criteria by themselves. -/
theorem report_eq (search : Search) :
    search.report (search.candidates.map fun id => (id, search.criteria.map (·.holdsIn search.tree id),
        search.criteria.all (·.holdsIn search.tree id))) =
      ⟨search.candidates.length, search.criteria.map (·.report search.tree search.candidates),
        search.candidates.filter fun id => search.criteria.all (·.holdsIn search.tree id)⟩ := by
  rw [report]
  congr 1
  · calc search.criteria.zipIdx.map _
        = search.criteria.zipIdx.map ((·.report search.tree search.candidates) ∘ Prod.fst) := by
          apply List.map_congr_left
          rintro ⟨criterion, place⟩ hentry
          dsimp only
          rw [foundBy_eq (List.mem_zipIdx_iff_getElem?.mp hentry)]
          rfl
      _ = search.criteria.map (·.report search.tree search.candidates) := by
          rw [← List.map_map, List.zipIdx_map_fst]
  · rw [List.filter_map, List.map_map]
    exact List.map_id _

/-- What a search that is carried out reports. -/
theorem run_eq_ok {search : Search} {report : SiteReport}
    (hknown : ∀ id ∈ search.candidates, ∃ path, search.tree.path? id = some path)
    (hrun : search.run = .ok report) :
    report = ⟨search.candidates.length,
        search.criteria.map (·.report search.tree search.candidates),
        search.candidates.filter fun id => search.criteria.all (·.holdsIn search.tree id)⟩ ∧
      ∀ criterion ∈ search.criteria, ∀ id ∈ search.candidates, ∃ answer,
        criterion.holds search.tree.ranks (search.tree.path? id) = .ok answer := by
  rw [run, Except.bind_eq_ok_iff] at hrun
  obtain ⟨answers, hanswers, hpure⟩ := hrun
  cases hpure
  obtain ⟨rfl, htotal⟩ := answers_eq_ok hknown hanswers
  exact ⟨search.report_eq, fun criterion hcriterion id hid => htotal id hid criterion hcriterion⟩

/-- A request that can be searched for: its criteria and its tree are sound, and the tree has the nodes that
are asked about. -/
theorem ofRequest_eq_ok {request : SiteRequest} {search : Search}
    (hrequest : ofRequest request = .ok search) :
    WrittenCriterion.buildAll request.criteria = .ok search.criteria ∧
      Tree.ofOutline request.tree = .ok search.tree ∧
      search.candidates = request.candidates.getD (List.range search.tree.size) ∧
      ∀ id ∈ search.candidates, id < search.tree.size := by
  rw [ofRequest] at hrequest
  cases hcriteria : WrittenCriterion.buildAll request.criteria with
  | error error => simp [hcriteria] at hrequest
  | ok criteria =>
    cases htree : Tree.ofOutline request.tree with
    | error error => simp [hcriteria, htree] at hrequest
    | ok tree =>
      simp only [hcriteria, htree] at hrequest
      split at hrequest
      · rename_i hnone
        cases hrequest
        refine ⟨rfl, rfl, by rw [hnone, Option.getD_none, Tree.preorder_ofOutline htree], ?_⟩
        intro id hid
        exact (Tree.Grown.of_ofOutline htree).wellFormed.mem_preorder.mp hid
      · rename_i ids hids
        split at hrequest
        · cases hrequest
        · rename_i hfind
          cases hrequest
          refine ⟨rfl, rfl, by rw [hids, Option.getD_some], ?_⟩
          intro id hid
          have hknown := List.find?_eq_none.mp hfind id hid
          rw [Option.isNone_iff_eq_none] at hknown
          by_contra hlt
          exact hknown (Tree.node?_eq_none hlt)

end Search

/-- What a report says about the nodes asked about: of each criterion in turn where it holds, and where all
of them do. Order and repetitions are kept. -/
structure SiteReport.Answers (tree : Tree) (asked : List NodeId) (criteria : List WrittenCriterion)
    (report : SiteReport) : Prop where
  candidates : report.candidates = asked.length
  each : List.Forall₂ (WrittenCriterion.Reported tree asked) criteria report.criteria
  all : report.all = asked.filter fun id => criteria.all (·.meets tree id)

namespace SiteRequest

variable {request : SiteRequest} {report : SiteReport}

/-- The nodes that a request asks about: all of them, in ascending order, unless it names some. -/
def asked (request : SiteRequest) (tree : Tree) : List NodeId :=
  request.candidates.getD (List.range tree.size)

/-- An answer tells of each criterion where it holds in the tree of the request. -/
theorem answers_of_answer (hanswer : request.answer = .ok report) :
    ∃ tree, Tree.ofOutline request.tree = .ok tree ∧
      report.Answers tree (request.asked tree) request.criteria := by
  rw [answer] at hanswer
  cases hsearch : Search.ofRequest request with
  | error failure => simp [hsearch] at hanswer
  | ok search =>
    cases hrun : search.run with
    | error overflow => simp [hsearch, hrun] at hanswer
    | ok found =>
      simp only [hsearch, hrun, Except.ok.injEq] at hanswer
      subst hanswer
      obtain ⟨hcriteria, htree, hcandidates, hlt⟩ := Search.ofRequest_eq_ok hsearch
      have hwf := (Tree.Grown.of_ofOutline htree).wellFormed
      have hknown : ∀ id ∈ search.candidates, ∃ path, search.tree.path? id = some path := by
        intro id hid
        obtain ⟨path, hpath, -⟩ := hwf.path?_eq (hlt id hid)
        exact ⟨path, hpath⟩
      obtain ⟨rfl, htotal⟩ := Search.run_eq_ok hknown hrun
      have hbuilt := WrittenCriterion.forall₂_of_buildAll hcriteria
      refine ⟨search.tree, htree, ?_⟩
      rw [asked, ← hcandidates]
      refine ⟨rfl, ?_, ?_⟩
      · rw [List.forall₂_map_right_iff]
        refine (((List.forall₂_and_left _ _).mpr ⟨htotal, hbuilt⟩).imp ?_).flip
        rintro criterion written ⟨htotal, hbuild⟩
        exact ⟨⟨criterion, hbuild, rfl, rfl, htotal⟩, by rw [WrittenCriterion.meets_eq hbuild]; rfl⟩
      · apply List.filter_congr
        intro id _
        rw [WrittenCriterion.all_meets_eq hbuilt]

/-- The report on a request answers for each criterion and for all of them, node by node. What is reported of
a criterion at a node is the same in every request about the same tree that has them both. -/
theorem answer_each_alone (hanswer : request.answer = .ok report) :
    ∃ tree, Tree.ofOutline request.tree = .ok tree ∧
      report.Answers tree (request.asked tree) request.criteria ∧
      ∀ (other : SiteRequest) (otherReport : SiteReport), other.tree = request.tree →
        other.answer = .ok otherReport →
        ∀ written entry otherEntry, (written, entry) ∈ request.criteria.zip report.criteria →
          (written, otherEntry) ∈ other.criteria.zip otherReport.criteria →
          ∀ id ∈ request.asked tree, id ∈ other.asked tree → (id ∈ entry.found ↔ id ∈ otherEntry.found) := by
  obtain ⟨tree, htree, hreport⟩ := answers_of_answer hanswer
  refine ⟨tree, htree, hreport, ?_⟩
  intro other otherReport hsame hother written entry otherEntry hentry hotherEntry id hid hotherId
  obtain ⟨otherTree, hotherTree, hotherReport⟩ := answers_of_answer hother
  rw [hsame, htree, Except.ok.injEq] at hotherTree
  subst hotherTree
  have hfound := ((List.forall₂_iff_zip.mp hreport.each).2 hentry).found
  have hotherFound := ((List.forall₂_iff_zip.mp hotherReport.each).2 hotherEntry).found
  rw [hfound, hotherFound, List.mem_filter, List.mem_filter]
  exact ⟨fun h => ⟨hotherId, h.2⟩, fun h => ⟨hid, h.2⟩⟩

/-- Where the second anonymous class and a method are looked for, some nodes asked about twice. -/
def sample : SiteRequest :=
  ⟨.sample, [.inClass "a.b.Outer$1" false, .hasSignature "run()"], some [10, 2, 10, 9, 0]⟩

theorem answer_sample :
    sample.answer = .ok ⟨5, [⟨"In class 'a.b.Outer$1'", "in_class", [10, 10, 9]⟩,
      ⟨"is sig method 'run()'", "sig_method", [2]⟩], []⟩ ∧
    ∃ tree, Tree.ofOutline sample.tree = .ok tree ∧
      [10, 10, 9] = [10, 2, 10, 9, 0].filter
        ((WrittenCriterion.inClass "a.b.Outer$1" false).meets tree) := by
  have hanswer : sample.answer = .ok ⟨5, [⟨"In class 'a.b.Outer$1'", "in_class", [10, 10, 9]⟩,
      ⟨"is sig method 'run()'", "sig_method", [2]⟩], []⟩ := by decide +kernel
  obtain ⟨tree, htree, hreport, -⟩ := answer_each_alone hanswer
  refine ⟨hanswer, tree, htree, ?_⟩
  cases hreport.each with
  | cons hfirst _ => exact hfirst.found

end SiteRequest

end Pinpoint
