import Pinpoint.Document.Criterion
import Pinpoint.Document.Outline
import Pinpoint.Failure

namespace Pinpoint

/-- A request for sites. Without candidates, all nodes are asked about. -/
structure SiteRequest where
  tree : Outline
  criteria : List WrittenCriterion
  candidates : Option (List NodeId)

namespace SiteRequest

open Json Json.Fields

/-- Reads a list of node ids. -/
def idsOfJson? (json : Json) : Option (List NodeId) := json.asListOf? (asNatBelow? UInt32.size)

/-- Reads the fields of a request. -/
def reader : FieldReader SiteRequest := do
  let tree ← required "tree" Outline.ofJson?
  let criteria ← required "criteria" WrittenCriterion.listOfJson?
  let candidates ← optional "candidates" (asOptional? idsOfJson?) none
  return ⟨tree, criteria, candidates⟩

/-- Reads a request's document; an object may have no other members than those of a request. -/
def ofJson? : Json → Option SiteRequest
  | .object members =>
    if members.all (["tree", "criteria", "candidates"].contains ·.1) then
      (Fields.named members).readAs? reader
    else none
  | .array items => (Fields.listed items).readAs? reader
  | _ => none

end SiteRequest

/-- The matches of one criterion. -/
structure CriterionReport where
  criterion : String
  kind : String
  found : List NodeId
deriving DecidableEq

/-- The answer to a request for sites. -/
structure SiteReport where
  candidates : Nat
  criteria : List CriterionReport
  all : List NodeId
deriving DecidableEq

namespace CriterionReport

def toJson (report : CriterionReport) : Json :=
  .object [("criterion", .string report.criterion), ("kind", .string report.kind),
    ("matches", .nats report.found)]

end CriterionReport

/-- The response that holds a report. -/
def SiteReport.toJson (report : SiteReport) : Json :=
  .object (responseHead "ok" ++
    [("candidates", .nat report.candidates),
      ("criteria", .array (report.criteria.map (·.toJson))), ("all", .nats report.all)])

/-- A search that can be carried out: criteria that have been checked, and nodes of a tree. -/
structure Search where
  criteria : Criteria
  tree : Tree
  candidates : List NodeId

namespace Search

/-- Checks the criteria, then the tree, then the candidates; the first fault counts. -/
def ofRequest (request : SiteRequest) : Except Failure Search :=
  match WrittenCriterion.buildAll request.criteria with
  | .error error => .error (.badCriterion error)
  | .ok criteria =>
    match Tree.ofOutline request.tree with
    | .error error => .error (.badTree error)
    | .ok tree =>
      match request.candidates with
      | none => .ok ⟨criteria, tree, tree.preorder⟩
      | some ids =>
        match ids.find? fun id => (tree.node? id).isNone with
        | some id => .error (.unknownNode id)
        | none => .ok ⟨criteria, tree, ids⟩

/-- The answers at one candidate: of each criterion, and of all together. -/
def answersAt (ranks : RankIndex) (criteria : Criteria) (path : Option Path) :
    Except RankOverflow (List Bool × Bool) := do
  let each ← criteria.mapM (·.holds ranks path)
  let all ← criteria.hold ranks path
  return (each, all)

/-- The answers at each candidate, in order. -/
def answers (search : Search) : Except RankOverflow (List (NodeId × List Bool × Bool)) :=
  let ranks := search.tree.ranks
  search.candidates.mapM fun id => do
    return (id, ← answersAt ranks search.criteria (search.tree.path? id))

/-- The candidates at which the criterion in place `place` holds. -/
def foundBy (answers : List (NodeId × List Bool × Bool)) (place : Nat) : List NodeId :=
  (answers.filter fun (_, each, _) => each.getD place false).map (·.1)

/-- The report on the answers of a search: the candidates keep their order and repetitions. -/
def report (search : Search) (answers : List (NodeId × List Bool × Bool)) : SiteReport where
  candidates := search.candidates.length
  criteria := search.criteria.zipIdx.map fun (criterion, place) =>
    ⟨criterion.describe, criterion.tag, foundBy answers place⟩
  all := (answers.filter (·.2.2)).map (·.1)

/-- Carries out a search. -/
def run (search : Search) : Except RankOverflow SiteReport := do
  let answers ← search.answers
  return search.report answers

end Search

/-- The answer to a request for sites. -/
def SiteRequest.answer (request : SiteRequest) : Except Stop SiteReport :=
  match Search.ofRequest request with
  | .error failure => .error (.failure failure)
  | .ok search =>
    match search.run with
    | .error overflow => .error (.overflow overflow)
    | .ok report => .ok report

end Pinpoint
