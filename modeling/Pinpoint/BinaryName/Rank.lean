import Pinpoint.Source.Path

namespace Pinpoint

/-- The two series in which classes are numbered. -/
inductive RankSeries where
  /-- Classes without a simple name. -/
  | anonymous
  /-- Classes declared directly in a block. -/
  | localClass
deriving DecidableEq

/-- Where the ranks of classes are looked up. An anonymous class may be asked for by its declaration or
by the construction whose body it is. -/
structure RankIndex where
  rank? : NodeId → RankSeries → Option Nat

/-- The index that knows no ranks. -/
def RankIndex.empty : RankIndex := ⟨fun _ _ => none⟩

/-- The series in which a class is numbered, if it is: a class of a block is local, even without a
name. -/
def Tree.series? (tree : Tree) (node : Node) : Option RankSeries :=
  match node.kind with
  | .classDecl name _ =>
    if (node.parent.bind tree.kind?) = some .block then some .localClass
    else if name.isEmpty then some .anonymous
    else none
  | _ => none

/-- The ranks of all classes of a tree, with the body of each object construction. -/
structure RankTable where
  ranks : List ((NodeId × RankSeries) × Nat)
  bodies : List (NodeId × NodeId)

namespace RankTable

/-- The next free rank of each series in each scope; a scope is the nearest enclosing class, or none
outside every class. -/
abbrev Counters := Option NodeId → RankSeries → Nat

/-- The counters after a rank of a series has been given out in a scope. -/
def Counters.bump (counters : Counters) (scope : Option NodeId) (series : RankSeries) : Counters :=
  fun scope' series' =>
    if scope' = scope ∧ series' = series then counters scope series + 1
    else counters scope' series'

/-- Records the body of a construction. -/
def addBody (table : RankTable) (node : Node) : RankTable :=
  match node.kind.body? with
  | some body => { table with bodies := (node.id, body) :: table.bodies }
  | none => table

/-- Takes the next node in pre-order: a class that is named by a rank gets the next one of its scope. -/
def add (tree : Tree) : RankTable × Counters → NodeId → RankTable × Counters
  | (table, counters), id =>
    match tree.node? id with
    | none => (table, counters)
    | some node =>
      let table := table.addBody node
      match tree.series? node with
      | none => (table, counters)
      | some series =>
        let scope := tree.scope? id
        ({ table with ranks := ((id, series), counters scope series) :: table.ranks },
          counters.bump scope series)

/-- The ranks of a tree's classes, given out in one pass over its pre-order. -/
def ofTree (tree : Tree) : RankTable :=
  (tree.preorder.foldl (add tree) (⟨[], []⟩, fun _ _ => 0)).1

/-- The rank of a class, or of the body of a construction. -/
def rank? (table : RankTable) (id : NodeId) : RankSeries → Option Nat
  | .anonymous => table.ranks.lookup ((table.bodies.lookup id).getD id, .anonymous)
  | .localClass => table.ranks.lookup (id, .localClass)

/-- The ranks as an index to look up. -/
def index (table : RankTable) : RankIndex := ⟨table.rank?⟩

/-- How many classes of a series have a rank. -/
def count (table : RankTable) (series : RankSeries) : Nat :=
  table.ranks.countP (·.1.2 = series)

end RankTable

/-- The index of the ranks of a tree's classes. -/
def Tree.ranks (tree : Tree) : RankIndex := (RankTable.ofTree tree).index

end Pinpoint
