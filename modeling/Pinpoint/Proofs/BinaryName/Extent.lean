import Mathlib.Tactic.Common
import Pinpoint.Proofs.BinaryName.DigitRuns
import Pinpoint.Proofs.Source.DeclarationOrder

namespace Pinpoint

namespace BinaryName

variable {ranks : RankIndex} {exact inside : Bool} {above : Option Kind} {name : List Char} {node : Node}

/-- A search at any depth finds what an exact search finds. Up to a class that is reached with just its own
name left both read alike, and there the search at any depth is over. -/
theorem walk_inexact_of_exact {nodes : List Node}
    (hexact : walk ranks true above inside name nodes = .ok true) :
    walk ranks false above inside name nodes = .ok true := by
  induction nodes generalizing above inside name with
  | nil => exact hexact
  | cons node nodes ih =>
    obtain ⟨inside', rest, hread, hnodes⟩ := walk_cons_eq_ok_true_iff.mp hexact
    rw [walk, readNode_inexact]
    by_cases hnamed : isNamedBy above node name = true
    · rw [if_pos hnamed]
    · rw [if_neg hnamed, hread]
      exact ih hnodes

theorem isNamedBy_nil : isNamedBy above node [] = false := by
  rw [Bool.eq_false_iff]
  intro hnamed
  obtain ⟨className, -, hne, hnil⟩ := exists_className_of_isNamedBy hnamed
  exact hne (String.toList_eq_nil_iff.mp hnil.symm)

/-- Where nothing of the name is left, the search is over for good or goes on with nothing left. -/
theorem readNode_nil_cases (ranks : RankIndex) (exact : Bool) (above : Option Kind) (inside : Bool) (node : Node) :
    readNode ranks exact above inside [] node = .ok (.decided false) ∨
      ∃ inside', readNode ranks exact above inside [] node = .ok (.onward inside' []) := by
  have hexact : readNode ranks exact above inside [] node = readNode ranks true above inside [] node := by
    cases exact with
    | true => rfl
    | false => rw [readNode_inexact, isNamedBy_nil, if_neg Bool.false_ne_true]
  have hkeeps : Keeps [] (readNode ranks true above inside [] node) :=
    (LeftOf.self []).keeps_readNode (ShortRanks.of_length (Nat.zero_le 9))
  obtain ⟨step, hstep, honward⟩ := hkeeps
  rw [hexact]
  cases step with
  | decided answer =>
    cases answer with
    | false => exact .inl hstep
    | true => exact absurd hstep readNode_ne_decided_true
  | onward inside' rest =>
    obtain rfl | ⟨before, hnil, -⟩ := honward inside' rest rfl
    · exact .inr ⟨inside', hstep⟩
    · obtain ⟨-, rfl⟩ := List.append_eq_nil_iff.mp hnil.symm
      exact .inr ⟨inside', hstep⟩

/-- From where nothing of the name is left, a path that leads to a yes has led to it all the way. -/
theorem walk_nil_of_append {front below : List Node}
    (hwalk : walk ranks exact above inside [] (front ++ below) = .ok true) :
    walk ranks exact above inside [] front = .ok true := by
  induction front generalizing above inside with
  | nil => rfl
  | cons node front ih =>
    rw [List.cons_append, walk] at hwalk
    rw [walk]
    obtain hread | ⟨inside', hread⟩ := readNode_nil_cases ranks exact above inside node
    · rw [hread] at hwalk
      cases hwalk
    · rw [hread] at hwalk ⊢
      exact ih hwalk

/-- The nodes at the start of a path settle the answer for all that is below them, or leave a part of the name
to it. -/
theorem walk_append_cases (ranks : RankIndex) (exact : Bool) (above : Option Kind) (inside : Bool)
    (name : List Char) (front : List Node) :
    (∃ verdict, ∀ below, walk ranks exact above inside name (front ++ below) = verdict) ∨
      ∃ above' inside' rest, ∀ below, walk ranks exact above inside name (front ++ below) =
        walk ranks exact above' inside' rest below := by
  induction front generalizing above inside name with
  | nil => exact .inr ⟨above, inside, name, fun _ => rfl⟩
  | cons node front ih =>
    simp only [List.cons_append, walk]
    cases readNode ranks exact above inside name node with
    | error overflow => exact .inl ⟨.error overflow, fun _ => rfl⟩
    | ok step =>
      cases step with
      | decided answer => exact .inl ⟨.ok answer, fun _ => rfl⟩
      | onward inside' rest => exact ih (some node.kind) inside' rest

/-- If a path is found, and one that goes further down too, then all paths between them are found. -/
theorem walk_between {front middle below : List Node}
    (hfront : walk ranks exact above inside name front = .ok true)
    (hall : walk ranks exact above inside name (front ++ (middle ++ below)) = .ok true) :
    walk ranks exact above inside name (front ++ middle) = .ok true := by
  rw [← List.append_nil front] at hfront
  obtain ⟨verdict, hsettled⟩ | ⟨above', inside', rest, hleft⟩ :=
    walk_append_cases ranks exact above inside name front
  · rw [hsettled] at hfront ⊢
    exact hfront
  · -- the first part is found, so it has used up the name
    rw [hleft, walk, Except.ok.injEq, List.isEmpty_iff] at hfront
    subst hfront
    rw [hleft] at hall ⊢
    exact walk_nil_of_append hall

end BinaryName

namespace Tree

variable {tree : Tree} {ranks : RankIndex}

/-- What an exact search finds is found by a search at any depth, whatever ranks the classes have. -/
theorem inClass_of_exact (tree : Tree) (ranks : RankIndex) (id : NodeId) (name : String)
    (hexact : (Criterion.inClass name true).holds ranks (tree.path? id) = .ok true) :
    (Criterion.inClass name false).holds ranks (tree.path? id) = .ok true := by
  cases hpath : tree.path? id with
  | none =>
    rw [hpath] at hexact
    cases hexact
  | some path =>
    rw [hpath] at hexact
    exact BinaryName.walk_inexact_of_exact hexact

theorem inClass_of_exact_sample :
    (Criterion.inClass "a.b.Outer$0Local" true).holds sample.ranks (sample.path? 12) = .ok true ∧
    (Criterion.inClass "a.b.Outer$0Local" false).holds sample.ranks (sample.path? 12) = .ok true := by
  have hexact : (Criterion.inClass "a.b.Outer$0Local" true).holds sample.ranks (sample.path? 12) = .ok true := by
    decide +kernel
  exact ⟨hexact, inClass_of_exact sample sample.ranks 12 _ hexact⟩

theorem lt_size_of_holds {criterion : Criterion} {id : NodeId}
    (hholds : criterion.holds ranks (tree.path? id) = .ok true) : id < tree.size := by
  by_contra hid
  rw [path?, lineage_eq_nil (node?_eq_none hid)] at hholds
  cases hholds

/-- The nodes on the way down from one node to another that a search finds are without a gap: with a node and a
node below it, the search finds all between them. -/
theorem inClass_between (htree : tree.Grown) (ranks : RankIndex) {top middle bottom : NodeId}
    (hmiddle : tree.Within middle top) (hbottom : tree.Within bottom middle) (name : String) (exact : Bool)
    (htop : (Criterion.inClass name exact).holds ranks (tree.path? top) = .ok true)
    (hfound : (Criterion.inClass name exact).holds ranks (tree.path? bottom) = .ok true) :
    (Criterion.inClass name exact).holds ranks (tree.path? middle) = .ok true := by
  have hwf := htree.wellFormed
  have hsize := lt_size_of_holds hfound
  have hmiddleSize := Nat.lt_of_le_of_lt (hwf.le_of_within hbottom) hsize
  obtain ⟨between, hbetween⟩ := hwf.lineage_within hmiddle
  obtain ⟨below, hbelow⟩ := hwf.lineage_within hbottom
  rw [hwf.holds_inClass (lt_size_of_holds htop)] at htop
  rw [hwf.holds_inClass hsize, hbelow, hbetween, List.append_assoc] at hfound
  rw [hwf.holds_inClass hmiddleSize, hbetween]
  exact BinaryName.walk_between htop hfound

/-- The construction and the body of the anonymous class lie between `Outer` and the block in the body, which
an exact search for `Outer` finds. -/
theorem inClass_between_sample : sample.Within 5 1 ∧ sample.Within 7 5 ∧
    (Criterion.inClass "a.b.Outer" true).holds sample.ranks (sample.path? 5) = .ok true := by
  have hwf := grown_sample.wellFormed
  have hmiddle : sample.Within 5 1 := hwf.within_of_mem_subtree (by decide +kernel) (by decide +kernel)
  have hbottom : sample.Within 7 5 := hwf.within_of_mem_subtree (by decide +kernel) (by decide +kernel)
  exact ⟨hmiddle, hbottom, inClass_between grown_sample sample.ranks hmiddle hbottom "a.b.Outer" true
    (by decide +kernel) (by decide +kernel)⟩

end Tree

end Pinpoint
