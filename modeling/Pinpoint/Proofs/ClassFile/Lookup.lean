import Mathlib.Tactic.Common
import Pinpoint.Proofs.ClassFile.LocalNames

namespace Pinpoint

open Std

/-- The look-ups of a table agree with one another. -/
structure MethodTable.Coherent (table : MethodTable) : Prop where
  offsets_ascending : ∀ construct, (table.offsets construct).Pairwise (· < ·)
  nthOffset_iff : ∀ construct n offset,
    table.nthOffset? construct n = some offset ↔ table.offsetRank? construct offset = some n
  nthOffset_isSome_iff : ∀ construct n,
    (table.nthOffset? construct n).isSome ↔ n < (table.offsets construct).length
  mem_constructs_iff : ∀ construct, construct ∈ table.constructs ↔ table.offsets construct ≠ []
  nthStart_iff : ∀ name n start,
    table.nthStart? name n = some start ↔ table.startRank? name start = some n
  listed_ascending :
    table.listedLocals.Pairwise fun a b => a.slot < b.slot ∨ a.slot = b.slot ∧ a.start < b.start
  variableAt_listed : ∀ listed ∈ table.listedLocals,
    table.variableAt? listed.slot listed.start = some listed.name
  startRank_listed : ∀ listed ∈ table.listedLocals,
    table.startRank? listed.name listed.start = some listed.occurrence
  nthStart_listed : ∀ listed ∈ table.listedLocals,
    table.nthStart? listed.name listed.occurrence = some listed.start

namespace MethodTable

variable {table : MethodTable} {key : MethodKey} {records : List Record}

/-- There are as many offsets to be found as are listed. -/
theorem nthOffset?_isSome_iff {construct : Construct} {n : Nat} :
    (table.nthOffset? construct n).isSome ↔ n < (table.offsets construct).length := by
  rw [nthOffset?]
  simp

/-- The offsets of a construct are listed ascending, since the table keeps them so. -/
theorem pairwise_offsets (table : MethodTable) (construct : Construct) :
    (table.offsets construct).Pairwise (· < ·) := by
  rw [offsets]
  cases hset : table.instructions.find? construct with
  | none => exact List.Pairwise.nil
  | some set => exact set.ascending.imp compare_eq_lt.1

/-- An offset is found by its rank, and the other way round. -/
theorem nthOffset?_eq_some_iff {construct : Construct} {n : Nat} {offset : UInt32} :
    table.nthOffset? construct n = some offset ↔ table.offsetRank? construct offset = some n := by
  rw [nthOffset?, offsets, offsetRank?]
  cases hset : table.instructions.find? construct with
  | none => simp
  | some set => exact SortedSet.at?_eq_some_iff

namespace Tabulates

/-- A construct is listed just when it has an offset. -/
theorem mem_constructs_iff (htab : table.Tabulates key records) {construct : Construct} :
    construct ∈ table.constructs ↔ table.offsets construct ≠ [] := by
  rw [constructs, SortedMap.mem_keys_iff, offsets]
  cases hset : table.instructions.find? construct with
  | none => simp
  | some set => simpa using htab.instructions.nonempty construct set hset

/-- The name of a listed variable has its start, so the variable's number is a rank. -/
theorem startRank?_listed (htab : table.Tabulates key records) {listed : ListedLocal}
    (hlisted : listed ∈ table.listedLocals) :
    table.startRank? listed.name listed.start = some listed.occurrence := by
  obtain ⟨hvariable, hoccurrence⟩ := mem_listedLocals.1 hlisted
  have hmem : .localVariable key listed.slot listed.start listed.name ∈ records :=
    htab.mem_records_of_entry (SortedMap.mem_entries_iff.2 hvariable)
  obtain ⟨set, hset, hstart⟩ := (htab.starts.mem_iff listed.name listed.start).2 ⟨listed.slot, hmem⟩
  have hrank : table.startRank? listed.name listed.start = set.rank? listed.start := by
    rw [startRank?, hset, Option.bind_some]
  rw [hoccurrence, hrank, SortedSet.rank?_of_mem hstart, Option.getD_some]

/-- The look-ups of a table that has been filled by records agree with one another. -/
theorem coherent (htab : table.Tabulates key records) : table.Coherent where
  offsets_ascending := table.pairwise_offsets
  nthOffset_iff _ _ _ := nthOffset?_eq_some_iff
  nthOffset_isSome_iff _ _ := nthOffset?_isSome_iff
  mem_constructs_iff _ := htab.mem_constructs_iff
  nthStart_iff _ _ _ := nthStart?_eq_some_iff
  listed_ascending := table.pairwise_listedLocals
  variableAt_listed _ hlisted := (mem_listedLocals.1 hlisted).1
  startRank_listed _ hlisted := htab.startRank?_listed hlisted
  nthStart_listed _ hlisted := nthStart?_eq_some_iff.2 (htab.startRank?_listed hlisted)

end Tabulates

end MethodTable

namespace OffsetIndex

/-- Of the index of any records, every table is coherent; and so is what the index itself answers about a method,
also where it has no table for it. -/
theorem lookups_coherent (records : List Record) (key : MethodKey) :
    (∀ table, (ofRecords records).method? key = some table → table.Coherent) ∧
    (∀ construct, ((ofRecords records).offsets key construct).Pairwise (· < ·) ∧
      (∀ n offset, (ofRecords records).nthOffset? key construct n = some offset ↔
        (ofRecords records).offsetRank? key construct offset = some n) ∧
      ∀ n, ((ofRecords records).nthOffset? key construct n).isSome ↔
        n < ((ofRecords records).offsets key construct).length) ∧
    ∀ name n start, (ofRecords records).nthStart? key name n = some start ↔
      (ofRecords records).startRank? key name start = some n := by
  have htables := (tabulates_ofRecords records).tables key
  refine ⟨fun table htable => (htables table htable).coherent, ?_⟩
  simp only [offsets, nthOffset?, offsetRank?, nthStart?, startRank?]
  cases htable : (ofRecords records).method? key with
  | none => simp
  | some table =>
    refine ⟨?_, fun _ _ _ => MethodTable.nthStart?_eq_some_iff⟩
    intro construct
    exact ⟨table.pairwise_offsets construct, fun _ _ => MethodTable.nthOffset?_eq_some_iff,
      fun _ => MethodTable.nthOffset?_isSome_iff⟩

/-- Two casts, the later one first and the other one twice, and a counter whose first start is named anew. -/
def shadowed : List Record :=
  [.instruction ⟨"m()"⟩ .cast 20 0xc0, .instruction ⟨"m()"⟩ .cast 4 0xc0, .instruction ⟨"m()"⟩ .cast 4 0xc0,
    .localVariable ⟨"m()"⟩ 1 30 "i", .localVariable ⟨"m()"⟩ 1 2 "i", .localVariable ⟨"m()"⟩ 1 2 "j"]

theorem lookups_coherent_shadowed :
    ∃ table, (ofRecords shadowed).method? ⟨"m()"⟩ = some table ∧ table.Coherent ∧
      table.listedLocals = [⟨"j", 1, 2, 0⟩, ⟨"i", 1, 30, 1⟩] ∧ table.nthStart? "i" 1 = some 30 ∧
      (ofRecords shadowed).offsetRank? ⟨"m()"⟩ .cast 20 = some 1 := by
  obtain ⟨htables, hoffsets, -⟩ := lookups_coherent shadowed ⟨"m()"⟩
  let table : MethodTable :=
    ⟨⟨[(.cast, ⟨[4, 20], by decide⟩)], by decide⟩, ⟨[(⟨1, 2⟩, "j"), (⟨1, 30⟩, "i")], by decide⟩,
      ⟨[("i", ⟨[2, 30], by decide⟩), ("j", ⟨[2], by decide⟩)], by decide⟩⟩
  have htable : (ofRecords shadowed).method? ⟨"m()"⟩ = some table := by decide +kernel
  have hlisted : table.listedLocals = [⟨"j", 1, 2, 0⟩, ⟨"i", 1, 30, 1⟩] := by decide +kernel
  have hcoherent := htables table htable
  refine ⟨table, htable, hcoherent, hlisted, ?_, ?_⟩
  · exact hcoherent.nthStart_listed ⟨"i", 1, 30, 1⟩ (by simp [hlisted])
  · exact ((hoffsets .cast).2.1 1 20).1 (by decide +kernel)

end OffsetIndex

end Pinpoint
