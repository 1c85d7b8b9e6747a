import Mathlib.Data.List.Induction
import Mathlib.Tactic.Common
import Pinpoint.ClassFile.OffsetIndex
import Pinpoint.Proofs.Sorted

namespace Pinpoint

open Std

theorem MethodKey.compare_eq_lt_iff {a b : MethodKey} : compare a b = .lt ↔ a.text < b.text :=
  compareOfLessAndEq_eq_lt

theorem Construct.compare_eq_lt_iff {a b : Construct} : compare a b = .lt ↔ a.position < b.position :=
  Nat.compare_eq_lt

theorem LocalPlace.compare_eq_lt_iff {a b : LocalPlace} :
    compare a b = .lt ↔ a.slot < b.slot ∨ a.slot = b.slot ∧ a.start < b.start := by
  rw [← compare_eq_lt (a := a.slot), ← compare_eq_lt (a := a.start), ← compare_eq_iff_eq (a := a.slot)]
  exact Ordering.then_eq_lt

/-- The name that a record gives to a place of a method. -/
def Record.nameAt? (key : MethodKey) (place : LocalPlace) : Record → Option String
  | .localVariable owner slot start name =>
    if owner = key ∧ (⟨slot, start⟩ : LocalPlace) = place then some name else none
  | _ => none

/-- Records other than those of local variables of the method give no name to a place of it. -/
theorem Record.nameAt?_eq_none {key : MethodKey} {record : Record}
    (hlocal : ∀ slot start name, record ≠ .localVariable key slot start name) (place : LocalPlace) :
    record.nameAt? key place = none := by
  cases record with
  | method method => rfl
  | instruction method construct offset opcode => rfl
  | localVariable method slot start name =>
    refine if_neg ?_
    rintro ⟨rfl, -⟩
    exact hlocal slot start name rfl

/-- A table holds what the records of a method say. -/
structure MethodTable.Tabulates (table : MethodTable) (key : MethodKey) (records : List Record) :
    Prop where
  instructions : table.instructions.Collects fun construct offset =>
    ∃ opcode, .instruction key construct offset opcode ∈ records
  find?_locals : ∀ place,
    table.locals.find? place = records.reverse.findSome? (Record.nameAt? key place)
  starts : table.starts.Collects fun name start =>
    ∃ slot, .localVariable key slot start name ∈ records

namespace MethodTable.Tabulates

variable {table : MethodTable} {key : MethodKey} {records : List Record} {record : Record}

/-- A method without records has the empty table. -/
theorem empty (hnone : ∀ record ∈ records, record.owner ≠ key) :
    MethodTable.empty.Tabulates key records := by
  refine ⟨.empty ?_, ?_, .empty ?_⟩
  · rintro construct offset ⟨opcode, hmem⟩
    exact hnone _ hmem rfl
  · intro place
    refine (List.findSome?_eq_none_iff.2 ?_).symm
    intro record hmem
    refine Record.nameAt?_eq_none ?_ place
    rintro slot start name rfl
    exact hnone _ (List.mem_reverse.1 hmem) rfl
  · rintro name start ⟨slot, hmem⟩
    exact hnone _ hmem rfl

/-- A record that says nothing of the method's instructions and local variables. -/
theorem skip (htab : table.Tabulates key records)
    (hinstruction : ∀ construct offset opcode, record ≠ .instruction key construct offset opcode)
    (hlocal : ∀ slot start name, record ≠ .localVariable key slot start name) :
    table.Tabulates key (records ++ [record]) := by
  refine ⟨htab.instructions.congr ?_, ?_, htab.starts.congr ?_⟩
  · intro construct offset
    simp [(hinstruction construct offset _).symm]
  · intro place
    rw [htab.find?_locals, List.reverse_concat, List.findSome?_cons,
      Record.nameAt?_eq_none hlocal]
  · intro name start
    simp [(hlocal _ start name).symm]

/-- One more record of the method. -/
theorem add (htab : table.Tabulates key records) (howner : record.owner = key) :
    (table.add record).Tabulates key (records ++ [record]) := by
  subst howner
  cases record with
  | method method => exact htab.skip nofun nofun
  | instruction method construct offset opcode =>
    refine ⟨(htab.instructions.insert construct offset).congr ?_, ?_, htab.starts.congr ?_⟩
    · intro other more
      simp [Record.owner, exists_or]
    · intro place
      rw [List.reverse_concat, List.findSome?_cons]
      exact htab.find?_locals place
    · intro name start
      simp [Record.owner]
  | localVariable method slot start name =>
    refine ⟨htab.instructions.congr ?_, ?_, (htab.starts.insert name start).congr ?_⟩
    · intro other more
      simp [Record.owner]
    · intro place
      have hfind : ((table.add (.localVariable method slot start name)).locals).find? place =
          if place = ⟨slot, start⟩ then some name else table.locals.find? place :=
        table.locals.find?_update _ _ _
      rw [hfind, htab.find?_locals, List.reverse_concat, List.findSome?_cons]
      by_cases hplace : place = ⟨slot, start⟩
      · simp [Record.nameAt?, Record.owner, hplace]
      · simp [Record.nameAt?, hplace, Ne.symm hplace]
    · intro other more
      simp [Record.owner, exists_or, and_comm]

end MethodTable.Tabulates

/-- An index holds a table for each method that has a record. -/
structure OffsetIndex.Tabulates (index : OffsetIndex) (records : List Record) : Prop where
  owners : ∀ key, (index.method? key).isSome ↔ ∃ record ∈ records, record.owner = key
  tables : ∀ key table, index.method? key = some table → table.Tabulates key records

namespace OffsetIndex

/-- A record changes the table of its own method only. -/
theorem method?_add (index : OffsetIndex) (record : Record) (key : MethodKey) :
    (index.add record).method? key =
      if key = record.owner then some (((index.method? key).getD .empty).add record)
      else index.method? key := by
  rw [method?, add, SortedMap.find?_update]
  split
  · next hkey => rw [hkey, method?]
  · rfl

/-- One more record. -/
theorem Tabulates.add {index : OffsetIndex} {records : List Record} (htab : index.Tabulates records)
    (record : Record) : (index.add record).Tabulates (records ++ [record]) := by
  refine ⟨?_, ?_⟩
  · intro key
    rw [method?_add]
    by_cases hkey : key = record.owner
    · simp [hkey]
    · simp [hkey, htab.owners, Ne.symm hkey]
  · intro key table htable
    rw [method?_add] at htable
    split at htable
    · next hkey =>
      cases htable
      -- a method without records so far starts from the empty table
      refine MethodTable.Tabulates.add ?_ hkey.symm
      cases hold : index.method? key with
      | none =>
        refine .empty fun other hmem howner => ?_
        have hsome := (htab.owners key).2 ⟨other, hmem, howner⟩
        simp [hold] at hsome
      | some table => exact htab.tables key table hold
    · next hkey =>
      refine (htab.tables key table htable).skip ?_ ?_
      · rintro construct offset opcode rfl
        exact hkey rfl
      · rintro slot start name rfl
        exact hkey rfl

/-- The index of a list of records holds what they say. -/
theorem tabulates_ofRecords (records : List Record) : (ofRecords records).Tabulates records := by
  induction records using List.reverseRecOn with
  | nil => exact ⟨by simp [ofRecords, method?, empty], nofun⟩
  | append_singleton records record ih =>
    rw [ofRecords, List.foldl_concat]
    exact ih.add record

end OffsetIndex

end Pinpoint
