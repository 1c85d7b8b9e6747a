import Mathlib.Data.List.Basic
import Mathlib.Tactic.Common
import Pinpoint.Proofs.ClassFile.Blocks

namespace Pinpoint

/-- Whether a record is of a local variable of a method at a place. -/
def Record.isLocalAt (key : MethodKey) (place : LocalPlace) : Record → Bool
  | .localVariable owner slot start _ => owner = key ∧ (⟨slot, start⟩ : LocalPlace) = place
  | _ => false

/-- Lists of records that tell of the same methods, offsets and starts, and name each place the same in the end. -/
structure Record.Agree (records more : List Record) : Prop where
  owners : ∀ key, (∃ record ∈ records, record.owner = key) ↔ ∃ record ∈ more, record.owner = key
  instructions : ∀ key construct offset,
    (∃ opcode, .instruction key construct offset opcode ∈ records) ↔
      ∃ opcode, .instruction key construct offset opcode ∈ more
  starts : ∀ key name start,
    (∃ slot, .localVariable key slot start name ∈ records) ↔
      ∃ slot, .localVariable key slot start name ∈ more
  names : ∀ key place, records.reverse.findSome? (Record.nameAt? key place) =
    more.reverse.findSome? (Record.nameAt? key place)

namespace Record

variable {records more : List Record} {key : MethodKey} {place : LocalPlace}

theorem nameAt?_of_not_isLocalAt {record : Record} (hlocal : record.isLocalAt key place = false) :
    record.nameAt? key place = none := by
  cases record with
  | localVariable owner slot start name => exact if_neg (of_decide_eq_false hlocal)
  | _ => rfl

/-- The last name of a place depends on the local variables at this place alone. -/
theorem findSome?_nameAt?_filter (records : List Record) (key : MethodKey) (place : LocalPlace) :
    (records.filter (isLocalAt key place)).reverse.findSome? (nameAt? key place) =
      records.reverse.findSome? (nameAt? key place) := by
  rw [← List.getLast?_filterMap, ← List.getLast?_filterMap, List.filterMap_filter]
  congr 2
  funext record
  cases hlocal : record.isLocalAt key place with
  | false => simp [nameAt?_of_not_isLocalAt hlocal]
  | true => rfl

/-- Lists of the same records can differ only in the names that come last. -/
theorem Agree.of_mem_iff (hmem : ∀ record, record ∈ records ↔ record ∈ more)
    (hnames : ∀ key place, records.reverse.findSome? (Record.nameAt? key place) =
      more.reverse.findSome? (Record.nameAt? key place)) : Agree records more where
  owners key := by simp only [hmem]
  instructions key construct offset := by simp only [hmem]
  starts key name start := by simp only [hmem]
  names := hnames

end Record

/-- Tables of what two lists of records say are the same if these agree. -/
theorem MethodTable.Tabulates.ext {table other : MethodTable} {key : MethodKey} {records more : List Record}
    (htable : table.Tabulates key records) (hother : other.Tabulates key more)
    (hagree : Record.Agree records more) : table = other := by
  have hinstructions : table.instructions = other.instructions :=
    htable.instructions.ext (hother.instructions.congr fun construct offset =>
      (hagree.instructions key construct offset).symm)
  have hlocals : table.locals = other.locals :=
    SortedMap.eq_of_find? fun place => by
      rw [htable.find?_locals, hother.find?_locals, hagree.names]
  have hstarts : table.starts = other.starts :=
    htable.starts.ext (hother.starts.congr fun name start => (hagree.starts key name start).symm)
  obtain ⟨instructions, locals, starts⟩ := table
  obtain ⟨instructions', locals', starts'⟩ := other
  cases hinstructions
  cases hlocals
  cases hstarts
  rfl

namespace OffsetIndex

variable {records more : List Record}

/-- Records that tell the same come to the same index. -/
theorem ofRecords_eq_of_agree (hagree : Record.Agree records more) : ofRecords records = ofRecords more := by
  have hrecords := tabulates_ofRecords records
  have hmore := tabulates_ofRecords more
  refine eq_of_method? fun key => ?_
  have hsome : ((ofRecords records).method? key).isSome ↔ ((ofRecords more).method? key).isSome :=
    (hrecords.owners key).trans ((hagree.owners key).trans (hmore.owners key).symm)
  cases htable : (ofRecords records).method? key with
  | none =>
    rw [htable] at hsome
    exact (Option.not_isSome_iff_eq_none.1 fun h => by simpa using hsome.2 h).symm
  | some table =>
    rw [htable] at hsome
    obtain ⟨other, hother⟩ := Option.isSome_iff_exists.1 (hsome.1 rfl)
    rw [hother, (hrecords.tables key table htable).ext (hmore.tables key other hother) hagree]

/-- Records come to the same index in any order that leaves the local variables at one place of a method in theirs,
and also when they are repeated. -/
theorem ofRecords_reordered (records : List Record) :
    (∀ arranged : List Record, arranged.Perm records →
      (∀ key place, arranged.filter (Record.isLocalAt key place) =
        records.filter (Record.isLocalAt key place)) →
      ofRecords arranged = ofRecords records) ∧
    ofRecords (records ++ records) = ofRecords records := by
  constructor
  · intro arranged hperm hkeep
    refine ofRecords_eq_of_agree (.of_mem_iff (fun record => hperm.mem_iff) ?_)
    intro key place
    rw [← Record.findSome?_nameAt?_filter, hkeep, Record.findSome?_nameAt?_filter]
  · refine ofRecords_eq_of_agree (.of_mem_iff (fun record => by simp) ?_)
    intro key place
    rw [List.reverse_append, List.findSome?_append, Option.or_self]

/-- A place that is named twice among the records of two methods. -/
def renamed : List Record :=
  [.method ⟨"m()"⟩, .localVariable ⟨"m()"⟩ 1 2 "i", .instruction ⟨"n()"⟩ .cast 5 0xc0,
    .localVariable ⟨"m()"⟩ 1 2 "j", .instruction ⟨"m()"⟩ .new 9 0xbb]

theorem ofRecords_reordered_renamed :
    ofRecords [.instruction ⟨"m()"⟩ .new 9 0xbb, .localVariable ⟨"m()"⟩ 1 2 "i",
      .localVariable ⟨"m()"⟩ 1 2 "j", .instruction ⟨"n()"⟩ .cast 5 0xc0, .method ⟨"m()"⟩] =
        ofRecords renamed ∧
    ofRecords (renamed ++ renamed) = ofRecords renamed ∧
    (ofRecords renamed).variableAt? ⟨"m()"⟩ 1 2 = some "j" ∧
    (ofRecords renamed.reverse).variableAt? ⟨"m()"⟩ 1 2 = some "i" := by
  obtain ⟨hreordered, hrepeated⟩ := ofRecords_reordered renamed
  refine ⟨hreordered _ (by decide +kernel) ?_, hrepeated, by decide +kernel, by decide +kernel⟩
  intro key place
  simp [renamed, List.filter_cons, Record.isLocalAt]

end OffsetIndex

end Pinpoint
