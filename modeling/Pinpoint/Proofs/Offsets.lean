import Mathlib.Data.List.Dedup
import Mathlib.Order.Compare
import Mathlib.Tactic.Common
import Pinpoint.Offsets
import Pinpoint.Proofs.ClassFile.Scan
import Pinpoint.Proofs.ClassFile.Tabulation

namespace Pinpoint

open Std

/-- The events of a method, each with its current label. -/
def bodyOf (events : List Event) (key : MethodKey) : List (UInt32 × Event) :=
  (moments events).filterMap fun (state, event) =>
    if state.method = some key then some (state.label, event) else none

namespace Event

/-- The name that an event gives to a slot from an offset on. -/
def nameAt? (slot : UInt16) (start : UInt32) : Event → Option String
  | .localVariable name _ otherSlot otherStart =>
    if otherSlot = slot ∧ otherStart = start then some name else none
  | _ => none

/-- The offset from which an event lets a name live. -/
def startOf? (name : String) : Event → Option UInt32
  | .localVariable other _ _ start => if other = name then some start else none
  | _ => none

end Event

/-- The names that a method gives to a slot from an offset on, in the order of the events. -/
def namesAt (events : List Event) (key : MethodKey) (slot : UInt16) (start : UInt32) : List String :=
  (bodyOf events key).filterMap fun (_, event) => event.nameAt? slot start

/-- The starts of a name in a method, in the order of the events. -/
def startsOf (events : List Event) (key : MethodKey) (name : String) : List UInt32 :=
  (bodyOf events key).filterMap fun (_, event) => event.startOf? name

/-- What a method's entry says: the offsets of each construct that has any, ascending; and by slot and start
the local variables, each under the last name given there, numbered by the distinct earlier starts of that
name. -/
structure MethodReport.Describes (entry : MethodReport) (events : List Event) : Prop where
  constructs : (entry.instructions.map (·.1.position)).Pairwise (· < ·)
  offsets : ∀ construct offsets, (construct, offsets) ∈ entry.instructions →
    offsets ≠ [] ∧ offsets.Pairwise (· < ·)
  indexed : ∀ construct offset,
    (∃ offsets, (construct, offsets) ∈ entry.instructions ∧ offset ∈ offsets) ↔
      ∃ label event, (label, event) ∈ bodyOf events entry.method ∧ event.Stands label construct offset
  places : entry.locals.Pairwise fun a b => a.slot < b.slot ∨ a.slot = b.slot ∧ a.start < b.start
  names : ∀ slot start name, (∃ occurrence, ⟨name, slot, start, occurrence⟩ ∈ entry.locals) ↔
    (namesAt events entry.method slot start).getLast? = some name
  occurrences : ∀ listed ∈ entry.locals,
    listed.occurrence = (startsOf events entry.method listed.name).dedup.countP (· < listed.start)

/-- A report has one entry for each method key, ascending. -/
structure OffsetsReport.Describes (report : OffsetsReport) (events : List Event) : Prop where
  ascending : (report.methods.map (·.method.text)).Pairwise (· < ·)
  keys : ∀ key, key ∈ report.methods.map (·.method) ↔ ∃ event ∈ events, event.key? = some key
  entries : ∀ entry ∈ report.methods, entry.Describes events

/-- The body of a method holds the events at which it is the current one. -/
theorem mem_bodyOf {events : List Event} {key : MethodKey} {label : UInt32} {event : Event} :
    (label, event) ∈ bodyOf events key ↔
      ∃ state, (state, event) ∈ moments events ∧ state.method = some key ∧ state.label = label := by
  simp only [bodyOf, List.mem_filterMap, Option.ite_none_right_eq_some, Option.some.injEq,
    Prod.mk.injEq, Prod.exists]
  constructor
  · rintro ⟨state, other, hmem, hmethod, hlabel, rfl⟩
    exact ⟨state, hmem, hmethod, hlabel⟩
  · rintro ⟨state, hmem, hmethod, hlabel⟩
    exact ⟨state, event, hmem, hmethod, hlabel, rfl⟩

section Records

variable {events : List Event} {key : MethodKey}

theorem mem_recordsOf {record : Record} :
    record ∈ recordsOf events ↔
      ∃ state event, (state, event) ∈ moments events ∧ state.record? event = some record := by
  simp only [recordsOf, List.mem_filterMap, Prod.exists]

/-- Instructions are recorded of a method for what its events stand for. -/
theorem instruction_mem_recordsOf_iff {construct : Construct} {offset : UInt32} :
    (∃ opcode, .instruction key construct offset opcode ∈ recordsOf events) ↔
      ∃ label event, (label, event) ∈ bodyOf events key ∧ event.Stands label construct offset := by
  constructor
  · rintro ⟨opcode, hmem⟩
    obtain ⟨state, event, hmoment, hrecord⟩ := mem_recordsOf.1 hmem
    obtain ⟨hmethod, hstands⟩ := Cursor.record?_eq_instruction_iff.1 ⟨opcode, hrecord⟩
    exact ⟨state.label, event, mem_bodyOf.2 ⟨state, hmoment, hmethod, rfl⟩, hstands⟩
  · rintro ⟨label, event, hbody, hstands⟩
    obtain ⟨state, hmoment, hmethod, rfl⟩ := mem_bodyOf.1 hbody
    obtain ⟨opcode, hrecord⟩ := Cursor.record?_eq_instruction_iff.2 ⟨hmethod, hstands⟩
    exact ⟨opcode, mem_recordsOf.2 ⟨state, event, hmoment, hrecord⟩⟩

/-- Local variables are recorded of a method as its events describe them. -/
theorem localVariable_mem_recordsOf_iff {slot : UInt16} {start : UInt32} {name : String} :
    .localVariable key slot start name ∈ recordsOf events ↔
      ∃ label descriptor, (label, .localVariable name descriptor slot start) ∈ bodyOf events key := by
  constructor
  · intro hmem
    obtain ⟨state, event, hmoment, hrecord⟩ := mem_recordsOf.1 hmem
    obtain ⟨hmethod, descriptor, rfl⟩ := Cursor.record?_eq_localVariable_iff.1 hrecord
    exact ⟨state.label, descriptor, mem_bodyOf.2 ⟨state, hmoment, hmethod, rfl⟩⟩
  · rintro ⟨label, descriptor, hbody⟩
    obtain ⟨state, hmoment, hmethod, -⟩ := mem_bodyOf.1 hbody
    refine mem_recordsOf.2 ⟨state, _, hmoment, ?_⟩
    exact Cursor.record?_eq_localVariable_iff.2 ⟨hmethod, descriptor, rfl⟩

/-- Only the record of a local variable of the method gives a name to a place of it. -/
theorem Record.nameAt?_eq_some_iff {record : Record} {slot : UInt16} {start : UInt32} {name : String} :
    record.nameAt? key ⟨slot, start⟩ = some name ↔ record = .localVariable key slot start name := by
  cases record with
  | localVariable owner otherSlot otherStart other =>
    simp [Record.nameAt?, and_assoc]
  | _ => simp [Record.nameAt?]

theorem Event.nameAt?_eq_some_iff {event : Event} {slot : UInt16} {start : UInt32} {name : String} :
    event.nameAt? slot start = some name ↔
      ∃ descriptor, event = .localVariable name descriptor slot start := by
  cases event with
  | localVariable other descriptor otherSlot otherStart =>
    simp [Event.nameAt?]
    tauto
  | _ => simp [Event.nameAt?]

theorem Event.startOf?_eq_some_iff {event : Event} {name : String} {start : UInt32} :
    event.startOf? name = some start ↔
      ∃ descriptor slot, event = .localVariable name descriptor slot start := by
  cases event with
  | localVariable other descriptor slot otherStart => simp [Event.startOf?]
  | _ => simp [Event.startOf?]

/-- The starts of a name are those of the local variables that are recorded under it. -/
theorem mem_startsOf_iff {name : String} {start : UInt32} :
    start ∈ startsOf events key name ↔ ∃ slot, .localVariable key slot start name ∈ recordsOf events := by
  simp only [startsOf, List.mem_filterMap, localVariable_mem_recordsOf_iff, Prod.exists,
    Event.startOf?_eq_some_iff]
  constructor
  · rintro ⟨label, _, hbody, descriptor, slot, rfl⟩
    exact ⟨slot, label, descriptor, hbody⟩
  · rintro ⟨slot, label, descriptor, hbody⟩
    exact ⟨label, _, hbody, descriptor, slot, rfl⟩

/-- The names that events give to a place are those that their records give to it, in the same order. -/
theorem namesAt_eq_filterMap (slot : UInt16) (start : UInt32) :
    namesAt events key slot start = (recordsOf events).filterMap (Record.nameAt? key ⟨slot, start⟩) := by
  rw [namesAt, bodyOf, recordsOf, List.filterMap_filterMap, List.filterMap_filterMap]
  refine List.filterMap_congr ?_
  rintro ⟨state, event⟩ -
  ext name
  simp only [Option.bind_eq_some_iff, Option.ite_none_right_eq_some, Option.some.injEq,
    Record.nameAt?_eq_some_iff, exists_eq_right, Cursor.record?_eq_localVariable_iff,
    Event.nameAt?_eq_some_iff]
  constructor
  · rintro ⟨_, ⟨hmethod, rfl⟩, hevent⟩
    exact ⟨hmethod, hevent⟩
  · rintro ⟨hmethod, hevent⟩
    exact ⟨_, ⟨hmethod, rfl⟩, hevent⟩

/-- A key is the owner of a record just when a method event has it. -/
theorem owner_recordsOf_iff :
    (∃ record ∈ recordsOf events, record.owner = key) ↔ ∃ event ∈ events, event.key? = some key := by
  induction events using List.reverseRecOn with
  | nil => simp [recordsOf, moments]
  | append_singleton events event ih =>
    rw [recordsOf_concat]
    -- the owner of the last record is the method it opens, or one that was opened before
    constructor
    · rintro ⟨record, hmem, rfl⟩
      rcases List.mem_append.1 hmem with hmem | hmem
      · obtain ⟨opener, hopener, hkey⟩ := ih.1 ⟨record, hmem, rfl⟩
        exact ⟨opener, List.mem_append_left _ hopener, hkey⟩
      · obtain hkey | hmethod := Cursor.owner_of_record? (Option.mem_toList.1 hmem)
        · exact ⟨event, List.mem_append_right _ (List.mem_singleton_self _), hkey⟩
        · obtain ⟨opener, hopener, hkey⟩ := key?_of_currentMethod? hmethod
          exact ⟨opener, List.mem_append_left _ hopener, hkey⟩
    · rintro ⟨opener, hopener, hkey⟩
      rcases List.mem_append.1 hopener with hopener | hopener
      · obtain ⟨record, hmem, howner⟩ := ih.2 ⟨opener, hopener, hkey⟩
        exact ⟨record, List.mem_append_left _ hmem, howner⟩
      · cases List.mem_singleton.1 hopener
        refine ⟨.method key, List.mem_append_right _ ?_, rfl⟩
        exact Option.mem_toList.2 (Cursor.record?_of_key? hkey)

end Records

namespace MethodTable

variable {table : MethodTable} {key : MethodKey} {records : List Record} {events : List Event}

/-- The entry of a method lists the sets of its table. -/
theorem mem_report_instructions {construct : Construct} {offsets : List UInt32} :
    (construct, offsets) ∈ (table.report key).instructions ↔
      ∃ set, table.instructions.find? construct = some set ∧ set.toList = offsets := by
  simp only [report, constructs, List.mem_map, SortedMap.mem_keys_iff, Prod.mk.injEq]
  constructor
  · rintro ⟨_, hsome, rfl, rfl⟩
    obtain ⟨set, hset⟩ := Option.isSome_iff_exists.1 hsome
    exact ⟨set, hset, by rw [MethodTable.offsets, hset]⟩
  · rintro ⟨set, hset, rfl⟩
    exact ⟨construct, by rw [hset]; rfl, rfl, by rw [MethodTable.offsets, hset]⟩

/-- The entry of a method lists the local variables that its table finds at their places. -/
theorem mem_report_locals {slot : UInt16} {start : UInt32} {name : String} :
    (∃ occurrence, ⟨name, slot, start, occurrence⟩ ∈ (table.report key).locals) ↔
      table.locals.find? ⟨slot, start⟩ = some name := by
  rw [← SortedMap.mem_entries_iff]
  simp only [report, listedLocals, List.mem_map, Prod.exists, ListedLocal.mk.injEq]
  constructor
  · rintro ⟨_, place, _, hmem, rfl, rfl, rfl, -⟩
    exact hmem
  · intro hmem
    exact ⟨_, ⟨slot, start⟩, name, hmem, rfl, rfl, rfl, rfl⟩

/-- The rank of a start counts the distinct earlier starts that the events give to the name. -/
theorem Tabulates.startRank?_eq (htab : table.Tabulates key (recordsOf events)) {slot : UInt16}
    {start : UInt32} {name : String} (hmem : .localVariable key slot start name ∈ recordsOf events) :
    table.startRank? name start =
      some ((startsOf events key name).dedup.countP (· < start)) := by
  -- the name has this start, so it has a set of starts, and these are all of them
  obtain ⟨set, hset, hstart⟩ := (htab.starts.mem_iff name start).2 ⟨slot, hmem⟩
  have hlist : ∀ other, other ∈ set.toList ↔ other ∈ startsOf events key name := by
    intro other
    rw [mem_startsOf_iff, ← htab.starts.mem_iff name other, hset]
    simp
  rw [startRank?, hset, Option.bind_some, SortedSet.rank?_eq hlist hstart]
  simp only [compare_eq_lt]

/-- A name that a table keeps has been recorded at its place. -/
theorem Tabulates.mem_records_of_entry (htab : table.Tabulates key records) {place : LocalPlace}
    {name : String} (hmem : (place, name) ∈ table.locals.entries) :
    .localVariable key place.slot place.start name ∈ records := by
  have hfind := SortedMap.mem_entries_iff.1 hmem
  rw [htab.find?_locals] at hfind
  obtain ⟨record, hrecord, hname⟩ := List.exists_of_findSome?_eq_some hfind
  rw [← Record.nameAt?_eq_some_iff.1 hname]
  exact List.mem_reverse.1 hrecord

/-- Local variables are listed by slot and start, since a table keeps its places ascending. -/
theorem pairwise_listedLocals (table : MethodTable) :
    table.listedLocals.Pairwise fun a b => a.slot < b.slot ∨ a.slot = b.slot ∧ a.start < b.start := by
  have hasc := table.locals.ascending
  rw [Ascending, List.pairwise_map] at hasc
  rw [listedLocals, List.pairwise_map]
  exact hasc.imp LocalPlace.compare_eq_lt_iff.1

/-- The entry of a table that holds what the records of some events say describes the events. -/
theorem Tabulates.report_describes (htab : table.Tabulates key (recordsOf events)) :
    (table.report key).Describes events := by
  -- the orders are those of the table's own maps and sets; what is in them is read off the records
  refine ⟨?_, ?_, ?_, ?_, ?_, ?_⟩
  · rw [report, List.map_map, List.pairwise_map]
    exact table.instructions.ascending.imp Construct.compare_eq_lt_iff.1
  · intro construct offsets hmem
    obtain ⟨set, hset, rfl⟩ := mem_report_instructions.1 hmem
    refine ⟨htab.instructions.nonempty construct set hset, ?_⟩
    exact set.ascending.imp compare_eq_lt.1
  · intro construct offset
    refine Iff.trans ?_ ((htab.instructions.mem_iff construct offset).trans
      instruction_mem_recordsOf_iff)
    simp only [mem_report_instructions]
    constructor
    · rintro ⟨_, ⟨set, hset, rfl⟩, hmem⟩
      exact ⟨set, hset, hmem⟩
    · rintro ⟨set, hset, hmem⟩
      exact ⟨_, ⟨set, hset, rfl⟩, hmem⟩
  · exact table.pairwise_listedLocals
  · intro slot start name
    rw [mem_report_locals, htab.find?_locals, ← List.getLast?_filterMap,
      ← namesAt_eq_filterMap]
    rfl
  · intro listed hlisted
    obtain ⟨⟨place, name⟩, hmem, rfl⟩ := List.mem_map.1 hlisted
    dsimp only [report]
    rw [htab.startRank?_eq (htab.mem_records_of_entry hmem), Option.getD_some]

end MethodTable

/-- The report of an index that holds the records of some events describes the events. -/
theorem OffsetIndex.Tabulates.report_describes {index : OffsetIndex} {events : List Event}
    (htab : index.Tabulates (recordsOf events)) : index.report.Describes events := by
  have hkeys : index.report.methods.map (·.method) = index.methods.keys := by
    rw [report, List.map_map]
    rfl
  refine ⟨?_, ?_, ?_⟩
  · have hasc : Ascending index.methods.keys := index.methods.ascending
    rw [← hkeys, Ascending, List.pairwise_map] at hasc
    rw [List.pairwise_map]
    exact hasc.imp MethodKey.compare_eq_lt_iff.1
  · intro key
    rw [hkeys, SortedMap.mem_keys_iff, ← owner_recordsOf_iff]
    exact htab.owners key
  · intro entry hentry
    obtain ⟨⟨key, table⟩, hmem, rfl⟩ := List.mem_map.1 hentry
    exact (htab.tables key table (SortedMap.mem_entries_iff.1 hmem)).report_describes

namespace OffsetsReport

/-- Sound events are answered with the report of their index. -/
theorem ofEvents_of_sound {events : List Event} (hsound : Event.Sound events) :
    ofEvents events = .ok (OffsetIndex.ofRecords (recordsOf events)).report := by
  rw [ofEvents, OffsetIndex.build, OffsetIndex.collect_scan_of_sound hsound]
  rfl

/-- Other events are refused at the first that offends where it stands. -/
theorem ofEvents_of_not_sound {events : List Event} (hunsound : ¬ Event.Sound events) :
    ∃ before event rest fault, events = before ++ event :: rest ∧ Event.Sound before ∧
      (Cursor.after before).Offends event fault ∧ ofEvents events = .error (.badEvents fault) := by
  obtain ⟨before, event, rest, fault, hsplit, hbefore, hoffends, hcollect⟩ :=
    OffsetIndex.collect_scan_of_not_sound hunsound
  refine ⟨before, event, rest, fault, hsplit, hbefore, hoffends, ?_⟩
  rw [ofEvents, OffsetIndex.build, hcollect]
  rfl

/-- A list of events is answered just when it is sound. Any other is refused with the fault of the first
offending event; and an answer describes the events. -/
theorem ofEvents_describes (events : List Event) :
    ((∃ report, ofEvents events = .ok report) ↔ Event.Sound events) ∧
    (¬ Event.Sound events → ∃ before event rest fault, events = before ++ event :: rest ∧
      Event.Sound before ∧ (Cursor.after before).Offends event fault ∧
      ofEvents events = .error (.badEvents fault)) ∧
    ∀ report, ofEvents events = .ok report → report.Describes events := by
  have hsound : (∃ report, ofEvents events = .ok report) ↔ Event.Sound events := by
    constructor
    · rintro ⟨report, hreport⟩
      by_contra hunsound
      obtain ⟨before, event, rest, fault, -, -, -, hfault⟩ := ofEvents_of_not_sound hunsound
      rw [hreport] at hfault
      cases hfault
    · intro hsound
      exact ⟨_, ofEvents_of_sound hsound⟩
  refine ⟨hsound, ofEvents_of_not_sound, ?_⟩
  intro report hreport
  rw [ofEvents_of_sound (hsound.1 ⟨report, hreport⟩)] at hreport
  cases hreport
  exact (OffsetIndex.tabulates_ofRecords _).report_describes

/-- A method that comes twice, a label that goes back, a repeated call, and a place that is named anew. -/
def reopened : List Event :=
  [.method "run" "(I)V", .label 9, .typeInsn 0xc0 "T", .label 2, .methodInsn 0xb8 "A" "f" "()V",
    .methodInsn 0xb8 "A" "g" "()V", .localVariable "x" "I" 1 7, .localVariable "x" "I" 2 3,
    .method "init" "()V", .intInsn 0x10 5, .method "run" "(I)I", .typeInsn 0xbb "T",
    .localVariable "y" "I" 2 3]

theorem ofEvents_reopened :
    (⟨[⟨⟨"init()"⟩, [], []⟩,
      ⟨⟨"run(I)"⟩, [(.cast, [10]), (.new, [0]), (.methodCall, [2])],
        [⟨"x", 1, 7, 1⟩, ⟨"y", 2, 3, 0⟩]⟩]⟩ : OffsetsReport).Describes reopened ∧
    Event.Sound reopened ∧ ¬ Event.Sound reopened.tail := by
  obtain ⟨hanswered, -, hdescribes⟩ := ofEvents_describes reopened
  refine ⟨hdescribes _ rfl, hanswered.1 ⟨_, rfl⟩, ?_⟩
  intro hsound
  obtain ⟨report, hreport⟩ := (ofEvents_describes reopened.tail).1.2 hsound
  cases hreport

end OffsetsReport

end Pinpoint
