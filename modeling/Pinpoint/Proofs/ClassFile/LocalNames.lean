import Mathlib.Data.List.Dedup
import Mathlib.Tactic.Common
import Pinpoint.Proofs.Offsets

namespace Pinpoint

open Std

namespace MethodTable

/-- The variables found by their names are the listed ones, and a listed variable is numbered by the distinct
earlier starts of the listed variables of its name. -/
structure LocalsAgree (table : MethodTable) : Prop where
  nthStart : ∀ name n start, table.nthStart? name n = some start →
    ∃ slot, table.variableAt? slot start = some name
  startRank : ∀ name n start, table.startRank? name start = some n →
    ∃ slot, table.variableAt? slot start = some name
  occurrence : ∀ listed ∈ table.listedLocals, listed.occurrence =
    ((table.listedLocals.filter (·.name = listed.name)).map (·.start)).dedup.countP (· < listed.start)

variable {table : MethodTable} {key : MethodKey} {events : List Event}

/-- The listed variables are those found at their places, each numbered by the rank of its start. -/
theorem mem_listedLocals {listed : ListedLocal} :
    listed ∈ table.listedLocals ↔
      table.variableAt? listed.slot listed.start = some listed.name ∧
        listed.occurrence = (table.startRank? listed.name listed.start).getD 0 := by
  rw [variableAt?, ← SortedMap.mem_entries_iff, listedLocals, List.mem_map]
  constructor
  · rintro ⟨⟨place, name⟩, hmem, rfl⟩
    exact ⟨hmem, rfl⟩
  · rintro ⟨hmem, hoccurrence⟩
    refine ⟨_, hmem, ?_⟩
    dsimp only
    rw [← hoccurrence]

/-- A name is found at its starts by their ranks, and the other way round. -/
theorem nthStart?_eq_some_iff {name : String} {n : Nat} {start : UInt32} :
    table.nthStart? name n = some start ↔ table.startRank? name start = some n := by
  rw [nthStart?, startRank?]
  cases hset : table.starts.find? name with
  | none => simp
  | some set => exact SortedSet.at?_eq_some_iff

namespace Tabulates

/-- A name has the starts that the events give it, ranked by the distinct ones before. -/
theorem startRank?_eq_some_iff (htab : table.Tabulates key (recordsOf events)) {name : String} {n : Nat}
    {start : UInt32} :
    table.startRank? name start = some n ↔
      start ∈ startsOf events key name ∧ n = (startsOf events key name).dedup.countP (· < start) := by
  constructor
  · intro hrank
    obtain ⟨set, hset, hsetRank⟩ := Option.bind_eq_some_iff.1 hrank
    obtain ⟨slot, hmem⟩ :=
      (htab.starts.mem_iff name start).1 ⟨set, hset, SortedSet.mem_of_rank? hsetRank⟩
    rw [htab.startRank?_eq hmem, Option.some.injEq] at hrank
    exact ⟨mem_startsOf_iff.2 ⟨slot, hmem⟩, hrank.symm⟩
  · rintro ⟨hstart, rfl⟩
    obtain ⟨slot, hmem⟩ := mem_startsOf_iff.1 hstart
    exact htab.startRank?_eq hmem

/-- A place has the last name that the events give it. -/
theorem variableAt?_eq (htab : table.Tabulates key (recordsOf events)) (slot : UInt16) (start : UInt32) :
    table.variableAt? slot start = (namesAt events key slot start).getLast? := by
  rw [variableAt?, htab.find?_locals, namesAt_eq_filterMap, List.getLast?_filterMap]

/-- A variable that is found at its place has been given that start by an event. -/
theorem mem_startsOf_of_variableAt? (htab : table.Tabulates key (recordsOf events)) {slot : UInt16}
    {start : UInt32} {name : String} (hvariable : table.variableAt? slot start = some name) :
    start ∈ startsOf events key name := by
  have hentry : (⟨slot, start⟩, name) ∈ table.locals.entries :=
    SortedMap.mem_entries_iff.2 hvariable
  exact mem_startsOf_iff.2 ⟨slot, htab.mem_records_of_entry hentry⟩

/-- A listed variable is numbered by the distinct earlier starts of its name, listed or not. -/
theorem occurrence_eq (htab : table.Tabulates key (recordsOf events)) {listed : ListedLocal}
    (hlisted : listed ∈ table.listedLocals) :
    listed.occurrence = (startsOf events key listed.name).dedup.countP (· < listed.start) := by
  obtain ⟨hvariable, hoccurrence⟩ := mem_listedLocals.1 hlisted
  have hrank := htab.startRank?_eq_some_iff.2 ⟨htab.mem_startsOf_of_variableAt? hvariable, rfl⟩
  rw [hoccurrence, hrank, Option.getD_some]

/-- Where every start of a name is still that of a listed variable, the listed variables have all the starts
of their names. -/
theorem mem_listed_starts (htab : table.Tabulates key (recordsOf events)) {name : String}
    (hkept : ∀ start ∈ startsOf events key name, ∃ slot, table.variableAt? slot start = some name)
    (start : UInt32) :
    start ∈ (table.listedLocals.filter (·.name = name)).map (·.start) ↔
      start ∈ startsOf events key name := by
  rw [List.mem_map]
  constructor
  · rintro ⟨listed, hmem, rfl⟩
    obtain ⟨hlisted, hname⟩ := List.mem_filter.1 hmem
    rw [← of_decide_eq_true hname]
    exact htab.mem_startsOf_of_variableAt? (mem_listedLocals.1 hlisted).1
  · intro hstart
    obtain ⟨slot, hvariable⟩ := hkept start hstart
    refine ⟨⟨name, slot, start, (table.startRank? name start).getD 0⟩, ?_, rfl⟩
    exact List.mem_filter.2 ⟨mem_listedLocals.2 ⟨hvariable, rfl⟩, by simp⟩

/-- Places and names agree just when every start of a name is still that of a listed variable. -/
theorem localsAgree_iff (htab : table.Tabulates key (recordsOf events)) :
    table.LocalsAgree ↔ ∀ name, ∀ start ∈ startsOf events key name,
      ∃ slot, table.variableAt? slot start = some name := by
  constructor
  · intro hagree name start hstart
    exact hagree.startRank name _ start (htab.startRank?_eq_some_iff.2 ⟨hstart, rfl⟩)
  · intro hkept
    have hrank (name : String) (n : Nat) (start : UInt32) (h : table.startRank? name start = some n) :
        ∃ slot, table.variableAt? slot start = some name :=
      hkept name start (htab.startRank?_eq_some_iff.1 h).1
    refine ⟨?_, hrank, ?_⟩
    · intro name n start hstart
      exact hrank name n start (nthStart?_eq_some_iff.1 hstart)
    · intro listed hlisted
      rw [htab.occurrence_eq hlisted]
      refine List.Perm.countP_eq _ ?_
      rw [List.perm_ext_iff_of_nodup (List.nodup_dedup _) (List.nodup_dedup _)]
      intro start
      rw [List.mem_dedup, List.mem_dedup, htab.mem_listed_starts (hkept listed.name)]

end Tabulates

end MethodTable

/-- The names that events give to a place are those recorded for it. -/
theorem mem_namesAt_iff {events : List Event} {key : MethodKey} {slot : UInt16} {start : UInt32}
    {name : String} :
    name ∈ namesAt events key slot start ↔ .localVariable key slot start name ∈ recordsOf events := by
  rw [namesAt_eq_filterMap, List.mem_filterMap]
  simp only [Record.nameAt?_eq_some_iff, exists_eq_right]

/-- An index that has been built holds the records of the events. -/
theorem OffsetIndex.tabulates_of_build {events : List Event} {index : OffsetIndex}
    (hbuild : OffsetIndex.build events = .ok index) : index.Tabulates (recordsOf events) := by
  have hsound : Event.Sound events := by
    by_contra hunsound
    obtain ⟨before, event, rest, fault, -, -, -, hcollect⟩ := collect_scan_of_not_sound hunsound
    rw [build, hcollect] at hbuild
    cases hbuild
  rw [build, collect_scan_of_sound hsound] at hbuild
  cases hbuild
  exact tabulates_ofRecords _

namespace OffsetIndex

/-- A name is found at the starts that the events of the method give it, numbered by the distinct earlier
ones, also where a later name has taken their places. So what is found by name agrees with what is listed
just when each of these starts is still that of a variable listed under the name, and in particular when no
place is named in two ways. -/
theorem localsAgree_iff_kept {events : List Event} {index : OffsetIndex}
    (hbuild : OffsetIndex.build events = .ok index) {key : MethodKey} {table : MethodTable}
    (htable : index.method? key = some table) :
    (∀ name n start,
      (table.nthStart? name n = some start ↔ table.startRank? name start = some n) ∧
      (table.startRank? name start = some n ↔
        start ∈ startsOf events key name ∧
          n = (startsOf events key name).dedup.countP (· < start))) ∧
    (∀ listed ∈ table.listedLocals,
      listed.occurrence = (startsOf events key listed.name).dedup.countP (· < listed.start)) ∧
    (table.LocalsAgree ↔ ∀ name, ∀ start ∈ startsOf events key name,
      ∃ slot, (namesAt events key slot start).getLast? = some name) ∧
    ((∀ slot start name name', name ∈ namesAt events key slot start →
      name' ∈ namesAt events key slot start → name = name') → table.LocalsAgree) := by
  have htab := (tabulates_of_build hbuild).tables key table htable
  have hagree : table.LocalsAgree ↔ ∀ name, ∀ start ∈ startsOf events key name,
      ∃ slot, (namesAt events key slot start).getLast? = some name := by
    simp only [htab.localsAgree_iff, htab.variableAt?_eq]
  refine ⟨?_, fun listed hlisted => htab.occurrence_eq hlisted, hagree, ?_⟩
  · intro name n start
    exact ⟨MethodTable.nthStart?_eq_some_iff, htab.startRank?_eq_some_iff⟩
  · intro hsame
    rw [hagree]
    intro name start hstart
    obtain ⟨slot, hmem⟩ := mem_startsOf_iff.1 hstart
    have hname := mem_namesAt_iff.2 hmem
    have hlast := List.getLast?_eq_some_getLast (List.ne_nil_of_mem hname)
    exact ⟨slot, by rw [hlast, hsame slot start _ name (List.getLast_mem _) hname]⟩

/-- Two loops, each with its own counter. -/
def loops : List Event :=
  [.method "m" "()V", .localVariable "this" "LC;" 0 0, .localVariable "i" "I" 1 2,
    .localVariable "x" "I" 2 10, .localVariable "i" "I" 1 30]

def loopsTable : MethodTable :=
  ⟨.empty, ⟨[(⟨0, 0⟩, "this"), (⟨1, 2⟩, "i"), (⟨1, 30⟩, "i"), (⟨2, 10⟩, "x")], by decide⟩,
    ⟨[("i", ⟨[2, 30], by decide⟩), ("this", ⟨[0], by decide⟩), ("x", ⟨[10], by decide⟩)], by decide⟩⟩

theorem localsAgree_loops :
    OffsetIndex.build loops = .ok ⟨⟨[(⟨"m()"⟩, loopsTable)], by decide⟩⟩ ∧
    30 ∈ startsOf loops ⟨"m()"⟩ "i" ∧ loopsTable.LocalsAgree := by
  have hbuild : OffsetIndex.build loops = .ok ⟨⟨[(⟨"m()"⟩, loopsTable)], by decide⟩⟩ := by decide +kernel
  have hrecords : recordsOf loops =
      [.method ⟨"m()"⟩, .localVariable ⟨"m()"⟩ 0 0 "this", .localVariable ⟨"m()"⟩ 1 2 "i",
        .localVariable ⟨"m()"⟩ 2 10 "x", .localVariable ⟨"m()"⟩ 1 30 "i"] := by decide +kernel
  have htable : OffsetIndex.method? ⟨⟨[(⟨"m()"⟩, loopsTable)], by decide⟩⟩ ⟨"m()"⟩ = some loopsTable := rfl
  obtain ⟨hnames, -, -, hagree⟩ := localsAgree_iff_kept hbuild htable
  refine ⟨hbuild, ((hnames "i" 1 30).2.1 (by decide +kernel)).1, hagree ?_⟩
  intro slot start name name' hname hname'
  simp only [mem_namesAt_iff, hrecords, List.mem_cons, List.not_mem_nil, or_false, reduceCtorEq,
    false_or, Record.localVariable.injEq, true_and] at hname hname'
  rcases hname with ⟨rfl, rfl, rfl⟩ | ⟨rfl, rfl, rfl⟩ | ⟨rfl, rfl, rfl⟩ | ⟨rfl, rfl, rfl⟩ <;>
    simpa [eq_comm] using hname'

/-- A method and its bridge, which differ in what they return and share a key; they name their parameter
differently. -/
def bridged : List Event :=
  [.method "get" "(I)Ljava/lang/String;", .localVariable "i" "I" 1 0,
    .method "get" "(I)Ljava/lang/Object;", .localVariable "n" "I" 1 0, .localVariable "i" "I" 2 5]

def bridgedTable : MethodTable :=
  ⟨.empty, ⟨[(⟨1, 0⟩, "n"), (⟨2, 5⟩, "i")], by decide⟩,
    ⟨[("i", ⟨[0, 5], by decide⟩), ("n", ⟨[0], by decide⟩)], by decide⟩⟩

/-- The bridge takes the place of `i`, whose start is still counted. -/
theorem localsAgree_bridged :
    OffsetIndex.build bridged = .ok ⟨⟨[(⟨"get(I)"⟩, bridgedTable)], by decide⟩⟩ ∧
    bridgedTable.startRank? "i" 0 = some 0 ∧ (∀ slot, bridgedTable.variableAt? slot 0 ≠ some "i") ∧
    bridgedTable.listedLocals = [⟨"n", 1, 0, 0⟩, ⟨"i", 2, 5, 1⟩] ∧ ¬ bridgedTable.LocalsAgree := by
  have hfound : bridgedTable.startRank? "i" 0 = some 0 := by decide +kernel
  have hlost (slot : UInt16) : bridgedTable.variableAt? slot 0 ≠ some "i" := by
    intro hvariable
    have hentry := SortedMap.mem_of_findIn? hvariable
    simp [bridgedTable] at hentry
  refine ⟨by decide +kernel, hfound, hlost, by decide +kernel, ?_⟩
  intro hagree
  obtain ⟨slot, hslot⟩ := hagree.startRank "i" 0 0 hfound
  exact hlost slot hslot

end OffsetIndex

end Pinpoint
