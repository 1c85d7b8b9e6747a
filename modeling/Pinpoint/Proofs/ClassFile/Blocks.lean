import Mathlib.Data.List.Basic
import Mathlib.Data.List.Induction
import Mathlib.Tactic.Common
import Pinpoint.Proofs.ClassFile.Scan
import Pinpoint.Proofs.ClassFile.Tabulation

namespace Pinpoint

/-- A method event with the events up to the next one. -/
structure Block where
  name : String
  descriptor : String
  body : List Event
  isMethod_body : ∀ event ∈ body, event.isMethod = false
deriving DecidableEq

namespace Block

def events (block : Block) : List Event := .method block.name block.descriptor :: block.body

/-- The key of the method that a block is about. -/
def key? (block : Block) : Option MethodKey := MethodKey.ofDescriptor? block.name block.descriptor

/-- Whether a block is about a method. -/
def opens (key : MethodKey) (block : Block) : Bool := block.key? = some key

/-- The events of several blocks, one block after the other. -/
def joined (blocks : List Block) : List Event := blocks.flatMap events

/-- Behind its events before the first method event, every list of events is made of blocks. -/
theorem exists_joined (events : List Event) :
    ∃ front blocks, events = front ++ joined blocks ∧ ∀ event ∈ front, event.isMethod = false := by
  induction events with
  | nil => exact ⟨[], [], rfl, by simp⟩
  | cons event rest ih =>
    obtain ⟨front, blocks, hrest, hfront⟩ := ih
    cases hevent : event.isMethod with
    | true =>
      cases event with
      | method name descriptor =>
        refine ⟨[], ⟨name, descriptor, front, hfront⟩ :: blocks, ?_, by simp⟩
        rw [hrest]
        rfl
      | _ => cases hevent
    | false =>
      refine ⟨event :: front, blocks, by rw [hrest, List.cons_append], ?_⟩
      exact List.forall_mem_cons.2 ⟨hevent, hfront⟩

end Block

namespace Cursor

/-- Inside a method a step stays in it, and what it records belongs to it. -/
theorem Reads.stays {state next : Cursor} {event : Event} {record : Option Record}
    (hreads : state.Reads event (.ok (next, record))) (hevent : event.isMethod = false) :
    next.method = state.method ∧ ∀ found ∈ record, state.method = some found.owner := by
  cases hreads with
  | method hmethod _ =>
    rw [hevent] at hmethod
    cases hmethod
  | label hmethod => exact ⟨hmethod.symm, by simp⟩
  | instruction hmethod _ =>
    refine ⟨rfl, ?_⟩
    rintro _ ⟨⟩
    exact hmethod
  | localVariable hmethod =>
    refine ⟨rfl, ?_⟩
    rintro _ ⟨⟩
    exact hmethod
  | silent _ _ _ => exact ⟨rfl, by simp⟩

/-- All that is recorded up to the next method event belongs to the method that a scan is in. -/
theorem owner_of_mem_run {state : Cursor} {body : List Event} {record : Record}
    (hbody : ∀ event ∈ body, event.isMethod = false) (hmem : .ok record ∈ state.run body) :
    state.method = some record.owner := by
  induction body generalizing state with
  | nil => cases hmem
  | cons event rest ih =>
    obtain ⟨hevent, hrest⟩ := List.forall_mem_cons.1 hbody
    have hreads := state.reads_step event
    rw [run] at hmem
    cases hstep : state.step event with
    | error fault =>
      simp only [hstep, List.mem_cons, reduceCtorEq, false_or] at hmem
      exact ih hrest hmem
    | ok outcome =>
      obtain ⟨next, found⟩ := outcome
      rw [hstep] at hreads
      obtain ⟨hnext, hfound⟩ := hreads.stays hevent
      cases found with
      | none =>
        simp only [hstep] at hmem
        rw [← hnext]
        exact ih hrest hmem
      | some first =>
        simp only [hstep, List.mem_cons, Except.ok.injEq] at hmem
        obtain rfl | hmem := hmem
        · exact hfound record rfl
        · rw [← hnext]
          exact ih hrest hmem

/-- A block is read from its method event on, wherever the scan stands. -/
theorem run_block (state : Cursor) (block : Block) :
    state.run block.events =
      match block.key? with
      | some key => .ok (.method key) :: Cursor.run ⟨some key, 0⟩ block.body
      | none => .error (.badDescriptor block.name block.descriptor) :: state.run block.body := by
  rw [Block.events, run, step, Block.key?]
  cases MethodKey.ofDescriptor? block.name block.descriptor <;> rfl

end Cursor

namespace OffsetIndex

/-- Records are collected just where there is no fault among them. -/
theorem collect_eq_ok_iff {outcomes : List (Except EventFault Record)} {records : List Record} :
    collect outcomes = .ok records ↔ outcomes = records.map .ok := by
  induction outcomes generalizing records with
  | nil => cases records <;> simp [collect]
  | cons outcome rest ih =>
    cases outcome with
    | error fault => cases records <;> simp [collect]
    | ok record =>
      rw [collect]
      cases records with
      | nil => cases collect rest <;> simp [Except.map]
      | cons first others =>
        rw [List.map_cons, List.cons.injEq, ← ih]
        cases collect rest <;> simp [Except.map]

/-- The records of events are collected just when the events are sound. -/
theorem collect_scan_eq_ok_iff {events : List Event} {records : List Record} :
    collect (scan events) = .ok records ↔ Event.Sound events ∧ recordsOf events = records := by
  by_cases hsound : Event.Sound events
  · simp [collect_scan_of_sound hsound, hsound]
  · obtain ⟨_, _, _, fault, -, -, -, hcollect⟩ := collect_scan_of_not_sound hsound
    simp [hcollect, hsound]

/-- An index is built just of sound events, and of their records. -/
theorem build_eq_ok_iff {events : List Event} {index : OffsetIndex} :
    build events = .ok index ↔ Event.Sound events ∧ ofRecords (recordsOf events) = index := by
  by_cases hsound : Event.Sound events
  · simp [build, collect_scan_of_sound hsound, hsound, Except.map]
  · obtain ⟨_, _, _, fault, -, -, -, hcollect⟩ := collect_scan_of_not_sound hsound
    simp [build, hcollect, hsound, Except.map]

/-- A block is read alike wherever a scan stands before it. -/
theorem collect_run_block (state : Cursor) (block : Block) :
    collect (state.run block.events) = collect (scan block.events) := by
  rw [scan, Cursor.run_block, Cursor.run_block]
  cases block.key? <;> rfl

/-- Blocks are read in turn, each by itself. -/
theorem collect_run_joined {state : Cursor} {blocks : List Block} {records : List Record} :
    collect (state.run (Block.joined blocks)) = .ok records ↔
      (∀ block ∈ blocks, Event.Sound block.events) ∧
        blocks.flatMap (fun block => recordsOf block.events) = records := by
  induction blocks generalizing state records with
  | nil => simp [Block.joined, Cursor.run, collect]
  | cons block rest ih =>
    rw [Block.joined, List.flatMap_cons, Cursor.run_append, collect_append, collect_run_block,
      List.forall_mem_cons, List.flatMap_cons]
    by_cases hsound : Event.Sound block.events
    · rw [collect_scan_of_sound hsound]
      -- the others are read from where the first block leads, which makes no difference to them
      have hrest {others : List Record} := @ih (block.events.foldl Cursor.advance state) others
      rw [Block.joined] at hrest
      cases hcollect :
          collect ((block.events.foldl Cursor.advance state).run (rest.flatMap Block.events)) with
      | error fault =>
        have hunsound : ¬ ∀ other ∈ rest, Event.Sound other.events := by
          intro hall
          have hok := hrest.2 ⟨hall, rfl⟩
          rw [hcollect] at hok
          cases hok
        simp [Except.map, hunsound]
      | ok others =>
        obtain ⟨hall, hothers⟩ := hrest.1 hcollect
        rw [hothers]
        constructor
        · rintro ⟨⟩
          exact ⟨⟨hsound, hall⟩, rfl⟩
        · rintro ⟨-, rfl⟩
          rfl
    · obtain ⟨_, _, _, fault, -, -, -, hcollect⟩ := collect_scan_of_not_sound hsound
      simp [hcollect, hsound]

/-- Blocks are sound one after the other just when each of them is. -/
theorem sound_joined_iff {blocks : List Block} :
    Event.Sound (Block.joined blocks) ↔ ∀ block ∈ blocks, Event.Sound block.events := by
  constructor
  · intro hsound
    exact (collect_run_joined.1 (collect_scan_of_sound hsound)).1
  · intro hall
    exact (collect_scan_eq_ok_iff.1 (collect_run_joined.2 ⟨hall, rfl⟩)).1

/-- The records of blocks are those of each by itself, in order. -/
theorem recordsOf_joined {blocks : List Block} (hsound : ∀ block ∈ blocks, Event.Sound block.events) :
    recordsOf (Block.joined blocks) = blocks.flatMap fun block => recordsOf block.events :=
  (collect_scan_eq_ok_iff.1 (collect_run_joined.2 ⟨hsound, rfl⟩)).2

/-- The records of a block are those of its own method, which it opens. -/
theorem owner_recordsOf_block {block : Block} (hsound : Event.Sound block.events) :
    ∃ key, block.key? = some key ∧ .method key ∈ recordsOf block.events ∧
      ∀ record ∈ recordsOf block.events, record.owner = key := by
  have hscan := collect_eq_ok_iff.1 (collect_scan_of_sound hsound)
  have hmem {record : Record} : record ∈ recordsOf block.events ↔ .ok record ∈ scan block.events := by
    rw [hscan]
    simp
  rw [scan, Cursor.run_block] at hscan hmem
  cases hkey : block.key? with
  | none =>
    rw [hkey] at hscan
    cases hrecords : recordsOf block.events <;> simp [hrecords] at hscan
  | some key =>
    simp only [hkey, List.mem_cons, Except.ok.injEq] at hmem
    refine ⟨key, rfl, hmem.2 (.inl rfl), ?_⟩
    intro record hrecord
    obtain rfl | hrun := hmem.1 hrecord
    · rfl
    · exact (Option.some.inj (Cursor.owner_of_mem_run block.isMethod_body hrun)).symm

/-- The records of a method are those of the blocks about it. -/
theorem filter_owner_flatMap {blocks : List Block} (hsound : ∀ block ∈ blocks, Event.Sound block.events)
    (key : MethodKey) :
    (blocks.flatMap fun block => recordsOf block.events).filter (·.owner = key) =
      (blocks.filter (·.opens key)).flatMap fun block => recordsOf block.events := by
  induction blocks with
  | nil => rfl
  | cons block rest ih =>
    obtain ⟨hblock, hrest⟩ := List.forall_mem_cons.1 hsound
    obtain ⟨own, hown, -, howner⟩ := owner_recordsOf_block hblock
    rw [List.flatMap_cons, List.filter_append, ih hrest, List.filter_cons]
    by_cases hkey : own = key
    · have hall : (recordsOf block.events).filter (·.owner = key) = recordsOf block.events := by
        refine List.filter_eq_self.2 fun record hrecord => ?_
        simp [howner record hrecord, hkey]
      simp [Block.opens, hown, hkey, hall]
    · have hnone : (recordsOf block.events).filter (·.owner = key) = [] := by
        refine List.filter_eq_nil_iff.2 fun record hrecord => ?_
        simp [howner record hrecord, hkey]
      simp [Block.opens, hown, hkey, hnone]

/-- One more record changes the table of its own method only. -/
theorem method?_ofRecords_concat (records : List Record) (record : Record) (key : MethodKey) :
    (ofRecords (records ++ [record])).method? key =
      if key = record.owner then some ((((ofRecords records).method? key).getD .empty).add record)
      else (ofRecords records).method? key := by
  rw [ofRecords, List.foldl_concat]
  exact method?_add _ record key

/-- The table of a method depends on its own records alone. -/
theorem method?_filter_owner (records : List Record) (key : MethodKey) :
    (ofRecords (records.filter (·.owner = key))).method? key = (ofRecords records).method? key := by
  induction records using List.reverseRecOn with
  | nil => rfl
  | append_singleton records record ih =>
    rw [List.filter_append, method?_ofRecords_concat]
    by_cases howner : record.owner = key
    · rw [List.filter_cons_of_pos (by simpa using howner), List.filter_nil, method?_ofRecords_concat,
        if_pos howner.symm, if_pos howner.symm, ih]
    · rw [List.filter_cons_of_neg (by simpa using howner), List.filter_nil, List.append_nil,
        if_neg (Ne.symm howner), ih]

theorem sound_filter_opens {blocks : List Block} (hsound : ∀ block ∈ blocks, Event.Sound block.events)
    (key : MethodKey) : ∀ block ∈ blocks.filter (·.opens key), Event.Sound block.events :=
  fun block hblock => hsound block (List.mem_of_mem_filter hblock)

/-- The table of a method is the one that the blocks about it build without the others. -/
theorem method?_joined {blocks : List Block} (hsound : ∀ block ∈ blocks, Event.Sound block.events)
    (key : MethodKey) :
    (ofRecords (recordsOf (Block.joined blocks))).method? key =
      (ofRecords (recordsOf (Block.joined (blocks.filter (·.opens key))))).method? key := by
  rw [recordsOf_joined hsound, recordsOf_joined (sound_filter_opens hsound key),
    ← filter_owner_flatMap hsound, method?_filter_owner]

/-- A method has a table just when there is a block about it. -/
theorem method?_joined_isSome_iff {blocks : List Block}
    (hsound : ∀ block ∈ blocks, Event.Sound block.events) (key : MethodKey) :
    ((ofRecords (recordsOf (Block.joined blocks))).method? key).isSome ↔
      ∃ block ∈ blocks, block.key? = some key := by
  rw [(tabulates_ofRecords _).owners, recordsOf_joined hsound]
  constructor
  · rintro ⟨record, hrecord, rfl⟩
    obtain ⟨block, hblock, hrecord⟩ := List.mem_flatMap.1 hrecord
    obtain ⟨own, hown, -, howner⟩ := owner_recordsOf_block (hsound block hblock)
    exact ⟨block, hblock, by rw [hown, howner record hrecord]⟩
  · rintro ⟨block, hblock, hkey⟩
    obtain ⟨own, hown, hmethod, -⟩ := owner_recordsOf_block (hsound block hblock)
    cases hown.symm.trans hkey
    exact ⟨.method key, List.mem_flatMap.2 ⟨block, hblock, hmethod⟩, rfl⟩

/-- Indexes with the same tables are the same. -/
theorem eq_of_method? {index other : OffsetIndex}
    (hmethod : ∀ key, index.method? key = other.method? key) : index = other := by
  obtain ⟨methods⟩ := index
  obtain ⟨others⟩ := other
  exact congrArg OffsetIndex.mk (SortedMap.eq_of_find? hmethod)

/-- The events of a class that can be indexed are made of blocks. The table of a method is the one that the
blocks about it build without the others, and a method has a table just when there is such a block. So
blocks can be put in any order that leaves those about one method in theirs. -/
theorem methods_apart {events : List Event} {index : OffsetIndex} (hbuild : build events = .ok index) :
    (∃ blocks, Block.joined blocks = events) ∧
    ∀ blocks, Block.joined blocks = events →
      (∀ key, ∃ own, build (Block.joined (blocks.filter (·.opens key))) = .ok own ∧
        index.method? key = own.method? key ∧
        ((index.method? key).isSome ↔ ∃ block ∈ blocks, block.key? = some key)) ∧
      ∀ arranged, arranged.Perm blocks →
        (∀ key, arranged.filter (·.opens key) = blocks.filter (·.opens key)) →
        build (Block.joined arranged) = .ok index := by
  obtain ⟨hsound, rfl⟩ := build_eq_ok_iff.1 hbuild
  refine ⟨?_, ?_⟩
  · obtain ⟨front, blocks, rfl, hfront⟩ := Block.exists_joined events
    -- the first event opens a method, so nothing comes before the first block
    cases front with
    | nil => exact ⟨blocks, rfl⟩
    | cons event front =>
      have hevent := hfront event List.mem_cons_self
      obtain hnil | ⟨name, descriptor, rest, hfirst⟩ := hsound.opens
      · cases hnil
      · cases hfirst
        cases hevent
  · rintro blocks rfl
    rw [sound_joined_iff] at hsound
    refine ⟨?_, ?_⟩
    · intro key
      have hown := sound_joined_iff.2 (sound_filter_opens hsound key)
      exact ⟨_, build_eq_ok_iff.2 ⟨hown, rfl⟩, method?_joined hsound key,
        method?_joined_isSome_iff hsound key⟩
    · intro arranged hperm hkeep
      have harranged : ∀ block ∈ arranged, Event.Sound block.events := fun block hblock =>
        hsound block (hperm.mem_iff.1 hblock)
      refine build_eq_ok_iff.2 ⟨sound_joined_iff.2 harranged, ?_⟩
      refine eq_of_method? ?_
      intro key
      rw [method?_joined harranged, hkeep, ← method?_joined hsound]

end OffsetIndex

/-- A method with a cast behind a label. -/
def Block.getter : Block := ⟨"get", "(I)LT;", [.label 4, .typeInsn 0xc0 "T"], by decide⟩

/-- Another method, which opens without a label of its own. -/
def Block.runner : Block := ⟨"run", "()V", [.typeInsn 0xc1 "T"], by decide⟩

/-- The bridge of the first method, which shares its key. -/
def Block.bridge : Block := ⟨"get", "(I)LS;", [.localVariable "i" "I" 1 0], by decide⟩

theorem OffsetIndex.methods_apart_bridged :
    ∃ index, build (Block.joined [.getter, .runner, .bridge]) = .ok index ∧
      build (Block.joined [.runner, .getter, .bridge]) = .ok index ∧
      index.offsets ⟨"get(I)"⟩ .cast = [5] ∧ index.offsets ⟨"run()"⟩ .instanceOf = [1] := by
  have hbuild : build (Block.joined [.getter, .runner, .bridge]) = .ok ⟨⟨[
      (⟨"get(I)"⟩, ⟨⟨[(.cast, ⟨[5], by decide⟩)], by decide⟩, ⟨[(⟨1, 0⟩, "i")], by decide⟩,
        ⟨[("i", ⟨[0], by decide⟩)], by decide⟩⟩),
      (⟨"run()"⟩, ⟨⟨[(.instanceOf, ⟨[1], by decide⟩)], by decide⟩, .empty, .empty⟩)], by decide⟩⟩ := by decide +kernel
  obtain ⟨-, hblocks⟩ := methods_apart hbuild
  obtain ⟨-, harranged⟩ := hblocks _ rfl
  refine ⟨_, hbuild, harranged [.runner, .getter, .bridge] (.swap _ _ _) ?_, by decide +kernel,
    by decide +kernel⟩
  intro key
  have hgetter : Block.getter.key? = some ⟨"get(I)"⟩ := by decide +kernel
  have hrunner : Block.runner.key? = some ⟨"run()"⟩ := by decide +kernel
  by_cases hkey : key = ⟨"run()"⟩
  · subst hkey
    simp [List.filter_cons, Block.opens, hgetter, hrunner]
  · simp [List.filter_cons, Block.opens, hrunner, Ne.symm hkey]

end Pinpoint
