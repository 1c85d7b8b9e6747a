import Mathlib.Data.List.Basic
import Mathlib.Data.List.Induction
import Mathlib.Tactic.Common
import Pinpoint.ClassFile.OffsetIndex

namespace Pinpoint

namespace Event

def isMethod : Event → Bool
  | .method _ _ => true
  | _ => false

/-- The key of the method that an event opens. -/
def key? : Event → Option MethodKey
  | .method name descriptor => MethodKey.ofDescriptor? name descriptor
  | _ => none

/-- The offset that an event gives to what follows. -/
def labelled? : Event → Option UInt32
  | .label offset => some offset
  | _ => none

/-- The construct that an event stands for at the current label, and the offset it is listed at. -/
inductive Stands (label : UInt32) : Event → Construct → UInt32 → Prop
  | new {opcode : Opcode} {typeName : String} (hopcode : opcode ∈ [0xbb, 0xbd]) :
    Stands label (.typeInsn opcode typeName) .new label
  | newArray {operand : Int32} : Stands label (.intInsn 0xbc operand) .new label
  | multiANewArray {descriptor : String} {dimensions : UInt8} :
    Stands label (.multiANewArray descriptor dimensions) .new label
  | call {opcode : Opcode} {owner name descriptor : String} (hopcode : opcode ∈ [0xb6, 0xb8, 0xb9]) :
    Stands label (.methodInsn opcode owner name descriptor) .methodCall label
  | lambda {name descriptor : String} : Stands label (.invokeDynamic name descriptor) .lambda label
  | cast {typeName : String} {offset : UInt32} (hoffset : offset.toNat = label.toNat + 1) :
    Stands label (.typeInsn 0xc0 typeName) .cast offset
  | instanceOf {typeName : String} {offset : UInt32} (hoffset : offset.toNat = label.toNat + 1) :
    Stands label (.typeInsn 0xc1 typeName) .instanceOf offset

end Event

/-- The key of the latest method event. -/
def currentMethod? (before : List Event) : Option MethodKey :=
  (before.reverse.find? Event.isMethod).bind Event.key?

/-- The offset of the latest label since the latest method event, or 0. -/
def currentLabel (before : List Event) : UInt32 :=
  ((before.reverse.takeWhile fun event => !event.isMethod).findSome? Event.labelled?).getD 0

namespace Cursor

/-- Where a scan stands after some events. -/
def after (before : List Event) : Cursor := ⟨currentMethod? before, currentLabel before⟩

/-- An event that cannot be recorded where a scan stands, and why. -/
inductive Offends (state : Cursor) : Event → EventFault → Prop
  | badDescriptor {name descriptor : String} (hdescriptor : ')' ∉ descriptor.toList) :
    Offends state (.method name descriptor) (.badDescriptor name descriptor)
  | outsideMethod {event : Event} (hevent : event.isMethod = false) (hmethod : state.method = none) :
    Offends state event (.outsideMethod event.tag)
  | typeOpcode {key : MethodKey} {opcode : Opcode} {typeName : String}
    (hmethod : state.method = some key) (hopcode : opcode ∉ [0xbb, 0xbd, 0xc0, 0xc1]) :
    Offends state (.typeInsn opcode typeName) (.unknownOpcode "type_insn" opcode key)
  | callOpcode {key : MethodKey} {opcode : Opcode} {owner name descriptor : String}
    (hmethod : state.method = some key) (hopcode : opcode ∉ [0xb6, 0xb7, 0xb8, 0xb9]) :
    Offends state (.methodInsn opcode owner name descriptor) (.unknownOpcode "method_insn" opcode key)
  | offsetTooLarge {key : MethodKey} {opcode : Opcode} {typeName : String}
    (hmethod : state.method = some key) (hopcode : opcode ∈ [0xc0, 0xc1])
    (hlabel : state.label = 0xffffffff) :
    Offends state (.typeInsn opcode typeName) (.offsetTooLarge 0xffffffff key)

/-- Where a scan stands after one more event. -/
def advance (state : Cursor) (event : Event) : Cursor :=
  match state.step event with
  | .ok (next, _) => next
  | .error _ => state

/-- What is recorded of an event. -/
def record? (state : Cursor) (event : Event) : Option Record :=
  match state.step event with
  | .ok (_, record) => record
  | .error _ => none

end Cursor

/-- A method has no key just when its descriptor does not close its parameters. -/
theorem MethodKey.ofDescriptor?_eq_none_iff {name descriptor : String} :
    MethodKey.ofDescriptor? name descriptor = none ↔ ')' ∉ descriptor.toList := by
  simp [MethodKey.ofDescriptor?]

namespace Cursor

/-- All that a step can come to. -/
inductive Reads (state : Cursor) : Event → Except EventFault (Cursor × Option Record) → Prop
  | fault {event : Event} {fault : EventFault} (hoffends : state.Offends event fault) :
    Reads state event (.error fault)
  | method {event : Event} {key : MethodKey} (hevent : event.isMethod = true)
    (hkey : event.key? = some key) : Reads state event (.ok (⟨some key, 0⟩, some (.method key)))
  | label {offset : UInt32} {key : MethodKey} (hmethod : state.method = some key) :
    Reads state (.label offset) (.ok (⟨some key, offset⟩, none))
  | instruction {event : Event} {construct : Construct} {offset : UInt32} {opcode : Opcode}
    {key : MethodKey} (hmethod : state.method = some key)
    (hstands : event.Stands state.label construct offset) :
    Reads state event (.ok (state, some (.instruction key construct offset opcode)))
  | localVariable {name descriptor : String} {slot : UInt16} {start : UInt32} {key : MethodKey}
    (hmethod : state.method = some key) :
    Reads state (.localVariable name descriptor slot start)
      (.ok (state, some (.localVariable key slot start name)))
  | silent {event : Event} {key : MethodKey} (hmethod : state.method = some key)
    (hevent : event.isMethod = false) (hlabel : event.labelled? = none) :
    Reads state event (.ok (state, none))

/-- Inside a method, any other event than a method event leaves the scan in that method. -/
theorem step_of_method {state : Cursor} {event : Event} {key : MethodKey}
    (hmethod : state.method = some key) (hevent : event.isMethod = false) :
    state.step event = (inMethod state.label key event).map fun (label, record) =>
      (⟨some key, label⟩, record) := by
  cases event with
  | method name descriptor => cases hevent
  | _ => simp [step, hmethod]

theorem typeInsn?_eq_none {opcode : Opcode} (hopcode : opcode ∉ [0xbb, 0xbd, 0xc0, 0xc1]) :
    typeInsn? opcode = none := by
  simp only [List.mem_cons, List.not_mem_nil, or_false, not_or] at hopcode
  simp [typeInsn?, Opcode.checkCast, Opcode.instanceOf, Opcode.new, Opcode.aNewArray, hopcode]

/-- An event that offends is refused with its fault. -/
theorem step_of_offends {state : Cursor} {event : Event} {fault : EventFault}
    (hoffends : state.Offends event fault) : state.step event = .error fault := by
  cases hoffends with
  | badDescriptor hdescriptor =>
    rw [step, MethodKey.ofDescriptor?_eq_none_iff.2 hdescriptor]
  | outsideMethod hevent hmethod =>
    cases event with
    | method name descriptor => cases hevent
    | _ => simp [step, hmethod]
  | typeOpcode hmethod hopcode =>
    rw [step_of_method hmethod rfl, inMethod, typeInsn?_eq_none hopcode]
    rfl
  | callOpcode hmethod hopcode =>
    simp only [List.mem_cons, List.not_mem_nil, or_false, not_or] at hopcode
    rw [step_of_method hmethod rfl, inMethod]
    simp [Opcode.invokeVirtual, Opcode.invokeSpecial, Opcode.invokeStatic, Opcode.invokeInterface,
      hopcode, Except.map, Event.tag]
  | offsetTooLarge hmethod hopcode hlabel =>
    rw [step_of_method hmethod rfl, inMethod, hlabel]
    simp only [List.mem_cons, List.not_mem_nil, or_false] at hopcode
    rcases hopcode with rfl | rfl <;> rfl

theorem toNat_add_one {label : UInt32} (hlabel : label ≠ 0xffffffff) :
    (label + 1).toNat = label.toNat + 1 := by
  have hbound := label.toNat_lt
  have hmax : label.toNat ≠ 4294967295 := fun hmax => hlabel (UInt32.toNat_inj.1 hmax)
  rw [UInt32.toNat_add, UInt32.toNat_one]
  omega

/-- The operand of an instruction stands one behind it, if there is room. -/
theorem locate_operand {label offset : UInt32} {key : MethodKey} {construct : Construct}
    {opcode : Opcode} (hoffset : offset.toNat = label.toNat + 1) :
    locate label key construct opcode .operand = .ok (.instruction key construct offset opcode) := by
  have hlabel : label ≠ 0xffffffff := by
    rintro rfl
    have hbound := offset.toNat_lt
    have hmax : (0xffffffff : UInt32).toNat = 4294967295 := rfl
    omega
  have hnext : label + 1 = offset := by
    apply UInt32.toNat_inj.1
    rw [toNat_add_one hlabel, hoffset]
  rw [locate, if_neg hlabel, hnext]

/-- An event that stands for a construct is recorded as an instruction, and the scan stays where it is. -/
theorem step_of_stands {state : Cursor} {event : Event} {construct : Construct} {offset : UInt32}
    {key : MethodKey} (hmethod : state.method = some key)
    (hstands : event.Stands state.label construct offset) :
    ∃ opcode, state.step event = .ok (state, some (.instruction key construct offset opcode)) := by
  -- with the method in its place and a known opcode the step computes
  obtain ⟨method, label⟩ := state
  cases hmethod
  cases hstands with
  | new hopcode =>
    simp only [List.mem_cons, List.not_mem_nil, or_false] at hopcode
    rcases hopcode with rfl | rfl <;> exact ⟨_, rfl⟩
  | newArray => exact ⟨_, rfl⟩
  | multiANewArray => exact ⟨_, rfl⟩
  | call hopcode =>
    simp only [List.mem_cons, List.not_mem_nil, or_false] at hopcode
    rcases hopcode with rfl | rfl | rfl <;> exact ⟨_, rfl⟩
  | lambda => exact ⟨_, rfl⟩
  | cast hoffset =>
    refine ⟨Opcode.checkCast, ?_⟩
    change ((locate label key .cast Opcode.checkCast .operand).map _).map _ = _
    rw [locate_operand hoffset]
    rfl
  | instanceOf hoffset =>
    refine ⟨Opcode.instanceOf, ?_⟩
    change ((locate label key .instanceOf Opcode.instanceOf .operand).map _).map _ = _
    rw [locate_operand hoffset]
    rfl

theorem reads_of_offends {state : Cursor} {event : Event} {fault : EventFault}
    (hoffends : state.Offends event fault) : state.Reads event (state.step event) := by
  rw [step_of_offends hoffends]
  exact .fault hoffends

theorem reads_of_stands {state : Cursor} {event : Event} {construct : Construct} {offset : UInt32}
    {key : MethodKey} (hmethod : state.method = some key)
    (hstands : event.Stands state.label construct offset) : state.Reads event (state.step event) := by
  obtain ⟨opcode, hstep⟩ := step_of_stands hmethod hstands
  rw [hstep]
  exact .instruction hmethod hstands

/-- The step at an instruction with a type operand, whatever its opcode: an allocation is listed at the label, a
test or cast behind it, and any other opcode offends. -/
theorem reads_typeInsn {state : Cursor} {key : MethodKey} (hmethod : state.method = some key)
    (opcode : Opcode) (typeName : String) :
    state.Reads (.typeInsn opcode typeName) (state.step (.typeInsn opcode typeName)) := by
  by_cases hnew : opcode ∈ [0xbb, 0xbd]
  · exact reads_of_stands hmethod (.new hnew)
  by_cases hoperand : opcode ∈ [0xc0, 0xc1]
  · by_cases hlabel : state.label = 0xffffffff
    · exact reads_of_offends (.offsetTooLarge hmethod hoperand hlabel)
    · have hoffset := toNat_add_one hlabel
      simp only [List.mem_cons, List.not_mem_nil, or_false] at hoperand
      rcases hoperand with rfl | rfl
      · exact reads_of_stands hmethod (.cast hoffset)
      · exact reads_of_stands hmethod (.instanceOf hoffset)
  · refine reads_of_offends (.typeOpcode hmethod ?_)
    simp only [List.mem_cons, List.not_mem_nil, or_false, not_or] at hnew hoperand ⊢
    exact ⟨hnew.1, hnew.2, hoperand⟩

/-- The step at a call, whatever its opcode: `invokespecial` leaves no record, and an opcode that is no call
offends. -/
theorem reads_methodInsn {state : Cursor} {key : MethodKey} (hmethod : state.method = some key)
    (opcode : Opcode) (owner name descriptor : String) :
    state.Reads (.methodInsn opcode owner name descriptor)
      (state.step (.methodInsn opcode owner name descriptor)) := by
  by_cases hcall : opcode ∈ [0xb6, 0xb8, 0xb9]
  · exact reads_of_stands hmethod (.call hcall)
  by_cases hspecial : opcode = 0xb7
  · obtain ⟨method, label⟩ := state
    cases hmethod
    subst hspecial
    exact .silent rfl rfl rfl
  · refine reads_of_offends (.callOpcode hmethod ?_)
    simp only [List.mem_cons, List.not_mem_nil, or_false, not_or] at hcall ⊢
    exact ⟨hcall.1, hspecial, hcall.2⟩

/-- The step at an instruction with an integer operand: only the one that makes an array leaves a record. -/
theorem reads_intInsn {state : Cursor} {key : MethodKey} (hmethod : state.method = some key)
    (opcode : Opcode) (operand : Int32) :
    state.Reads (.intInsn opcode operand) (state.step (.intInsn opcode operand)) := by
  by_cases harray : opcode = Opcode.newArray
  · subst harray
    exact reads_of_stands hmethod .newArray
  · obtain ⟨method, label⟩ := state
    cases hmethod
    rw [step_of_method rfl rfl, inMethod, if_neg harray]
    exact .silent rfl rfl rfl

/-- A step comes to one of these. -/
theorem reads_step (state : Cursor) (event : Event) : state.Reads event (state.step event) := by
  cases hevent : event.isMethod with
  | true =>
    cases event with
    | method name descriptor =>
      rw [step]
      cases hkey : MethodKey.ofDescriptor? name descriptor with
      | none => exact .fault (.badDescriptor (MethodKey.ofDescriptor?_eq_none_iff.1 hkey))
      | some key => exact .method rfl hkey
    | _ => cases hevent
  | false =>
    cases hmethod : state.method with
    | none => exact reads_of_offends (.outsideMethod hevent hmethod)
    | some key =>
      cases event with
      | method name descriptor => cases hevent
      | label offset =>
        rw [step_of_method hmethod rfl]
        exact .label hmethod
      | typeInsn opcode typeName => exact reads_typeInsn hmethod opcode typeName
      | intInsn opcode operand => exact reads_intInsn hmethod opcode operand
      | multiANewArray descriptor dimensions => exact reads_of_stands hmethod .multiANewArray
      | methodInsn opcode owner name descriptor =>
        exact reads_methodInsn hmethod opcode owner name descriptor
      | invokeDynamic name descriptor => exact reads_of_stands hmethod .lambda
      | localVariable name descriptor slot start =>
        obtain ⟨method, label⟩ := state
        cases hmethod
        exact .localVariable rfl
      | insn opcode =>
        obtain ⟨method, label⟩ := state
        cases hmethod
        exact .silent rfl rfl rfl

/-- A step fails just with the faults that are to be found with the event. -/
theorem step_eq_error_iff {state : Cursor} {event : Event} {fault : EventFault} :
    state.step event = .error fault ↔ state.Offends event fault := by
  refine ⟨?_, step_of_offends⟩
  intro hstep
  have hreads := state.reads_step event
  rw [hstep] at hreads
  cases hreads with
  | fault hoffends => exact hoffends

/-- What is recorded of an event is recorded by one of the steps that there are. -/
theorem reads_of_record? {state : Cursor} {event : Event} {record : Record}
    (hrecord : state.record? event = some record) :
    ∃ next, state.Reads event (.ok (next, some record)) := by
  have hreads := state.reads_step event
  rw [record?] at hrecord
  split at hrecord
  · next next found hstep =>
    rw [hstep, hrecord] at hreads
    exact ⟨next, hreads⟩
  · cases hrecord

/-- A method event with a key is recorded wherever a scan stands. -/
theorem record?_of_key? {state : Cursor} {event : Event} {key : MethodKey}
    (hkey : event.key? = some key) : state.record? event = some (.method key) := by
  cases event with
  | method name descriptor =>
    rw [Event.key?] at hkey
    rw [record?, step, hkey]
  | _ => cases hkey

/-- An instruction is recorded just for the current method, and just for what the event stands for at the
current label. -/
theorem record?_eq_instruction_iff {state : Cursor} {event : Event} {construct : Construct}
    {offset : UInt32} {key : MethodKey} :
    (∃ opcode, state.record? event = some (.instruction key construct offset opcode)) ↔
      state.method = some key ∧ event.Stands state.label construct offset := by
  constructor
  · rintro ⟨opcode, hrecord⟩
    obtain ⟨next, hreads⟩ := reads_of_record? hrecord
    cases hreads with
    | instruction hmethod hstands => exact ⟨hmethod, hstands⟩
  · rintro ⟨hmethod, hstands⟩
    obtain ⟨opcode, hstep⟩ := step_of_stands hmethod hstands
    exact ⟨opcode, by rw [record?, hstep]⟩

/-- A local variable is recorded just for the current method, as the event describes it. -/
theorem record?_eq_localVariable_iff {state : Cursor} {event : Event} {slot : UInt16}
    {start : UInt32} {name : String} {key : MethodKey} :
    state.record? event = some (.localVariable key slot start name) ↔
      state.method = some key ∧ ∃ descriptor, event = .localVariable name descriptor slot start := by
  constructor
  · intro hrecord
    obtain ⟨next, hreads⟩ := reads_of_record? hrecord
    cases hreads with
    | localVariable hmethod => exact ⟨hmethod, _, rfl⟩
  · rintro ⟨hmethod, descriptor, rfl⟩
    rw [record?, step_of_method hmethod rfl]
    rfl

/-- A record belongs to the method that its event opens, or to the current one. -/
theorem owner_of_record? {state : Cursor} {event : Event} {record : Record}
    (hrecord : state.record? event = some record) :
    event.key? = some record.owner ∨ state.method = some record.owner := by
  obtain ⟨next, hreads⟩ := reads_of_record? hrecord
  cases hreads with
  | method hevent hkey => exact .inl hkey
  | instruction hmethod hstands => exact .inr hmethod
  | localVariable hmethod => exact .inr hmethod

end Cursor

section History

/-- One more event: a method event becomes the latest one. -/
theorem currentMethod?_concat (before : List Event) (event : Event) :
    currentMethod? (before ++ [event]) =
      if event.isMethod then event.key? else currentMethod? before := by
  rw [currentMethod?, List.reverse_concat, List.find?_cons]
  cases event.isMethod <;> rfl

/-- One more event: a method event starts over at 0, and a label event sets the label. -/
theorem currentLabel_concat (before : List Event) (event : Event) :
    currentLabel (before ++ [event]) =
      if event.isMethod then 0 else event.labelled?.getD (currentLabel before) := by
  rw [currentLabel, List.reverse_concat, List.takeWhile_cons]
  cases event.isMethod with
  | true => rfl
  | false =>
    simp only [Bool.not_false, if_true, List.findSome?_cons]
    cases event.labelled? <;> rfl

/-- The current method has been opened by one of the events. -/
theorem key?_of_currentMethod? {before : List Event} {key : MethodKey}
    (hkey : currentMethod? before = some key) : ∃ event ∈ before, event.key? = some key := by
  obtain ⟨event, hfind, hkey⟩ := Option.bind_eq_some_iff.1 hkey
  exact ⟨event, List.mem_reverse.1 (List.mem_of_find?_eq_some hfind), hkey⟩

/-- The events of a list, each with where a scan stands before it. -/
def moments (events : List Event) : List (Cursor × Event) :=
  events.zipIdx.map fun (event, n) => (Cursor.after (events.take n), event)

/-- One more event, at the place that the ones before have led to. -/
theorem moments_concat (events : List Event) (event : Event) :
    moments (events ++ [event]) = moments events ++ [(Cursor.after events, event)] := by
  rw [moments, List.zipIdx_append, List.map_append]
  congr 1
  · refine List.map_congr_left ?_
    rintro ⟨other, n⟩ hmem
    obtain ⟨hn, -⟩ := List.getElem?_eq_some_iff.1 (List.mem_zipIdx_iff_getElem?.1 hmem)
    dsimp only at hn ⊢
    rw [List.take_append_of_le_length (by omega)]
  · simp

end History

/-- Events that can all be recorded: the first opens a method, every method has a key, every opcode is known
where it stands, and there is room behind the label of a type operand. -/
structure Event.Sound (events : List Event) : Prop where
  opens : events = [] ∨ ∃ name descriptor rest, events = .method name descriptor :: rest
  descriptor : ∀ name descriptor, .method name descriptor ∈ events → ')' ∈ descriptor.toList
  typeOpcode : ∀ opcode typeName, .typeInsn opcode typeName ∈ events →
    opcode ∈ [0xbb, 0xbd, 0xc0, 0xc1]
  callOpcode : ∀ opcode owner name descriptor, .methodInsn opcode owner name descriptor ∈ events →
    opcode ∈ [0xb6, 0xb7, 0xb8, 0xb9]
  room : ∀ state opcode typeName, (state, .typeInsn opcode typeName) ∈ moments events →
    opcode ∈ [0xc0, 0xc1] → state.label ≠ 0xffffffff

namespace Event.Sound

variable {events : List Event} {event : Event}

theorem nil : Event.Sound [] := ⟨.inl rfl, nofun, nofun, nofun, nofun⟩

/-- After sound events, there is a current method. -/
theorem exists_currentMethod? (hsound : Event.Sound events) (hevents : events ≠ []) :
    ∃ key, currentMethod? events = some key := by
  obtain rfl | ⟨name, descriptor, rest, hfirst⟩ := hsound.opens
  · exact absurd rfl hevents
  have hfind : (events.reverse.find? Event.isMethod).isSome := by
    refine List.find?_isSome.2 ⟨.method name descriptor, ?_, rfl⟩
    rw [hfirst]
    simp
  obtain ⟨event, hfind⟩ := Option.isSome_iff_exists.1 hfind
  have hmem : event ∈ events := List.mem_reverse.1 (List.mem_of_find?_eq_some hfind)
  cases event with
  | method name descriptor =>
    have hkey : MethodKey.ofDescriptor? name descriptor ≠ none := fun hnone =>
      MethodKey.ofDescriptor?_eq_none_iff.1 hnone (hsound.descriptor name descriptor hmem)
    obtain ⟨key, hkey⟩ := Option.ne_none_iff_exists'.1 hkey
    exact ⟨key, by rw [currentMethod?, hfind]; exact hkey⟩
  | _ => cases List.find?_some hfind

/-- Events that are sound with one more are sound without it. -/
theorem of_concat (hsound : Event.Sound (events ++ [event])) : Event.Sound events := by
  have hmem : ∀ {other}, other ∈ events → other ∈ events ++ [event] := List.mem_append_left _
  refine ⟨?_, fun name descriptor h => hsound.descriptor name descriptor (hmem h),
    fun opcode typeName h => hsound.typeOpcode opcode typeName (hmem h),
    fun opcode owner name descriptor h => hsound.callOpcode opcode owner name descriptor (hmem h), ?_⟩
  · cases events with
    | nil => exact .inl rfl
    | cons first rest =>
      obtain hnil | ⟨name, descriptor, others, hfirst⟩ := hsound.opens
      · cases hnil
      · cases hfirst
        exact .inr ⟨name, descriptor, rest, rfl⟩
  · intro state opcode typeName h
    refine hsound.room state opcode typeName ?_
    rw [moments_concat]
    exact List.mem_append_left _ h

/-- The last of sound events does not offend where it stands. -/
theorem not_offends (hsound : Event.Sound (events ++ [event])) (fault : EventFault) :
    ¬ (Cursor.after events).Offends event fault := by
  have hlast : event ∈ events ++ [event] := List.mem_append_right _ (List.mem_singleton_self _)
  intro hoffends
  cases hoffends with
  | badDescriptor hdescriptor => exact hdescriptor (hsound.descriptor _ _ hlast)
  | outsideMethod hevent hmethod =>
    by_cases hnil : events = []
    · subst hnil
      obtain hnil | ⟨name, descriptor, rest, hfirst⟩ := hsound.opens
      · cases hnil
      · cases hfirst
        cases hevent
    · obtain ⟨key, hkey⟩ := hsound.of_concat.exists_currentMethod? hnil
      rw [Cursor.after, hkey] at hmethod
      cases hmethod
  | typeOpcode hmethod hopcode => exact hopcode (hsound.typeOpcode _ _ hlast)
  | callOpcode hmethod hopcode => exact hopcode (hsound.callOpcode _ _ _ _ hlast)
  | @offsetTooLarge _ opcode typeName hmethod hopcode hlabel =>
    refine hsound.room (Cursor.after events) opcode typeName ?_ hopcode hlabel
    rw [moments_concat]
    exact List.mem_append_right _ (List.mem_singleton_self _)

/-- One more event that does not offend leaves sound events sound. -/
theorem concat (hsound : Event.Sound events)
    (hnone : ∀ fault, ¬ (Cursor.after events).Offends event fault) :
    Event.Sound (events ++ [event]) := by
  -- the last event is in a method, unless it opens one
  have hmethod : event.isMethod = false → ∃ key, (Cursor.after events).method = some key := by
    intro hevent
    refine Option.ne_none_iff_exists'.1 fun hmethod => ?_
    exact hnone _ (.outsideMethod hevent hmethod)
  refine ⟨?_, ?_, ?_, ?_, ?_⟩
  · obtain rfl | ⟨name, descriptor, rest, rfl⟩ := hsound.opens
    · cases event with
      | method name descriptor => exact .inr ⟨name, descriptor, [], rfl⟩
      | _ =>
        obtain ⟨key, hkey⟩ := hmethod rfl
        cases hkey
    · exact .inr ⟨name, descriptor, rest ++ [event], rfl⟩
  · intro name descriptor hmem
    rcases List.mem_append.1 hmem with hmem | hmem
    · exact hsound.descriptor name descriptor hmem
    · cases List.mem_singleton.1 hmem
      by_contra hdescriptor
      exact hnone _ (.badDescriptor hdescriptor)
  · intro opcode typeName hmem
    rcases List.mem_append.1 hmem with hmem | hmem
    · exact hsound.typeOpcode opcode typeName hmem
    · cases List.mem_singleton.1 hmem
      by_contra hopcode
      obtain ⟨key, hkey⟩ := hmethod rfl
      exact hnone _ (.typeOpcode hkey hopcode)
  · intro opcode owner name descriptor hmem
    rcases List.mem_append.1 hmem with hmem | hmem
    · exact hsound.callOpcode opcode owner name descriptor hmem
    · cases List.mem_singleton.1 hmem
      by_contra hopcode
      obtain ⟨key, hkey⟩ := hmethod rfl
      exact hnone _ (.callOpcode hkey hopcode)
  · intro state opcode typeName hmem hopcode hlabel
    rw [moments_concat] at hmem
    rcases List.mem_append.1 hmem with hmem | hmem
    · exact hsound.room state opcode typeName hmem hopcode hlabel
    · cases List.mem_singleton.1 hmem
      obtain ⟨key, hkey⟩ := hmethod rfl
      exact hnone _ (.offsetTooLarge hkey hopcode hlabel)

end Event.Sound

namespace Cursor

variable {events : List Event} {event : Event}

/-- An event that does not offend takes a scan to where the events with it lead. -/
theorem advance_after (hnone : ∀ fault, ¬ (after events).Offends event fault) :
    (after events).advance event = after (events ++ [event]) := by
  have hreads := (after events).reads_step event
  have hafter : after (events ++ [event]) =
      if event.isMethod then ⟨event.key?, 0⟩
      else ⟨(after events).method, event.labelled?.getD (after events).label⟩ := by
    rw [after, currentMethod?_concat, currentLabel_concat]
    split <;> rfl
  rw [advance, hafter]
  generalize (after events).step event = outcome at hreads
  cases hreads with
  | fault hoffends => exact absurd hoffends (hnone _)
  | method hevent hkey => rw [if_pos hevent, hkey]
  | label hmethod =>
    rw [hmethod]
    rfl
  | instruction hmethod hstands => cases hstands <;> rfl
  | localVariable hmethod => rfl
  | silent hmethod hevent hlabel => simp [hevent, hlabel]

/-- A scan of two lists goes on from where the first has taken it. -/
theorem run_append (state : Cursor) (events more : List Event) :
    state.run (events ++ more) = state.run events ++ (events.foldl advance state).run more := by
  induction events generalizing state with
  | nil => rfl
  | cons event rest ih =>
    rw [List.cons_append, run, run, List.foldl_cons, advance]
    cases state.step event with
    | error fault => simp [ih]
    | ok outcome =>
      obtain ⟨next, record⟩ := outcome
      cases record <;> simp [ih]

/-- A scan of sound events has come to where their latest method and label say. -/
theorem foldl_advance (hsound : Event.Sound events) : events.foldl advance start = after events := by
  induction events using List.reverseRecOn with
  | nil => rfl
  | append_singleton events event ih =>
    rw [List.foldl_concat, ih hsound.of_concat]
    exact advance_after hsound.not_offends

end Cursor

/-- The records of the events of a list. -/
def recordsOf (events : List Event) : List Record :=
  (moments events).filterMap fun (state, event) => state.record? event

/-- One more event leaves what is recorded of it at the end. -/
theorem recordsOf_concat (events : List Event) (event : Event) :
    recordsOf (events ++ [event]) = recordsOf events ++ ((Cursor.after events).record? event).toList := by
  rw [recordsOf, moments_concat, List.filterMap_append]
  cases hrecord : (Cursor.after events).record? event <;> simp [recordsOf, hrecord]

namespace OffsetIndex

/-- Records are collected up to the first fault, from one list and then from the other. -/
theorem collect_append (first second : List (Except EventFault Record)) :
    collect (first ++ second) =
      match collect first with
      | .error fault => .error fault
      | .ok records => (collect second).map (records ++ ·) := by
  induction first with
  | nil =>
    rw [List.nil_append, collect]
    cases collect second <;> rfl
  | cons outcome rest ih =>
    cases outcome with
    | error fault => rfl
    | ok record =>
      rw [List.cons_append, collect, collect, ih]
      cases collect rest with
      | error fault => rfl
      | ok records => cases collect second <;> rfl

/-- A scan of sound events and one more goes on from where they lead. -/
theorem scan_concat {events : List Event} (hsound : Event.Sound events) (event : Event) :
    scan (events ++ [event]) = scan events ++ (Cursor.after events).run [event] := by
  rw [scan, Cursor.run_append, Cursor.foldl_advance hsound, scan]

/-- An event that does not offend yields its record and no fault. -/
theorem collect_run_singleton {state : Cursor} {event : Event}
    (hnone : ∀ fault, ¬ state.Offends event fault) :
    collect (state.run [event]) = .ok (state.record? event).toList := by
  rw [Cursor.run, Cursor.record?]
  cases hstep : state.step event with
  | error fault => exact absurd (Cursor.step_eq_error_iff.1 hstep) (hnone fault)
  | ok outcome =>
    obtain ⟨next, record⟩ := outcome
    cases record <;> rfl

/-- Sound events are read into their records. -/
theorem collect_scan_of_sound {events : List Event} (hsound : Event.Sound events) :
    collect (scan events) = .ok (recordsOf events) := by
  induction events using List.reverseRecOn with
  | nil => rfl
  | append_singleton events event ih =>
    rw [scan_concat hsound.of_concat, collect_append, ih hsound.of_concat,
      collect_run_singleton hsound.not_offends, recordsOf_concat]
    rfl

/-- Other events are read into the fault of the first that offends. -/
theorem collect_scan_of_not_sound {events : List Event} (hunsound : ¬ Event.Sound events) :
    ∃ before event rest fault, events = before ++ event :: rest ∧ Event.Sound before ∧
      (Cursor.after before).Offends event fault ∧ collect (scan events) = .error fault := by
  induction events using List.reverseRecOn with
  | nil => exact absurd Event.Sound.nil hunsound
  | append_singleton events event ih =>
    -- the last event is the first to offend, or an earlier one is and the scan has failed already
    by_cases hsound : Event.Sound events
    · have hoffends : ∃ fault, (Cursor.after events).Offends event fault := by
        by_contra hnone
        exact hunsound (hsound.concat (not_exists.1 hnone))
      obtain ⟨fault, hoffends⟩ := hoffends
      refine ⟨events, event, [], fault, rfl, hsound, hoffends, ?_⟩
      rw [scan_concat hsound, collect_append, collect_scan_of_sound hsound, Cursor.run,
        Cursor.step_of_offends hoffends]
      rfl
    · obtain ⟨before, first, rest, fault, rfl, hbefore, hoffends, hcollect⟩ := ih hsound
      refine ⟨before, first, rest ++ [event], fault, by simp, hbefore, hoffends, ?_⟩
      rw [scan, Cursor.run_append, collect_append, ← scan, hcollect]

end OffsetIndex

end Pinpoint
