import Mathlib.Data.List.Basic
import Mathlib.Data.List.Induction
import Mathlib.Tactic.Common
import Pinpoint.Proofs.ClassFile.Blocks

namespace Pinpoint

/-- The fault of an outcome that is one. -/
def EventFault.of? : Except EventFault Record → Option EventFault
  | .error fault => some fault
  | .ok _ => none

/-- What a scan yields at the event at position `n`: its outcome behind those of the events before. -/
def yieldAt? (events : List Event) (n : Nat) : Option (Except EventFault Record) :=
  (scan (events.take (n + 1)))[(scan (events.take n)).length]?

/-- The fault that a scan yields at the event at position `n`. -/
def faultAt? (events : List Event) (n : Nat) : Option EventFault :=
  (yieldAt? events n).bind EventFault.of?

namespace Cursor

/-- What one event comes to. -/
def outcome? (state : Cursor) (event : Event) : Option (Except EventFault Record) :=
  match state.step event with
  | .error fault => some (.error fault)
  | .ok (_, record) => record.map .ok

/-- A scan of one event yields what the event comes to. -/
theorem run_singleton (state : Cursor) (event : Event) :
    state.run [event] = (state.outcome? event).toList := by
  rw [run, outcome?]
  cases state.step event with
  | error fault => rfl
  | ok outcome =>
    obtain ⟨next, record⟩ := outcome
    cases record <;> rfl

/-- The faults that events come to are those with which they offend. -/
theorem of?_outcome?_eq_some_iff {state : Cursor} {event : Event} {fault : EventFault} :
    (state.outcome? event).bind EventFault.of? = some fault ↔ state.Offends event fault := by
  rw [← step_eq_error_iff, outcome?]
  cases state.step event with
  | error other => simp [EventFault.of?]
  | ok outcome =>
    obtain ⟨next, record⟩ := outcome
    cases record <;> simp [EventFault.of?]

end Cursor

/-- Where a scan stands after some events, faulty ones among them. -/
def stateAfter (events : List Event) : Cursor := events.foldl Cursor.advance .start

section Yields

variable {events : List Event} {event : Event} {n : Nat} {fault : EventFault}

/-- One more event yields what it comes to where the events before have led. -/
theorem scan_append_singleton (events : List Event) (event : Event) :
    scan (events ++ [event]) = scan events ++ ((stateAfter events).outcome? event).toList := by
  rw [scan, Cursor.run_append, Cursor.run_singleton, scan, stateAfter]

/-- An event yields what it comes to where the events before it have led. -/
theorem yieldAt?_append (before : List Event) (event : Event) (rest : List Event) :
    yieldAt? (before ++ event :: rest) before.length = (stateAfter before).outcome? event := by
  have htake : (before ++ event :: rest).take (before.length + 1) = before ++ [event] := by
    rw [List.take_append, List.take_of_length_le (by omega), Nat.add_sub_cancel_left, List.take_one]
    rfl
  rw [yieldAt?, htake, List.take_left, scan_append_singleton, List.getElem?_append_right (Nat.le_refl _),
    Nat.sub_self]
  cases (stateAfter before).outcome? event <;> rfl

theorem yieldAt?_of_le (hn : events.length ≤ n) : yieldAt? events n = none := by
  rw [yieldAt?, List.take_of_length_le (by omega), List.take_of_length_le hn]
  exact List.getElem?_eq_none (Nat.le_refl _)

/-- What is yielded at an event does not depend on those behind it. -/
theorem yieldAt?_of_lt (hn : n < events.length) (more : List Event) :
    yieldAt? (events ++ more) n = yieldAt? events n := by
  rw [yieldAt?, List.take_append_of_le_length (by omega), List.take_append_of_le_length (by omega), yieldAt?]

/-- An event yields a fault just when it offends where the events before it have led. -/
theorem faultAt?_append (before : List Event) (event : Event) (rest : List Event) :
    faultAt? (before ++ event :: rest) before.length = some fault ↔
      (stateAfter before).Offends event fault := by
  rw [faultAt?, yieldAt?_append, Cursor.of?_outcome?_eq_some_iff]

/-- Later events do not change what an event yields. -/
theorem faultAt?_of_lt (hn : n < events.length) (more : List Event) :
    faultAt? (events ++ more) n = faultAt? events n := by
  rw [faultAt?, yieldAt?_of_lt hn, faultAt?]

/-- A scan yields nothing but what it yields at its events, in their order. -/
theorem scan_eq_filterMap (events : List Event) :
    scan events = (List.range events.length).filterMap (yieldAt? events) := by
  induction events using List.reverseRecOn with
  | nil => rfl
  | append_singleton events event ih =>
    have hfront : (List.range events.length).filterMap (yieldAt? (events ++ [event])) = scan events := by
      rw [ih]
      refine List.filterMap_congr fun n hn => ?_
      exact yieldAt?_of_lt (List.mem_range.1 hn) [event]
    rw [scan_append_singleton, List.length_append, List.length_singleton, List.range_succ,
      List.filterMap_append, hfront, List.filterMap_cons, yieldAt?_append]
    cases (stateAfter events).outcome? event <;> rfl

/-- A fault that an event yields is among what the scan yields. -/
theorem error_mem_scan (hfault : faultAt? events n = some fault) : .error fault ∈ scan events := by
  obtain ⟨outcome, hyield, houtcome⟩ := Option.bind_eq_some_iff.1 hfault
  have hn : n < events.length := by
    by_contra hnot
    rw [yieldAt?_of_le (Nat.le_of_not_lt hnot)] at hyield
    cases hyield
  have herror : outcome = .error fault := by
    cases outcome <;> simp_all [EventFault.of?]
  rw [scan_eq_filterMap, List.mem_filterMap]
  exact ⟨n, List.mem_range.2 hn, by rw [hyield, herror]⟩

end Yields

section Readable

end Readable

/-- Events are sound just when none of them is faulty. -/
theorem Event.sound_iff_faultAt? {events : List Event} :
    Event.Sound events ↔ ∀ n, faultAt? events n = none := by
  constructor
  · intro hsound n
    have hscan := OffsetIndex.collect_eq_ok_iff.1 (OffsetIndex.collect_scan_of_sound hsound)
    cases hfault : faultAt? events n with
    | none => rfl
    | some fault =>
      have hmem := error_mem_scan hfault
      rw [hscan] at hmem
      simp at hmem
  · intro hnone
    by_contra hunsound
    obtain ⟨before, event, rest, fault, rfl, hbefore, hoffends, -⟩ :=
      OffsetIndex.collect_scan_of_not_sound hunsound
    rw [← Cursor.foldl_advance hbefore, ← stateAfter, ← faultAt?_append before event rest, hnone] at hoffends
    cases hoffends

namespace OffsetIndex

variable {events : List Event} {fault : EventFault}

/-- An index that is not built fails with the first fault that an event yields. -/
theorem first_fault_of_build (hbuild : build events = .error fault) :
    ∃ n, faultAt? events n = some fault ∧ ∀ m < n, faultAt? events m = none := by
  have hunsound : ¬ Event.Sound events := by
    intro hsound
    rw [build, collect_scan_of_sound hsound] at hbuild
    cases hbuild
  obtain ⟨before, event, rest, first, rfl, hbefore, hoffends, hcollect⟩ :=
    collect_scan_of_not_sound hunsound
  rw [build, hcollect] at hbuild
  cases hbuild
  refine ⟨before.length, ?_, ?_⟩
  · rwa [faultAt?_append, stateAfter, Cursor.foldl_advance hbefore]
  · intro m hm
    rw [faultAt?_of_lt hm]
    exact Event.sound_iff_faultAt?.1 hbefore m

/-- The first fault is what building an index fails with. -/
theorem build_eq_error_iff :
    build events = .error fault ↔
      ∃ n, faultAt? events n = some fault ∧ ∀ m < n, faultAt? events m = none := by
  refine ⟨first_fault_of_build, ?_⟩
  rintro ⟨n, hfault, hfirst⟩
  cases hbuild : build events with
  | ok index =>
    rw [Event.sound_iff_faultAt?.1 (build_eq_ok_iff.1 hbuild).1] at hfault
    cases hfault
  | error other =>
    obtain ⟨m, hother, hearlier⟩ := first_fault_of_build hbuild
    -- each of the two is the first, so they are one
    obtain hlt | rfl | hlt := Nat.lt_trichotomy n m
    · rw [hearlier n hlt] at hfault
      cases hfault
    · rw [hother, Option.some.injEq] at hfault
      rw [hfault]
    · rw [hfirst m hlt] at hother
      cases hother

end OffsetIndex

end Pinpoint
