import Mathlib.Data.List.Forall2
import Mathlib.Tactic.Common

namespace Pinpoint

namespace Except

variable {ε α β : Type} {result : Except ε α}

/-- What has a value has no error. -/
theorem exists_eq_ok_iff : (∃ value, result = .ok value) ↔ ∀ error, result ≠ .error error := by
  cases result <;> simp

theorem map_eq_ok_iff {change : α → β} {value : β} :
    result.map change = .ok value ↔ ∃ before, result = .ok before ∧ change before = value := by
  cases result <;> simp [Except.map]

theorem map_eq_error_iff {change : α → β} {error : ε} :
    result.map change = .error error ↔ result = .error error := by
  cases result <;> simp [Except.map]

theorem bind_eq_ok_iff {next : α → Except ε β} {value : β} :
    (result >>= next) = .ok value ↔ ∃ middle, result = .ok middle ∧ next middle = .ok value := by
  cases result <;> simp [Bind.bind, Except.bind]

/-- Collected values are those of the elements, in their order. -/
theorem mapM_eq_ok_iff {f : α → Except ε β} {items : List α} {results : List β} :
    items.mapM f = .ok results ↔ List.Forall₂ (fun item result => f item = .ok result) items results := by
  induction items generalizing results with
  | nil => simp [Pure.pure, Except.pure, eq_comm]
  | cons item rest ih =>
    rw [List.mapM_cons, bind_eq_ok_iff]
    simp only [bind_eq_ok_iff, ih, List.forall₂_cons_left_iff]
    constructor
    · rintro ⟨first, hfirst, others, hothers, hpure⟩
      cases hpure
      exact ⟨first, others, hfirst, hothers, rfl⟩
    · rintro ⟨first, others, hfirst, hothers, rfl⟩
      exact ⟨first, hfirst, others, hothers, rfl⟩

/-- Values can be collected from elements that all have one. -/
theorem exists_mapM {f : α → Except ε β} {items : List α}
    (hitems : ∀ item ∈ items, ∃ result, f item = .ok result) : ∃ results, items.mapM f = .ok results := by
  simp only [mapM_eq_ok_iff]
  induction items with
  | nil => exact ⟨[], .nil⟩
  | cons item rest ih =>
    obtain ⟨⟨first, hfirst⟩, hrest⟩ := List.forall_mem_cons.1 hitems
    obtain ⟨results, hresults⟩ := ih hrest
    exact ⟨first :: results, .cons hfirst hresults⟩

/-- Where the values are known, so are the collected ones; and every element has a value. -/
theorem eq_map_of_mapM {f : α → Except ε β} {g : α → β} {items : List α} {results : List β}
    (hvalue : ∀ item ∈ items, ∀ result, f item = .ok result → result = g item)
    (hmapM : items.mapM f = .ok results) :
    results = items.map g ∧ ∀ item ∈ items, ∃ result, f item = .ok result := by
  rw [mapM_eq_ok_iff] at hmapM
  induction hmapM with
  | nil => simp
  | @cons item first items rest hfirst _ ih =>
    rw [List.forall_mem_cons] at hvalue
    obtain ⟨rfl, hitems⟩ := ih hvalue.2
    rw [hvalue.1 first hfirst, List.map_cons, List.forall_mem_cons]
    exact ⟨rfl, ⟨first, hfirst⟩, hitems⟩

end Except

end Pinpoint
