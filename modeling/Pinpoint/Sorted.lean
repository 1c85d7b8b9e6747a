namespace Pinpoint

open Std

/-- Every element comes before all that follow it. -/
def Ascending {α : Type} [Ord α] (list : List α) : Prop :=
  list.Pairwise fun a b => compare a b = .lt

instance {α : Type} [Ord α] (list : List α) : Decidable (Ascending list) :=
  inferInstanceAs (Decidable (list.Pairwise fun a b => compare a b = .lt))

/-- A finite set: its elements, ascending, so that two sets of the same elements are equal. -/
structure SortedSet (α : Type) [Ord α] where
  toList : List α
  ascending : Ascending toList
deriving DecidableEq

namespace SortedSet

variable {α : Type} [Ord α]

def empty : SortedSet α := ⟨[], .nil⟩

def size (set : SortedSet α) : Nat := set.toList.length

/-- The element with `n` smaller ones. -/
def at? (set : SortedSet α) (n : Nat) : Option α := set.toList[n]?

def contains (set : SortedSet α) (element : α) : Bool :=
  set.toList.any fun other => compare other element = .eq

/-- How many elements are smaller than an element of the set. -/
def rank? (set : SortedSet α) (element : α) : Option Nat :=
  if set.contains element then some (set.toList.countP fun other => compare other element = .lt)
  else none

/-- Puts an element into an ascending list that may hold it already. -/
def insertIn (element : α) : List α → List α
  | [] => [element]
  | other :: rest =>
    match compare element other with
    | .lt => element :: other :: rest
    | .eq => other :: rest
    | .gt => other :: insertIn element rest

variable [LawfulEqOrd α]

/-- An insertion adds its element and nothing else. -/
theorem mem_insertIn {element other : α} {list : List α} :
    other ∈ insertIn element list ↔ other = element ∨ other ∈ list := by
  induction list with
  | nil => simp [insertIn]
  | cons first rest ih =>
    rw [insertIn]
    cases horder : compare element first with
    | lt => simp
    | eq =>
      have hfirst : element = first := compare_eq_iff_eq.1 horder
      simp [hfirst]
    | gt =>
      simp only [List.mem_cons, ih]
      exact or_left_comm

variable [TransOrd α]

/-- An insertion keeps the order: what comes first is the element or stands before it. -/
theorem ascending_insertIn {element : α} {list : List α} (hasc : Ascending list) :
    Ascending (insertIn element list) := by
  induction list with
  | nil => exact List.pairwise_singleton _ _
  | cons first rest ih =>
    obtain ⟨hfirst, hrest⟩ := List.pairwise_cons.1 hasc
    rw [insertIn]
    cases horder : compare element first with
    | lt =>
      refine List.pairwise_cons.2 ⟨?_, hasc⟩
      intro other hmem
      rcases List.mem_cons.1 hmem with rfl | hmem
      · exact horder
      · exact TransCmp.lt_trans horder (hfirst other hmem)
    | eq => exact hasc
    | gt =>
      refine List.pairwise_cons.2 ⟨?_, ih hrest⟩
      intro other hmem
      rcases mem_insertIn.1 hmem with rfl | hmem
      · exact OrientedCmp.gt_iff_lt.1 horder
      · exact hfirst other hmem

def insert (set : SortedSet α) (element : α) : SortedSet α :=
  ⟨insertIn element set.toList, ascending_insertIn set.ascending⟩

end SortedSet

/-- A finite map: its entries, keys ascending, so that two maps of the same values are equal. -/
structure SortedMap (κ α : Type) [Ord κ] where
  entries : List (κ × α)
  ascending : Ascending (entries.map (·.1))
deriving DecidableEq

namespace SortedMap

variable {κ α : Type} [Ord κ]

def empty : SortedMap κ α := ⟨[], .nil⟩

def isEmpty (map : SortedMap κ α) : Bool := map.entries.isEmpty

def keys (map : SortedMap κ α) : List κ := map.entries.map (·.1)

def size (map : SortedMap κ α) : Nat := map.entries.length

/-- The value of a key in a list of entries. -/
def findIn? (key : κ) : List (κ × α) → Option α
  | [] => none
  | (other, value) :: rest => if compare key other = .eq then some value else findIn? key rest

/-- The value of a key. -/
def find? (map : SortedMap κ α) (key : κ) : Option α := findIn? key map.entries

/-- Replaces the value of a key in an ascending list of entries, where `update` sees the value so far. -/
def updateIn (key : κ) (update : Option α → α) : List (κ × α) → List (κ × α)
  | [] => [(key, update none)]
  | (other, value) :: rest =>
    match compare key other with
    | .lt => (key, update none) :: (other, value) :: rest
    | .eq => (other, update (some value)) :: rest
    | .gt => (other, value) :: updateIn key update rest

/-- An update inserts its key into the keys. -/
theorem keys_updateIn (key : κ) (change : Option α → α) (entries : List (κ × α)) :
    (updateIn key change entries).map (·.1) = SortedSet.insertIn key (entries.map (·.1)) := by
  induction entries with
  | nil => rfl
  | cons entry rest ih =>
    rw [updateIn, List.map_cons, SortedSet.insertIn]
    cases compare key entry.1 with
    | lt => rfl
    | eq => rfl
    | gt => rw [List.map_cons, ih]

variable [LawfulEqOrd κ] [TransOrd κ]

/-- So an update keeps the order of the keys. -/
theorem ascending_updateIn {key : κ} {change : Option α → α} {entries : List (κ × α)}
    (hasc : Ascending (entries.map (·.1))) : Ascending ((updateIn key change entries).map (·.1)) := by
  rw [keys_updateIn]
  exact SortedSet.ascending_insertIn hasc

/-- Replaces the value of a key, where `update` sees the value so far. -/
def update (map : SortedMap κ α) (key : κ) (update : Option α → α) : SortedMap κ α :=
  ⟨updateIn key update map.entries, ascending_updateIn map.ascending⟩

/-- Sets the value of a key. -/
def insert (map : SortedMap κ α) (key : κ) (value : α) : SortedMap κ α :=
  map.update key fun _ => value

end SortedMap

end Pinpoint
