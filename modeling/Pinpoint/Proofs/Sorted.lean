import Mathlib.Data.List.Dedup
import Mathlib.Data.List.Nodup
import Mathlib.Order.Compare
import Mathlib.Tactic.Common
import Pinpoint.Sorted

namespace Pinpoint

open Std

/-- Nothing comes twice, since nothing comes before itself. -/
theorem Ascending.nodup {α : Type} [Ord α] [ReflOrd α] {list : List α} (hasc : Ascending list) :
    list.Nodup := by
  refine hasc.imp ?_
  rintro a b hlt rfl
  simp [compare_self] at hlt

/-- What ascends by some key is in the one order that its elements have. -/
theorem Ascending.eq_of_perm {α β : Type} [Ord α] [OrientedOrd α] {key : β → α} {list other : List β}
    (hasc : Ascending (list.map key)) (hother : Ascending (other.map key)) (hperm : list.Perm other) :
    list = other := by
  refine List.Perm.eq_of_pairwise ?_ (List.pairwise_map.1 hasc) (List.pairwise_map.1 hother) hperm
  intro a b _ _ hlt hgt
  rw [OrientedCmp.gt_iff_lt.2 hlt] at hgt
  cases hgt

namespace SortedSet

variable {α : Type} [Ord α] [LawfulEqOrd α]

/-- An element of a set has a rank. -/
theorem rank?_of_mem {set : SortedSet α} {element : α} (hmem : element ∈ set.toList) :
    set.rank? element = some (set.toList.countP fun other => compare other element = .lt) := by
  have hcontains : set.contains element = true :=
    List.any_eq_true.2 ⟨element, hmem, by simp⟩
  rw [rank?, if_pos hcontains]

/-- The rank of an element counts the distinct smaller ones of any list with the same elements. -/
theorem rank?_eq [DecidableEq α] {set : SortedSet α} {list : List α}
    (hlist : ∀ other, other ∈ set.toList ↔ other ∈ list) {element : α} (hmem : element ∈ set.toList) :
    set.rank? element = some (list.dedup.countP fun other => compare other element = .lt) := by
  have hperm : set.toList.Perm list.dedup := by
    refine (List.perm_ext_iff_of_nodup set.ascending.nodup (List.nodup_dedup list)).2 ?_
    intro other
    rw [hlist, List.mem_dedup]
  rw [rank?_of_mem hmem, hperm.countP_eq]

/-- Nothing else has one. -/
theorem mem_of_rank? {set : SortedSet α} {element : α} {n : Nat} (hrank : set.rank? element = some n) :
    element ∈ set.toList := by
  rw [rank?] at hrank
  split at hrank
  · rename_i hcontains
    obtain ⟨other, hmem, hcompare⟩ := List.any_eq_true.1 hcontains
    rwa [← compare_eq_iff_eq.1 (of_decide_eq_true hcompare)]
  · cases hrank

variable [TransOrd α]

/-- An element of an ascending set comes after as many others as its rank says. -/
theorem rank?_split {set : SortedSet α} {front back : List α} {element : α}
    (hsplit : set.toList = front ++ element :: back) : set.rank? element = some front.length := by
  have hasc := set.ascending
  rw [Ascending, hsplit, List.pairwise_append, List.pairwise_cons] at hasc
  obtain ⟨-, ⟨hback, -⟩, hfront⟩ := hasc
  have hbefore : front.countP (fun other => compare other element = .lt) = front.length := by
    rw [List.countP_eq_length]
    intro other hother
    exact decide_eq_true (hfront other hother element List.mem_cons_self)
  have hafter : back.countP (fun other => compare other element = .lt) = 0 := by
    rw [List.countP_eq_zero]
    intro other hother
    simp [OrientedCmp.gt_iff_lt.2 (hback other hother)]
  rw [rank?_of_mem (by simp [hsplit]), hsplit, List.countP_append, List.countP_cons_of_neg (by simp),
    hbefore, hafter, Nat.add_zero]

/-- The element after `n` others is the one of rank `n`. -/
theorem at?_eq_some_iff {set : SortedSet α} {element : α} {n : Nat} :
    set.at? n = some element ↔ set.rank? element = some n := by
  constructor
  · intro hat
    obtain ⟨hn, hget⟩ := List.getElem?_eq_some_iff.1 hat
    have hsplit : set.toList = set.toList.take n ++ element :: set.toList.drop (n + 1) := by
      rw [← hget, List.getElem_cons_drop, List.take_append_drop]
    rw [rank?_split hsplit, List.length_take, Nat.min_eq_left (Nat.le_of_lt hn)]
  · intro hrank
    obtain ⟨front, back, hsplit⟩ := List.append_of_mem (mem_of_rank? hrank)
    rw [rank?_split hsplit, Option.some.injEq] at hrank
    rw [at?, hsplit, ← hrank]
    simp

theorem mem_insert {set : SortedSet α} {element other : α} :
    other ∈ (set.insert element).toList ↔ other = element ∨ other ∈ set.toList :=
  mem_insertIn

/-- Sets of the same elements are the same. -/
theorem eq_of_mem_iff {set other : SortedSet α}
    (hmem : ∀ element, element ∈ set.toList ↔ element ∈ other.toList) : set = other := by
  obtain ⟨list, hasc⟩ := set
  obtain ⟨list', hasc'⟩ := other
  have hperm : list.Perm list' := (List.perm_ext_iff_of_nodup hasc.nodup hasc'.nodup).2 hmem
  have hlist : list = list' := by
    rw [← List.map_id list] at hasc
    rw [← List.map_id list'] at hasc'
    exact hasc.eq_of_perm hasc' hperm
  rw [SortedSet.mk.injEq]
  exact hlist

end SortedSet

namespace SortedMap

variable {κ α : Type} [Ord κ]

@[simp]
theorem find?_empty (key : κ) : (empty : SortedMap κ α).find? key = none := rfl

variable [LawfulEqOrd κ]

theorem findIn?_eq_none_iff {key : κ} {entries : List (κ × α)} :
    findIn? key entries = none ↔ key ∉ entries.map (·.1) := by
  induction entries with
  | nil => simp [findIn?]
  | cons entry rest ih =>
    by_cases hkey : key = entry.1
    · simp [findIn?, hkey]
    · simp [findIn?, hkey, ih]

/-- A map has a value for each of its keys, and for nothing else. -/
theorem mem_keys_iff {map : SortedMap κ α} {key : κ} :
    key ∈ map.keys ↔ (map.find? key).isSome := by
  rw [Option.isSome_iff_ne_none, Ne, find?, findIn?_eq_none_iff, not_not, keys]

theorem mem_of_findIn? {key : κ} {value : α} {entries : List (κ × α)}
    (hfind : findIn? key entries = some value) : (key, value) ∈ entries := by
  induction entries with
  | nil => cases hfind
  | cons entry rest ih =>
    rw [findIn?] at hfind
    split at hfind
    · next horder =>
      cases hfind
      rw [compare_eq_iff_eq.1 horder]
      exact List.mem_cons_self
    · exact List.mem_cons_of_mem _ (ih hfind)

/-- The entries of a map are what its look-up finds. -/
theorem mem_entries_iff {map : SortedMap κ α} {key : κ} {value : α} :
    (key, value) ∈ map.entries ↔ map.find? key = some value := by
  refine ⟨?_, mem_of_findIn?⟩
  intro hmem
  have hkey : key ∈ map.keys := List.mem_map.2 ⟨_, hmem, rfl⟩
  obtain ⟨found, hfind⟩ := Option.isSome_iff_exists.1 (mem_keys_iff.1 hkey)
  have hsame := List.inj_on_of_nodup_map (f := Prod.fst) map.ascending.nodup hmem (mem_of_findIn? hfind) rfl
  rw [hfind, (Prod.mk.inj hsame).2]

variable [TransOrd κ]

/-- Maps that find the same are the same. -/
theorem eq_of_find? {map other : SortedMap κ α} (hfind : ∀ key, map.find? key = other.find? key) :
    map = other := by
  have hperm : map.entries.Perm other.entries := by
    refine (List.perm_ext_iff_of_nodup map.ascending.nodup.of_map other.ascending.nodup.of_map).2 ?_
    rintro ⟨key, value⟩
    rw [mem_entries_iff, mem_entries_iff, hfind]
  have hentries := map.ascending.eq_of_perm other.ascending hperm
  cases map
  cases other
  rw [SortedMap.mk.injEq]
  exact hentries

/-- In an ascending list, an update changes the value of its own key only. -/
theorem findIn?_updateIn [DecidableEq κ] {key other : κ} {change : Option α → α}
    {entries : List (κ × α)} (hasc : Ascending (entries.map (·.1))) :
    findIn? other (updateIn key change entries) =
      if other = key then some (change (findIn? key entries)) else findIn? other entries := by
  induction entries with
  | nil => simp [updateIn, findIn?]
  | cons entry rest ih =>
    rw [List.map_cons] at hasc
    obtain ⟨hfirst, hrest⟩ := List.pairwise_cons.1 hasc
    rw [updateIn]
    cases horder : compare key entry.1 with
    | lt =>
      -- the key comes before every entry, so it has no value so far
      have hnone : findIn? key (entry :: rest) = none := by
        rw [findIn?_eq_none_iff, List.map_cons, List.mem_cons, not_or]
        refine ⟨?_, ?_⟩
        · rintro rfl
          simp at horder
        · intro hmem
          have hlt := TransCmp.lt_trans horder (hfirst key hmem)
          simp at hlt
      rw [hnone, findIn?]
      simp
    | eq =>
      have hkey : key = entry.1 := compare_eq_iff_eq.1 horder
      subst hkey
      by_cases hother : other = entry.1 <;> simp [findIn?, hother]
    | gt =>
      have hkey : key ≠ entry.1 := by
        rintro rfl
        simp at horder
      by_cases hother : other = entry.1
      · simp [findIn?, hother, hkey.symm]
      · simp [findIn?, hother, hkey, ih hrest]

/-- An update changes the value of its own key only. -/
theorem find?_update [DecidableEq κ] (map : SortedMap κ α) (key other : κ) (change : Option α → α) :
    (map.update key change).find? other =
      if other = key then some (change (map.find? key)) else map.find? other :=
  findIn?_updateIn map.ascending

/-- A map of sets that stands for a relation: each set holds the elements related to its key, and a key
without any has no entry. -/
structure Collects [Ord α] (map : SortedMap κ (SortedSet α)) (related : κ → α → Prop) : Prop where
  nonempty : ∀ key set, map.find? key = some set → set.toList ≠ []
  mem_iff : ∀ key element,
    (∃ set, map.find? key = some set ∧ element ∈ set.toList) ↔ related key element

end SortedMap

namespace SortedMap.Collects

variable {κ α : Type} [Ord κ] [Ord α] {map : SortedMap κ (SortedSet α)} {related : κ → α → Prop}

theorem empty (hnone : ∀ key element, ¬ related key element) :
    (SortedMap.empty : SortedMap κ (SortedSet α)).Collects related where
  nonempty := by simp
  mem_iff := by simp [hnone]

theorem congr {other : κ → α → Prop} (hcollects : map.Collects related)
    (hrelated : ∀ key element, related key element ↔ other key element) : map.Collects other where
  nonempty := hcollects.nonempty
  mem_iff key element := (hcollects.mem_iff key element).trans (hrelated key element)

variable [LawfulEqOrd κ] [TransOrd κ] [LawfulEqOrd α] [TransOrd α]

/-- Maps that stand for the same relation are the same. -/
theorem ext {other : SortedMap κ (SortedSet α)} (hmap : map.Collects related) (hother : other.Collects related) :
    map = other := by
  have hmem (key : κ) (element : α) :
      (∃ set, map.find? key = some set ∧ element ∈ set.toList) ↔
        ∃ set, other.find? key = some set ∧ element ∈ set.toList :=
    (hmap.mem_iff key element).trans (hother.mem_iff key element).symm
  refine eq_of_find? fun key => ?_
  -- a set that is there has an element, which the other map must have too
  cases hset : map.find? key with
  | none =>
    cases hset' : other.find? key with
    | none => rfl
    | some set' =>
      obtain ⟨element, helement⟩ := List.exists_mem_of_ne_nil _ (hother.nonempty key set' hset')
      obtain ⟨set, hfound, -⟩ := (hmem key element).2 ⟨set', hset', helement⟩
      rw [hset] at hfound
      cases hfound
  | some set =>
    obtain ⟨element, helement⟩ := List.exists_mem_of_ne_nil _ (hmap.nonempty key set hset)
    obtain ⟨set', hset', -⟩ := (hmem key element).1 ⟨set, hset, helement⟩
    have hsame := SortedSet.eq_of_mem_iff fun more => by simpa [hset, hset'] using hmem key more
    rw [hset', hsame]

variable [DecidableEq κ]

/-- One more related pair. -/
theorem insert (hcollects : map.Collects related) (key : κ) (element : α) :
    (map.update key fun set => (set.getD .empty).insert element).Collects
      fun other more => related other more ∨ other = key ∧ more = element := by
  have hfind := fun other =>
    map.find?_update key other fun set => (set.getD .empty).insert element
  have hmem : ∀ more, more ∈ ((map.find? key).getD .empty).toList ↔ related key more := by
    intro more
    rw [← hcollects.mem_iff]
    cases map.find? key <;> simp [SortedSet.empty]
  refine ⟨?_, ?_⟩
  · intro other set hset
    rw [hfind] at hset
    split at hset
    · cases hset
      exact List.ne_nil_of_mem (SortedSet.mem_insert.2 (.inl rfl))
    · exact hcollects.nonempty other set hset
  · intro other more
    rw [hfind]
    by_cases hother : other = key
    · subst hother
      simp only [if_true, Option.some.injEq, exists_eq_left', SortedSet.mem_insert, hmem]
      tauto
    · simp only [hother, if_false, false_and, or_false, hcollects.mem_iff]

end SortedMap.Collects

end Pinpoint
