import Mathlib.Data.List.TakeWhile
import Mathlib.Tactic.Common
import Pinpoint.BinaryName.Segment
import Pinpoint.Proofs.Text

namespace Pinpoint

/-- Digits that denote a rank: at least one, all decimal. Leading zeros are allowed. -/
structure Denotes (digits : List Char) (rank : Nat) : Prop where
  nonempty : digits ≠ []
  decimal : ∀ digit ∈ digits, digit.isDigit = true
  value : Text.decimalValue digits = rank

/-- The decimal digits of a rank denote it. -/
theorem Denotes.toDigits (rank : Nat) : Denotes (Nat.toDigits 10 rank) rank := by
  refine ⟨Nat.toDigits_ne_nil, fun digit => Nat.isDigit_of_mem_toDigits (by decide) (by decide), ?_⟩
  have hvalue := Nat.ofDigitChars_ten_toDigits (n := rank)
  rw [Nat.ofDigitChars_eq_foldl] at hvalue
  rw [Text.decimalValue, Text.extendDecimal]
  simpa [Text.digitValue, Nat.mul_comm] using hvalue

namespace Segment

/-- What may follow a segment that starts with a rank: the end of the name, or a dollar sign and a rest
without line feed. -/
inductive Ends : (tail rest : List Char) → Prop where
  | last : Ends [] []
  | dollar {rest : List Char} (hline : '\n' ∉ rest) : Ends ('$' :: rest) rest

/-- No longer run of digits at the start of a segment leaves the name a character. -/
def Longest (digits start : List Char) : Prop :=
  ∀ longer shorter, longer ++ shorter = digits ++ start → shorter ≠ [] →
    (∀ digit ∈ longer, digit.isDigit = true) → longer.length ≤ digits.length

variable {name digits start tail rest : List Char}

/-- What follows a segment is what may end one. -/
theorem remainder?_eq_some_iff : remainder? tail = some rest ↔ Ends tail rest := by
  constructor
  · intro h
    cases tail with
    | nil =>
      cases h
      exact .last
    | cons c after =>
      rw [remainder?] at h
      by_cases hdollar : c = '$' ∧ '\n' ∉ after
      · rw [if_pos hdollar] at h
        cases h
        exact hdollar.1 ▸ .dollar hdollar.2
      · rw [if_neg hdollar] at h
        cases h
  · intro h
    cases h with
    | last => rfl
    | dollar hline => rw [remainder?, if_pos ⟨rfl, hline⟩]

/-- Reading up to what ends a segment stops there: a dollar sign is the first that can follow. -/
theorem Ends.takeWhile_append {p : Char → Bool} (hends : Ends tail rest) (hdollar : p '$' = false)
    (hdigits : ∀ digit ∈ digits, p digit = true) :
    (digits ++ tail).takeWhile p = digits ∧ (digits ++ tail).dropWhile p = tail := by
  rw [List.takeWhile_append_of_pos hdigits, List.dropWhile_append_of_pos hdigits]
  cases hends with
  | last => simp
  | dollar hline => simp [hdollar]

theorem Ends.of_dropWhile {p : Char → Bool} (h : remainder? (name.dropWhile p) = some rest) :
    ∃ tail, name = name.takeWhile p ++ tail ∧ Ends tail rest :=
  ⟨name.dropWhile p, List.takeWhile_append_dropWhile.symm, remainder?_eq_some_iff.mp h⟩

/-- An anonymous class is read from a name just when the name starts with its digits and a segment ends
after them. -/
theorem anonymous?_eq_some_iff :
    anonymous? name = some (digits, rest) ↔
      digits ≠ [] ∧ (∀ digit ∈ digits, digit.isDigit = true) ∧
      ∃ tail, name = digits ++ tail ∧ Ends tail rest := by
  unfold anonymous?
  constructor
  · intro h
    dsimp only at h
    split at h
    · cases h
    · rename_i hne
      obtain ⟨rest', hrest, heq⟩ := Option.map_eq_some_iff.mp h
      cases heq
      exact ⟨by simpa using hne, fun digit => List.mem_takeWhile_imp, Ends.of_dropWhile hrest⟩
  · rintro ⟨hne, hdigits, tail, rfl, hends⟩
    obtain ⟨htake, hdrop⟩ := hends.takeWhile_append (p := Char.isDigit) rfl hdigits
    have hempty : digits.isEmpty = false := by simpa using hne
    simp [htake, hdrop, hempty, remainder?_eq_some_iff.mpr hends]

theorem dollar_not_mem (hdigits : ∀ digit ∈ digits, digit.isDigit = true) : '$' ∉ digits := by
  intro hmem
  exact absurd (hdigits '$' hmem) (by decide)

/-- The longest run is what reading digits finds when the last character is set aside. -/
theorem longest_iff (hstart : start ≠ []) (hdigits : ∀ digit ∈ digits, digit.isDigit = true) :
    Longest digits start ↔ (digits ++ start).dropLast.takeWhile Char.isDigit = digits := by
  constructor
  · intro hlongest
    rw [List.dropLast_append_of_ne_nil hstart, List.takeWhile_append_of_pos hdigits]
    obtain ⟨hsplit, hne⟩ := Text.takeWhile_dropLast_split Char.isDigit hstart
    generalize hmore : start.dropLast.takeWhile Char.isDigit = more at hsplit hne ⊢
    have hall : ∀ digit ∈ digits ++ more, digit.isDigit = true := by
      intro digit hdigit
      obtain hdigit | hdigit := List.mem_append.mp hdigit
      · exact hdigits digit hdigit
      · exact List.mem_takeWhile_imp (hmore ▸ hdigit)
    have hle := hlongest (digits ++ more) _ (by rw [List.append_assoc, hsplit]) hne hall
    rw [List.length_append] at hle
    rw [List.eq_nil_of_length_eq_zero (by omega : more.length = 0), List.append_nil]
  · intro htake longer shorter heq hshorter hlonger
    rw [← heq, List.dropLast_append_of_ne_nil hshorter, List.takeWhile_append_of_pos hlonger] at htake
    rw [← htake, List.length_append]
    exact Nat.le_add_right _ _

/-- A start that begins with no digit leaves all digits to the rank. -/
theorem longest_of_head (hstart : start.head?.any Char.isDigit = false) : Longest digits start := by
  intro longer shorter heq hshorter hlonger
  by_contra hlt
  have hlength : digits.length ≤ longer.length := by omega
  obtain ⟨more, rfl⟩ : digits <+: longer := List.prefix_of_prefix_length_le
    (List.prefix_append digits start) (heq ▸ List.prefix_append longer shorter) hlength
  rw [List.append_assoc, List.append_cancel_left_eq] at heq
  cases more with
  | nil => simp at hlt
  | cons c more =>
    subst heq
    have hc := hlonger c (by simp)
    simp [hc] at hstart

/-- A local class is read from a name just when the name starts with digits and a start of a class name,
the digits as many as can be, and a segment ends after them. -/
theorem localClass?_eq_some_iff :
    localClass? name = some (digits, start, rest) ↔
      digits ≠ [] ∧ (∀ digit ∈ digits, digit.isDigit = true) ∧ start ≠ [] ∧ '$' ∉ start ∧
      Longest digits start ∧ ∃ tail, name = digits ++ start ++ tail ∧ Ends tail rest := by
  unfold localClass?
  constructor
  · intro h
    dsimp only at h
    split at h
    · cases h
    · rename_i hne
      obtain ⟨rest', hrest, heq⟩ := Option.map_eq_some_iff.mp h
      cases heq
      obtain ⟨tail, hname, hends⟩ := Ends.of_dropWhile hrest
      -- the part before the dollar sign, and the digits that start it with its last character set aside
      generalize hhead : name.takeWhile (fun c => decide (c ≠ '$')) = head at hname hne ⊢
      generalize hrun : head.dropLast.takeWhile Char.isDigit = run at hne ⊢
      have hrunNe : run ≠ [] := by simpa using hne
      have hheadNe : head ≠ [] := by
        rintro rfl
        exact hrunNe hrun.symm
      obtain ⟨hsplit, hstart⟩ := Text.takeWhile_dropLast_split Char.isDigit hheadNe
      rw [hrun] at hsplit hstart
      have hdigits : ∀ digit ∈ run, digit.isDigit = true := fun digit hdigit =>
        List.mem_takeWhile_imp (hrun ▸ hdigit)
      have hdollar : '$' ∉ head := fun hmem => by
        have himp := List.mem_takeWhile_imp (hhead ▸ hmem)
        simp at himp
      refine ⟨hrunNe, hdigits, hstart, fun hmem => hdollar (List.mem_of_mem_drop hmem), ?_, tail, ?_,
        hends⟩
      · rw [longest_iff hstart hdigits, hsplit, hrun]
      · rw [hsplit, hname]
  · rintro ⟨hne, hdigits, hstart, hdollar, hlongest, tail, rfl, hends⟩
    have hhead : ∀ c ∈ digits ++ start, decide (c ≠ '$') = true := by
      intro c hc
      rw [decide_eq_true_eq]
      rintro rfl
      obtain hmem | hmem := List.mem_append.mp hc
      · exact dollar_not_mem hdigits hmem
      · exact hdollar hmem
    obtain ⟨htake, hdrop⟩ := hends.takeWhile_append (by decide) hhead
    have hempty : digits.isEmpty = false := by simpa using hne
    simp only [htake, hdrop, (longest_iff hstart hdigits).mp hlongest, hempty,
      remainder?_eq_some_iff.mpr hends]
    simp

/-- Digits have a rank unless it needs more than 32 bits. -/
theorem rank_eq_ok_iff {wanted : Nat} :
    rank digits = .ok wanted ↔ Text.decimalValue digits = wanted ∧ wanted < UInt32.size := by
  unfold rank
  by_cases hfits : Text.decimalValue digits < UInt32.size
  · rw [if_pos hfits, Except.ok.injEq]
    constructor
    · rintro rfl
      exact ⟨rfl, hfits⟩
    · exact fun h => h.1
  · rw [if_neg hfits]
    constructor
    · intro h
      cases h
    · rintro ⟨rfl, h⟩
      exact absurd h hfits

end Segment

end Pinpoint
