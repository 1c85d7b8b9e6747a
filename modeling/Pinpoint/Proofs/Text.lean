import Mathlib.Data.List.Basic
import Mathlib.Tactic.Common
import Pinpoint.Text

namespace Pinpoint

namespace Text

variable {front : List Char}

theorem forall_ne_iff {excluded : Char} {text : List Char} :
    (∀ c ∈ text, decide (c ≠ excluded) = true) ↔ excluded ∉ text := by
  simp only [decide_eq_true_eq]
  exact ⟨fun hne hmem => hne _ hmem rfl, fun hnot c hc heq => hnot (heq ▸ hc)⟩

/-- Taking characters stops before one that is not taken, whatever follows it. -/
theorem takeWhile_append_cons {p : Char → Bool} {c : Char} (hc : p c = false) (front rest : List Char) :
    (front ++ c :: rest).takeWhile p = front.takeWhile p ∧
      (front ++ c :: rest).dropWhile p = front.dropWhile p ++ c :: rest := by
  induction front with
  | nil => simp [hc]
  | cons first front ih =>
    cases hfirst : p first with
    | true => simpa [hfirst] using ih
    | false => simp [hfirst]

/-- Reading up to a character stops at its first occurrence. -/
theorem takeWhile_ne_append {mark : Char} (hfront : mark ∉ front) (rest : List Char) :
    (front ++ mark :: rest).takeWhile (· ≠ mark) = front := by
  rw [List.takeWhile_append_of_pos (forall_ne_iff.mpr hfront), List.takeWhile_cons_of_neg (by simp),
    List.append_nil]

/-- The position of a character is the length of what comes before it. -/
theorem idxOf?_append {mark : Char} {rest : List Char} (hfront : mark ∉ front) :
    (front ++ mark :: rest).idxOf? mark = some front.length := by
  induction front with
  | nil => simp [List.idxOf?_cons]
  | cons c front ih =>
    rw [List.mem_cons, not_or] at hfront
    have hc : (c == mark) = false := by simpa using Ne.symm hfront.1
    simp [List.idxOf?_cons, hc, ih hfront.2]

/-- A run that is read with the last character set aside leaves a rest. -/
theorem takeWhile_dropLast_split (p : Char → Bool) {text : List Char} (htext : text ≠ []) :
    text.dropLast.takeWhile p ++ text.drop (text.dropLast.takeWhile p).length = text ∧
      text.drop (text.dropLast.takeWhile p).length ≠ [] := by
  refine ⟨List.prefix_iff_eq_append.mp
    ((List.takeWhile_prefix p).trans (List.dropLast_prefix text)), ?_⟩
  have hle := (List.takeWhile_prefix (l := text.dropLast) p).length_le
  have hpos := List.length_pos_iff.mpr htext
  rw [List.length_dropLast] at hle
  rw [ne_eq, List.drop_eq_nil_iff]
  omega

/-- A word that a character is not in starts a text just where it starts what stands before the character. -/
theorem after?_append_cons {word : List Char} {c : Char} (hc : c ∉ word) (front rest : List Char) :
    after? word (front ++ c :: rest) = (after? word front).map (· ++ c :: rest) := by
  induction word generalizing front with
  | nil => rfl
  | cons w word ih =>
    obtain ⟨hne, hword⟩ := List.ne_and_not_mem_of_not_mem_cons hc
    cases front with
    | nil => simp [after?, hne.symm]
    | cons first front =>
      rw [List.cons_append, after?, after?]
      split
      · exact ih hword front
      · rfl

end Text

end Pinpoint
