import Mathlib.Data.List.TakeWhile
import Mathlib.Tactic.Common
import Pinpoint.Proofs.BinaryName.Grammar

namespace Pinpoint

namespace Text

/-- Digits behind a number do not make it smaller. -/
theorem le_extendDecimal (high : Nat) (digits : List Char) : high ≤ extendDecimal high digits := by
  induction digits generalizing high with
  | nil => exact Nat.le_refl high
  | cons digit digits ih =>
    have hstep : high ≤ high * 10 + digitValue digit := by omega
    exact Nat.le_trans hstep (ih _)

/-- More digits do not lower the value. -/
theorem decimalValue_le_append (digits more : List Char) :
    decimalValue digits ≤ decimalValue (digits ++ more) := by
  rw [decimalValue, decimalValue, extendDecimal, extendDecimal, List.foldl_append]
  exact le_extendDecimal _ more

/-- Further digits keep a number below its successor shifted by as many places. -/
theorem extendDecimal_lt {digits : List Char} (hdecimal : ∀ digit ∈ digits, digit.isDigit = true)
    (high : Nat) : extendDecimal high digits < (high + 1) * Nat.pow 10 digits.length := by
  induction digits generalizing high with
  | nil =>
    change high < (high + 1) * 1
    omega
  | cons digit digits ih =>
    obtain ⟨hdigit, hdigits⟩ := List.forall_mem_cons.mp hdecimal
    have hvalue : digitValue digit ≤ 9 := by
      have hle := (Char.isDigit_iff_toNat.mp hdigit).2
      have hnine : '9'.toNat = '0'.toNat + 9 := rfl
      rw [digitValue]
      omega
    calc extendDecimal high (digit :: digits)
        < (high * 10 + digitValue digit + 1) * Nat.pow 10 digits.length := ih hdigits _
      _ ≤ (high + 1) * 10 * Nat.pow 10 digits.length := Nat.mul_le_mul_right _ (by omega)
      _ = (high + 1) * (Nat.pow 10 digits.length * 10) := by rw [Nat.mul_assoc, Nat.mul_comm 10]

/-- Digits of a text before and behind which there are no further ones. -/
structure DigitRun (text digits : List Char) : Prop where
  decimal : ∀ digit ∈ digits, digit.isDigit = true
  splits : ∃ before after, text = before ++ digits ++ after ∧
    before.getLast?.any Char.isDigit = false ∧ after.head?.any Char.isDigit = false

end Text

namespace BinaryName

/-- A name in which no run of digits denotes a number of more than 32 bits. -/
def ShortRanks (name : List Char) : Prop :=
  ∀ digits, Text.DigitRun name digits → Text.decimalValue digits < UInt32.size

/-- Nine characters have no room for more than 32 bits. -/
theorem ShortRanks.of_length {name : List Char} (hlength : name.length ≤ 9) : ShortRanks name := by
  rintro digits ⟨hdecimal, before, after, rfl, -⟩
  have hvalue := Text.extendDecimal_lt hdecimal 0
  rw [List.length_append, List.length_append] at hlength
  have hpower : Nat.pow 10 digits.length ≤ Nat.pow 10 9 := Nat.pow_le_pow_right (by decide) (by omega)
  rw [Nat.zero_add, Nat.one_mul] at hvalue
  exact Nat.lt_trans (Nat.lt_of_lt_of_le hvalue hpower) (by decide)

/-- What may be left of a name: nothing, or all that comes after a part that does not end with a digit. -/
def LeftOf (name rest : List Char) : Prop :=
  rest = [] ∨ ∃ before, name = before ++ rest ∧ before.getLast?.any Char.isDigit = false

variable {name rest : List Char}

theorem LeftOf.self (name : List Char) : LeftOf name name := .inr ⟨[], rfl, rfl⟩

/-- After a separator the rest of a name may be left. -/
theorem LeftOf.after (hleft : LeftOf name rest) {front after : List Char} {separator : Char}
    (hrest : rest = front ++ separator :: after) (hseparator : separator.isDigit = false) :
    LeftOf name after := by
  obtain rfl | ⟨before, rfl, -⟩ := hleft
  · simp at hrest
  · exact .inr ⟨before ++ front ++ [separator], by simp [hrest], by simp [hseparator]⟩

/-- Behind the end of a segment, reading is behind a dollar sign. -/
theorem LeftOf.of_ends (hleft : LeftOf name rest) {front tail after : List Char}
    (hrest : rest = front ++ tail) (hends : Segment.Ends tail after) : LeftOf name after := by
  cases hends with
  | last => exact .inl rfl
  | dollar => exact hleft.after hrest rfl

/-- Digits at the start of what is left start a run of digits of the name. -/
theorem LeftOf.exists_run (hleft : LeftOf name rest) {digits after : List Char} (hdigits : digits ≠ [])
    (hdecimal : ∀ digit ∈ digits, digit.isDigit = true) (hrest : rest = digits ++ after) :
    ∃ more, Text.DigitRun name (digits ++ more) := by
  obtain rfl | ⟨before, rfl, hbefore⟩ := hleft
  · simp [hdigits] at hrest
  · -- the run goes on with all further digits
    refine ⟨after.takeWhile Char.isDigit, ?_, before, after.dropWhile Char.isDigit, ?_, hbefore, ?_⟩
    · intro digit hdigit
      obtain hdigit | hdigit := List.mem_append.mp hdigit
      · exact hdecimal digit hdigit
      · exact List.mem_takeWhile_imp hdigit
    · simp [hrest]
    · have hhead := List.head?_dropWhile_not Char.isDigit after
      cases hfirst : (after.dropWhile Char.isDigit).head? with
      | none => rfl
      | some c => simpa [hfirst] using hhead

/-- A rank that is read off the start of what is left of a name fits if all runs of digits do. -/
theorem LeftOf.rank_eq_ok (hleft : LeftOf name rest) (hshort : ShortRanks name) {digits after : List Char}
    (hdigits : digits ≠ []) (hdecimal : ∀ digit ∈ digits, digit.isDigit = true)
    (hrest : rest = digits ++ after) : ∃ rank, Segment.rank digits = .ok rank := by
  obtain ⟨more, hrun⟩ := hleft.exists_run hdigits hdecimal hrest
  have hfits := Nat.lt_of_le_of_lt (Text.decimalValue_le_append digits more) (hshort _ hrun)
  exact ⟨_, Segment.rank_eq_ok_iff.mpr ⟨rfl, hfits⟩⟩

/-- Reading that does not break off, and leaves what may be left of the name. -/
def Keeps (name : List Char) (result : Except RankOverflow Step) : Prop :=
  ∃ step, result = .ok step ∧ ∀ inside rest, step = .onward inside rest → LeftOf name rest

theorem keeps_decided (answer : Bool) : Keeps name (.ok (.decided answer)) :=
  ⟨_, rfl, fun _ _ hstep => nomatch hstep⟩

/-- What is left of a name, handed on as it is. -/
theorem LeftOf.keeps_onward (hleft : LeftOf name rest) (inside : Bool) :
    Keeps name (.ok (.onward inside rest)) := by
  refine ⟨_, rfl, ?_⟩
  rintro _ _ ⟨⟩
  exact hleft

section Reading

variable {ranks : RankIndex} {exact inside : Bool} {above : Option Kind} {node : Node} {id : NodeId}

/-- A package is taken off up to and including a dot. -/
theorem LeftOf.keeps_readUnit (hleft : LeftOf name rest) (package : Option String) :
    Keeps name (.ok (readUnit package inside rest)) := by
  cases package with
  | none => exact hleft.keeps_onward inside
  | some package =>
    rw [readUnit]
    cases hafter : Text.after? (package.toList ++ ['.']) rest with
    | none => exact keeps_decided false
    | some after =>
      rw [Text.after?_eq_some_iff, List.append_assoc, List.singleton_append] at hafter
      exact (hleft.after hafter rfl).keeps_onward inside

/-- A class name is taken off up to and including a separator. -/
theorem LeftOf.keeps_readMember (hleft : LeftOf name rest) (className : String) :
    Keeps name (.ok (readMember exact className inside rest)) := by
  rw [readMember]
  split
  · cases exact with
    | true => exact LeftOf.keeps_onward (.inl rfl) inside
    | false => exact keeps_decided true
  · split
    · rename_i separator after hafter
      rw [Text.after?_eq_some_iff] at hafter
      split
      · rename_i hseparator
        have hdigit : separator.isDigit = false := by rcases hseparator with rfl | rfl <;> rfl
        exact (hleft.after hafter hdigit).keeps_onward inside
      · exact keeps_decided false
    · exact keeps_decided false

/-- A rank that is read is compared, and reading goes on behind its segment or is over. -/
theorem keeps_rank {digits after : List Char} {wants : Nat → Prop} [DecidablePred wants]
    (hrank : ∃ rank, Segment.rank digits = .ok rank) (hafter : LeftOf name after) :
    Keeps name ((Segment.rank digits).map fun wanted =>
      if wants wanted then Step.onward inside after else .decided false) := by
  obtain ⟨rank, hrank⟩ := hrank
  rw [hrank, Except.map]
  split
  · exact hafter.keeps_onward inside
  · exact keeps_decided false

/-- If the digits of a name are short enough, reading an anonymous class does not break off. -/
theorem LeftOf.keeps_readAnonymous (hleft : LeftOf name rest) (hshort : ShortRanks name) :
    Keeps name (readAnonymous ranks id inside rest) := by
  rw [readAnonymous]
  cases hsegment : Segment.anonymous? rest with
  | none => exact keeps_decided false
  | some segment =>
    obtain ⟨digits, after⟩ := segment
    obtain ⟨hdigits, hdecimal, tail, hrest, hends⟩ := Segment.anonymous?_eq_some_iff.mp hsegment
    exact keeps_rank (hleft.rank_eq_ok hshort hdigits hdecimal hrest) (hleft.of_ends hrest hends)

/-- The same of a local class. -/
theorem LeftOf.keeps_readLocal (hleft : LeftOf name rest) (hshort : ShortRanks name) (className : String) :
    Keeps name (readLocal ranks id className inside rest) := by
  rw [readLocal]
  cases hsegment : Segment.localClass? rest with
  | none => exact keeps_decided false
  | some segment =>
    obtain ⟨digits, start, after⟩ := segment
    obtain ⟨hdigits, hdecimal, -, -, -, tail, hrest, hends⟩ :=
      Segment.localClass?_eq_some_iff.mp hsegment
    -- the rank may end before its run of digits does, so as to leave the class a name
    rw [List.append_assoc] at hrest
    have hrank := hleft.rank_eq_ok hshort hdigits hdecimal hrest
    rw [← List.append_assoc] at hrest
    exact keeps_rank hrank (hleft.of_ends hrest hends)

/-- One node is read without breaking off. -/
theorem LeftOf.keeps_readNode (hleft : LeftOf name rest) (hshort : ShortRanks name) :
    Keeps name (readNode ranks exact above inside rest node) := by
  cases hkind : node.kind with
  | unit package =>
    rw [readNode_unit (by rw [hkind, Kind.isUnit])]
    exact hleft.keeps_readUnit _
  | classDecl className flavor =>
    cases hbody : above.any Kind.isConstruction with
    | true =>
      rw [readNode_body (by rw [hkind, Kind.isClass]) hbody]
      exact hleft.keeps_onward inside
    | false =>
      by_cases hblock : above = some .block
      · rw [hblock, readNode_local hkind]
        exact hleft.keeps_readLocal hshort className
      · rw [readNode_class hkind hblock hbody]
        split
        · exact hleft.keeps_readAnonymous hshort
        · exact hleft.keeps_readMember className
  | construction body =>
    rw [readNode_construction hkind]
    split
    · exact hleft.keeps_onward true
    · split
      · exact hleft.keeps_readAnonymous hshort
      · exact hleft.keeps_onward inside
  | _ =>
    rw [readNode_plain (by simp [hkind, Kind.isUnit]) (by simp [hkind, Kind.isClass])
      (by simp [hkind, Kind.isConstruction])]
    split
    · exact keeps_decided false
    · exact hleft.keeps_onward inside

/-- The nodes of a path are read without breaking off. -/
theorem LeftOf.exists_walk (hleft : LeftOf name rest) (hshort : ShortRanks name) (nodes : List Node) :
    ∃ answer, walk ranks exact above inside rest nodes = .ok answer := by
  induction nodes generalizing above inside rest with
  | nil => exact ⟨_, rfl⟩
  | cons node below ih =>
    have hkeeps : Keeps name (readNode ranks exact above inside rest node) := hleft.keeps_readNode hshort
    obtain ⟨step, hstep, honward⟩ := hkeeps
    rw [walk, hstep]
    cases step with
    | decided answer => exact ⟨answer, rfl⟩
    | onward inside rest => exact ih (honward inside rest rfl)

/-- Whether a path leads into a class has an answer if the class's name has short ranks. -/
theorem ShortRanks.exists_covers {className : String} (hshort : ShortRanks className.toList) (path : Path) :
    ∃ answer, covers ranks exact className path = .ok answer :=
  (LeftOf.self _).exists_walk hshort path.nodes

end Reading

end BinaryName

end Pinpoint
