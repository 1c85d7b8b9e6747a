import Mathlib.Data.Nat.Digits.Defs
import Pinpoint.Proofs.BinaryName.DigitRuns
import Pinpoint.Proofs.Pattern

namespace Pinpoint

namespace Text

/-- A number as one of 32 bits, if it fits. -/
def word? (value : Nat) : Option UInt32 :=
  if value < UInt32.size then some (UInt32.ofNat value) else none

/-- A digit behind a number of 32 bits. The number is shifted before the digit is added, and both have to fit. -/
def appendDigit? (word : UInt32) (digit : Char) : Option UInt32 :=
  (word? (word.toNat * 10)).bind fun tens => word? (tens.toNat + digitValue digit)

/-- The number of 32 bits that digits denote, read one by one. -/
def readWord? (digits : List Char) : Option UInt32 := digits.foldlM appendDigit? 0

variable {value : Nat} {word next final : UInt32} {digit : Char} {digits : List Char}

/-- A number is a word just when it has the value of one. -/
theorem word?_eq_some_iff : word? value = some word ↔ word.toNat = value := by
  rw [word?]
  constructor
  · intro h
    split at h
    · rename_i hfits
      cases h
      exact UInt32.toNat_ofNat_of_lt' hfits
    · cases h
  · rintro rfl
    rw [if_pos word.toNat_lt, UInt32.ofNat_toNat]

theorem exists_toNat_eq (hfits : value < UInt32.size) : ∃ word : UInt32, word.toNat = value :=
  ⟨UInt32.ofNat value, UInt32.toNat_ofNat_of_lt' hfits⟩

/-- The shifted number fits if the digit does behind it. -/
theorem appendDigit?_eq_some_iff :
    appendDigit? word digit = some next ↔ next.toNat = word.toNat * 10 + digitValue digit := by
  rw [appendDigit?, Option.bind_eq_some_iff]
  constructor
  · rintro ⟨tens, htens, hnext⟩
    rw [word?_eq_some_iff] at htens hnext
    rw [hnext, htens]
  · intro hnext
    have hfits : word.toNat * 10 < UInt32.size := by
      have hlt : next.toNat < UInt32.size := next.toNat_lt
      omega
    obtain ⟨tens, htens⟩ := exists_toNat_eq hfits
    exact ⟨tens, word?_eq_some_iff.mpr htens, word?_eq_some_iff.mpr (by rw [hnext, htens])⟩

/-- Digits are read behind a number just when what they denote there fits: it is no less than any number on the
way. -/
theorem foldlM_appendDigit?_eq_some_iff :
    digits.foldlM appendDigit? word = some final ↔ final.toNat = extendDecimal word.toNat digits := by
  induction digits generalizing word with
  | nil =>
    rw [List.foldlM_nil, Option.pure_def, Option.some.injEq, eq_comm, ← UInt32.toNat_inj]
    rfl
  | cons digit digits ih =>
    have hextend : extendDecimal word.toNat (digit :: digits) =
        extendDecimal (word.toNat * 10 + digitValue digit) digits := rfl
    rw [List.foldlM_cons, Option.bind_eq_bind, Option.bind_eq_some_iff, hextend]
    constructor
    · rintro ⟨next, hnext, hfinal⟩
      rw [ih.mp hfinal, appendDigit?_eq_some_iff.mp hnext]
    · intro hfinal
      have hfits : word.toNat * 10 + digitValue digit < UInt32.size := by
        have hle := le_extendDecimal (word.toNat * 10 + digitValue digit) digits
        have hlt : final.toNat < UInt32.size := final.toNat_lt
        omega
      obtain ⟨next, hnext⟩ := exists_toNat_eq hfits
      exact ⟨next, appendDigit?_eq_some_iff.mpr hnext, ih.mpr (hnext ▸ hfinal)⟩

/-- Digits are read into the word that has their value. -/
theorem readWord?_eq_some_iff : readWord? digits = some word ↔ word.toNat = decimalValue digits :=
  foldlM_appendDigit?_eq_some_iff

/-- Digits are read just when their value fits into 32 bits. -/
theorem exists_readWord?_iff :
    (∃ word, readWord? digits = some word) ↔ decimalValue digits < UInt32.size := by
  simp only [readWord?_eq_some_iff]
  refine ⟨?_, exists_toNat_eq⟩
  rintro ⟨word, hword⟩
  exact hword ▸ word.toNat_lt

/-- The value of digits is what they denote to the base ten, the last digit counting least. -/
theorem decimalValue_eq_ofDigits (digits : List Char) :
    decimalValue digits = Nat.ofDigits 10 (digits.reverse.map digitValue) := by
  rw [Nat.ofDigits_eq_foldr, List.map_reverse, List.foldr_reverse, List.foldl_map, decimalValue, extendDecimal]
  congr 1
  funext high digit
  rw [Nat.cast_id, Nat.add_comm, Nat.mul_comm]

/-- Leading zeros count for nothing. -/
theorem decimalValue_zeros_append (zeros : Nat) (digits : List Char) :
    decimalValue (List.replicate zeros '0' ++ digits) = decimalValue digits := by
  induction zeros with
  | zero => rfl
  | succ zeros ih =>
    rw [List.replicate_succ, List.cons_append]
    exact ih

end Text

namespace Segment

open Pattern (Groups groupText)

/-- The part of a name before its first dollar sign. -/
def front (name : List Char) : List Char := name.takeWhile (· ≠ '$')

/-- The part of a name behind its first dollar sign. -/
def back (name : List Char) : List Char := (name.dropWhile (· ≠ '$')).tail

/-- The longest run of digits at the start of a text that is not longer than `limit`. -/
structure LeadingDigits (text : List Char) (limit : Nat) (digits : List Char) : Prop where
  leads : digits <+: text
  decimal : ∀ digit ∈ digits, digit.isDigit = true
  length_le : digits.length ≤ limit
  longest : ∀ others, others <+: text → (∀ digit ∈ others, digit.isDigit = true) → others.length ≤ limit →
    others.length ≤ digits.length

/-- What may stand behind a segment, `(\$(.*))?$`. -/
def endPattern : Pattern :=
  .seq (.optional (.group (.seq (.char '$') (.group (.run (· ≠ '\n') 0))))) .stop

/-- The segment of an anonymous class, `^([0-9]+)(\$(.*))?$`. -/
def anonymousPattern : Pattern := .seq .start (.seq (.group (.run Char.isDigit 1)) endPattern)

/-- The start of a class name and what may stand behind it, `([^$]+)(\$(.*))?$`. -/
def startPattern : Pattern := .seq (.group (.run (· ≠ '$') 1)) endPattern

/-- The segment of a local class, `^([0-9]+)([^$]+)(\$(.*))?$`. -/
def localPattern : Pattern := .seq .start (.seq (.group (.run Char.isDigit 1)) startPattern)

/-- A name divided into the digits and the name of a local class and what stands behind them. -/
structure DividesLocal (name digits start tail rest : List Char) : Prop where
  name_eq : name = digits ++ start ++ tail
  digits_ne : digits ≠ []
  decimal : ∀ digit ∈ digits, digit.isDigit = true
  start_ne : start ≠ []
  start_dollar : '$' ∉ start
  ends : Ends tail rest

/-- The groups of what stands behind a segment. -/
def endGroups : List Char → Groups
  | [] => [none, none]
  | c :: rest => [some (c :: rest), some rest]

variable {name head digits start tail rest before taken after : List Char} {groups : Groups}

/-- A name without line feed behind its first dollar sign splits there in one way. -/
theorem split_iff : ('$' ∉ head ∧ ∃ tail, name = head ++ tail ∧ Ends tail rest) ↔
    head = front name ∧ rest = back name ∧ '\n' ∉ back name := by
  constructor
  · rintro ⟨hdollar, tail, rfl, hends⟩
    obtain ⟨htake, hdrop⟩ := hends.takeWhile_append (by decide) (Text.forall_ne_iff.mpr hdollar)
    rw [front, back, htake, hdrop]
    cases hends with
    | last => exact ⟨rfl, rfl, List.not_mem_nil⟩
    | dollar hline => exact ⟨rfl, rfl, hline⟩
  · rintro ⟨rfl, rfl, hline⟩
    refine ⟨Text.forall_ne_iff.mp fun c => List.mem_takeWhile_imp, name.dropWhile (· ≠ '$'),
      List.takeWhile_append_dropWhile.symm, ?_⟩
    rw [back] at hline ⊢
    have hhead := List.head?_dropWhile_not (fun c => decide (c ≠ '$')) name
    cases hdrop : name.dropWhile (fun c => decide (c ≠ '$')) with
    | nil => exact .last
    | cons c after =>
      rw [hdrop] at hhead hline
      obtain rfl : c = '$' := by simpa using hhead
      exact .dollar hline

/-- The group at the end of a segment holds the rest of the name. -/
theorem groupText_endGroups (hends : Ends tail rest) : groupText (endGroups tail) 1 = rest := by
  cases hends with
  | last => rfl
  | dollar => rfl

/-- The end of a segment matches what ends one, up to the end of the text. -/
theorem matches_end_iff : endPattern.Matches before taken after groups ↔
    after = [] ∧ (∃ rest, Ends taken rest) ∧ groups = endGroups taken := by
  constructor
  · intro hmatches
    cases hmatches with
    | seq hoptional hstop =>
      cases hstop
      rw [List.append_nil, List.append_nil]
      cases hoptional with
      | skip => exact ⟨rfl, ⟨[], .last⟩, rfl⟩
      | take hbody =>
        cases hbody with
        | group hinner =>
          cases hinner with
          | @seq _ _ _ _ rest _ _ _ hchar hrest =>
            cases hchar
            obtain ⟨hline, -, rfl⟩ := hrest.of_group_run
            exact ⟨rfl, ⟨rest, .dollar (Text.forall_ne_iff.mp hline)⟩, rfl⟩
  · rintro ⟨rfl, ⟨rest, hends⟩, rfl⟩
    rw [← List.append_nil taken, ← List.append_nil (endGroups _)]
    refine .seq ?_ .stop
    rw [List.append_nil, List.append_nil]
    cases hends with
    | last => exact .skip
    | dollar hline =>
      exact .take (.group (.seq .char (.group (.run (Text.forall_ne_iff.mpr hline) (Nat.zero_le _)))))

/-- It matches in one way only. -/
theorem determinate_end : endPattern.Determinate := by
  intro before taken after groups taken' after' groups' htext hmatches hmatches'
  obtain ⟨rfl, -, rfl⟩ := matches_end_iff.mp hmatches
  obtain ⟨rfl, -, rfl⟩ := matches_end_iff.mp hmatches'
  rw [List.append_nil, List.append_nil] at htext
  exact ⟨htext, congrArg endGroups htext⟩

/-- The pattern behind the digits of a local class matches a start without dollar sign and what ends a segment. -/
theorem matches_start_iff : startPattern.Matches before taken after groups ↔
    after = [] ∧ ∃ start tail rest, taken = start ++ tail ∧ start ≠ [] ∧ '$' ∉ start ∧ Ends tail rest ∧
      groups = some start :: endGroups tail := by
  constructor
  · intro hmatches
    cases hmatches with
    | @seq _ _ _ start tail _ _ _ hstart hend =>
      obtain ⟨rfl, ⟨rest, hends⟩, rfl⟩ := matches_end_iff.mp hend
      obtain ⟨hdollar, hleast, rfl⟩ := hstart.of_group_run
      exact ⟨rfl, start, tail, rest, rfl, List.length_pos_iff.mp hleast, Text.forall_ne_iff.mp hdollar, hends, rfl⟩
  · rintro ⟨rfl, start, tail, rest, rfl, hne, hdollar, hends, rfl⟩
    exact .seq (.group (.run (Text.forall_ne_iff.mpr hdollar) (List.length_pos_iff.mpr hne)))
      (matches_end_iff.mpr ⟨rfl, ⟨rest, hends⟩, rfl⟩)

/-- The start of a class name is all that stands before the dollar sign. -/
theorem determinate_start : startPattern.Determinate := by
  intro before taken after groups taken' after' groups' htext hmatches hmatches'
  obtain ⟨rfl, start, tail, rest, rfl, -, hdollar, hends, rfl⟩ := matches_start_iff.mp hmatches
  obtain ⟨rfl, start', tail', rest', rfl, -, hdollar', hends', rfl⟩ := matches_start_iff.mp hmatches'
  rw [List.append_nil, List.append_nil] at htext
  obtain ⟨hfront, -⟩ := split_iff.mp ⟨hdollar, tail, rfl, hends⟩
  obtain ⟨hfront', -⟩ := split_iff.mp ⟨hdollar', tail', rfl, hends'⟩
  obtain rfl : start = start' := by rw [hfront, hfront', htext]
  obtain rfl := List.append_cancel_left htext
  exact ⟨rfl, rfl⟩

/-- The pattern of anonymous classes accepts digits before what ends a segment, and captures both. -/
theorem accepts_anonymous_iff : anonymousPattern.Accepts name groups ↔
    ∃ digits tail rest, name = digits ++ tail ∧ digits ≠ [] ∧ (∀ digit ∈ digits, digit.isDigit = true) ∧
      Ends tail rest ∧ groups = some name :: some digits :: endGroups tail := by
  rw [anonymousPattern, Pattern.accepts_led_iff]
  constructor
  · rintro ⟨digits, tail, after, inner, rfl, hdecimal, hleast, hend, rfl⟩
    obtain ⟨rfl, ⟨rest, hends⟩, rfl⟩ := matches_end_iff.mp hend
    rw [List.append_nil]
    exact ⟨digits, tail, rest, rfl, List.length_pos_iff.mp hleast, hdecimal, hends, rfl⟩
  · rintro ⟨digits, tail, rest, rfl, hne, hdecimal, hends, rfl⟩
    exact ⟨digits, tail, [], endGroups tail, by rw [List.append_nil], hdecimal, List.length_pos_iff.mpr hne,
      matches_end_iff.mpr ⟨rfl, ⟨rest, hends⟩, rfl⟩, rfl⟩

/-- The pattern of local classes accepts the names that divide into digits, a start and what ends a segment, and
captures all three. -/
theorem accepts_local_iff : localPattern.Accepts name groups ↔
    ∃ digits start tail rest, DividesLocal name digits start tail rest ∧
      groups = some name :: some digits :: some start :: endGroups tail := by
  rw [localPattern, Pattern.accepts_led_iff]
  constructor
  · rintro ⟨digits, taken, after, inner, rfl, hdecimal, hleast, hend, rfl⟩
    obtain ⟨rfl, start, tail, rest, rfl, hstart, hdollar, hends, rfl⟩ := matches_start_iff.mp hend
    rw [List.append_nil, ← List.append_assoc]
    exact ⟨digits, start, tail, rest, ⟨rfl, List.length_pos_iff.mp hleast, hdecimal, hstart, hdollar, hends⟩, rfl⟩
  · rintro ⟨digits, start, tail, rest, ⟨rfl, hne, hdecimal, hstart, hdollar, hends⟩, rfl⟩
    refine ⟨digits, start ++ tail, [], some start :: endGroups tail, by simp, hdecimal,
      List.length_pos_iff.mpr hne, ?_, by simp⟩
    exact matches_start_iff.mpr ⟨rfl, start, tail, rest, rfl, hstart, hdollar, hends, rfl⟩

/-- An anonymous class is read from all of a name's front, which is digits. -/
theorem anonymous?_eq_some_iff_front : anonymous? name = some (digits, rest) ↔
    front name ≠ [] ∧ (∀ digit ∈ front name, digit.isDigit = true) ∧ '\n' ∉ back name ∧ digits = front name ∧
      rest = back name := by
  rw [anonymous?_eq_some_iff]
  constructor
  · rintro ⟨hne, hdecimal, hsplit⟩
    obtain ⟨rfl, rfl, hline⟩ := split_iff.mp ⟨dollar_not_mem hdecimal, hsplit⟩
    exact ⟨hne, hdecimal, hline, rfl, rfl⟩
  · rintro ⟨hne, hdecimal, hline, rfl, rfl⟩
    exact ⟨hne, hdecimal, (split_iff.mpr ⟨rfl, rfl, hline⟩).2⟩

/-- The segment of an anonymous class is read off what the pattern captures. -/
theorem anonymous?_of_accepts (haccepts : anonymousPattern.Accepts name groups) :
    anonymous? name = some (groupText groups 1, groupText groups 3) := by
  obtain ⟨digits, tail, rest, hname, hne, hdecimal, hends, rfl⟩ := accepts_anonymous_iff.mp haccepts
  exact anonymous?_eq_some_iff.mpr ⟨hne, hdecimal, tail, hname, (groupText_endGroups hends).symm ▸ hends⟩

/-- There is one match at most, so it is the preferred one. -/
theorem anonymous?_eq_some_iff_preferred {segment : List Char × List Char} :
    anonymous? name = some segment ↔
      ∃ groups, anonymousPattern.Preferred name groups ∧ (groupText groups 1, groupText groups 3) = segment := by
  constructor
  · intro hread
    obtain ⟨hne, hdecimal, tail, hname, hends⟩ := anonymous?_eq_some_iff.mp hread
    have haccepts := accepts_anonymous_iff.mpr ⟨_, tail, _, hname, hne, hdecimal, hends, rfl⟩
    refine ⟨_, ⟨haccepts, fun others hothers => ?_⟩, ?_⟩
    · have hsame := (anonymous?_of_accepts hothers).symm.trans (anonymous?_of_accepts haccepts)
      rw [Option.some.injEq, Prod.mk.injEq] at hsame
      exact Nat.le_of_eq (congrArg List.length hsame.1)
    · exact Option.some.inj ((anonymous?_of_accepts haccepts).symm.trans hread)
  · rintro ⟨groups, hpreferred, rfl⟩
    exact anonymous?_of_accepts hpreferred.accepts

/-- A name starts with the segment of an anonymous class just when there is nothing but digits before its first
dollar sign, and no line feed behind it. -/
theorem exists_accepts_anonymous_iff : (∃ groups, anonymousPattern.Accepts name groups) ↔
    front name ≠ [] ∧ (∀ digit ∈ front name, digit.isDigit = true) ∧ '\n' ∉ back name := by
  constructor
  · rintro ⟨groups, haccepts⟩
    obtain ⟨hne, hdecimal, hline, -⟩ := anonymous?_eq_some_iff_front.mp (anonymous?_of_accepts haccepts)
    exact ⟨hne, hdecimal, hline⟩
  · rintro ⟨hne, hdecimal, hline⟩
    have hread := anonymous?_eq_some_iff_front.mpr ⟨hne, hdecimal, hline, rfl, rfl⟩
    obtain ⟨groups, hpreferred, -⟩ := anonymous?_eq_some_iff_preferred.mp hread
    exact ⟨groups, hpreferred.accepts⟩

/-- The reader of local classes gives the division with the most digits. -/
theorem localClass?_eq_some_iff_divides : localClass? name = some (digits, start, rest) ↔
    Longest digits start ∧ ∃ tail, DividesLocal name digits start tail rest := by
  rw [localClass?_eq_some_iff]
  constructor
  · rintro ⟨hne, hdecimal, hstart, hdollar, hlongest, tail, hname, hends⟩
    exact ⟨hlongest, tail, hname, hne, hdecimal, hstart, hdollar, hends⟩
  · rintro ⟨hlongest, tail, hname, hne, hdecimal, hstart, hdollar, hends⟩
    exact ⟨hne, hdecimal, hstart, hdollar, hlongest, tail, hname, hends⟩

theorem DividesLocal.dollar_not_mem (hdivides : DividesLocal name digits start tail rest) :
    '$' ∉ digits ++ start := by
  rw [List.mem_append]
  rintro (hmem | hmem)
  · exact Segment.dollar_not_mem hdivides.decimal hmem
  · exact hdivides.start_dollar hmem

/-- Digits and the start of a class name make up the front of a name. -/
theorem DividesLocal.front_eq (hdivides : DividesLocal name digits start tail rest) :
    digits ++ start = front name ∧ rest = back name ∧ '\n' ∉ back name :=
  split_iff.mp ⟨hdivides.dollar_not_mem, tail, hdivides.name_eq, hdivides.ends⟩

/-- A match has the most digits just when no more of them leave the class name a character. -/
theorem DividesLocal.preferred_iff (hdivides : DividesLocal name digits start tail rest) :
    localPattern.Preferred name (some name :: some digits :: some start :: endGroups tail) ↔
      Longest digits start := by
  constructor
  · rintro ⟨-, hlongest⟩ longer shorter heq hshorter hlonger
    by_cases hempty : longer = []
    · simp [hempty]
    · -- more digits would give another match
      have hdollar : '$' ∉ shorter := by
        have hnot := hdivides.dollar_not_mem
        rw [← heq] at hnot
        exact fun hmem => hnot (List.mem_append_right _ hmem)
      have hdivides' : DividesLocal name longer shorter tail rest :=
        ⟨heq ▸ hdivides.name_eq, hempty, hlonger, hshorter, hdollar, hdivides.ends⟩
      exact hlongest _ (accepts_local_iff.mpr ⟨longer, shorter, tail, rest, hdivides', rfl⟩)
  · intro hlongest
    refine ⟨accepts_local_iff.mpr ⟨digits, start, tail, rest, hdivides, rfl⟩, fun others hothers => ?_⟩
    obtain ⟨digits', start', tail', rest', hdivides', rfl⟩ := accepts_local_iff.mp hothers
    have hfront := hdivides'.front_eq.1.trans hdivides.front_eq.1.symm
    exact hlongest digits' start' hfront hdivides'.start_ne hdivides'.decimal

/-- The reader of local classes gives what the preferred match captures. -/
theorem localClass?_eq_some_iff_preferred {segment : List Char × List Char × List Char} :
    localClass? name = some segment ↔ ∃ groups, localPattern.Preferred name groups ∧
      (groupText groups 1, groupText groups 2, groupText groups 4) = segment := by
  obtain ⟨digits, start, rest⟩ := segment
  rw [localClass?_eq_some_iff_divides]
  constructor
  · rintro ⟨hlongest, tail, hdivides⟩
    have hrest : groupText (some name :: some digits :: some start :: endGroups tail) 4 = rest :=
      groupText_endGroups hdivides.ends
    refine ⟨_, hdivides.preferred_iff.mpr hlongest, ?_⟩
    rw [hrest]
    rfl
  · rintro ⟨groups, hpreferred, htexts⟩
    obtain ⟨digits', start', tail, rest', hdivides, rfl⟩ := accepts_local_iff.mp hpreferred.accepts
    have hrest : groupText (some name :: some digits' :: some start' :: endGroups tail) 4 = rest' :=
      groupText_endGroups hdivides.ends
    rw [hrest] at htexts
    cases htexts
    exact ⟨hdivides.preferred_iff.mp hpreferred, tail, hdivides⟩

/-- The digits of the division with the most of them are all that lead the part before the dollar sign, but for
its last character. -/
theorem DividesLocal.leadingDigits (hdivides : DividesLocal name digits start tail rest)
    (hlongest : Longest digits start) :
    LeadingDigits (digits ++ start) ((digits ++ start).length - 1) digits := by
  have hpos := List.length_pos_iff.mpr hdivides.start_ne
  refine ⟨List.prefix_append digits start, hdivides.decimal, by rw [List.length_append]; omega, ?_⟩
  rintro others ⟨shorter, heq⟩ hothers hle
  refine hlongest others shorter heq ?_ hothers
  rintro rfl
  rw [← heq, List.append_nil] at hle
  have hlength := congrArg List.length heq
  rw [List.append_nil, List.length_append] at hlength
  omega

/-- A name starts with the segment of a local class just when there is a digit and more before its first dollar
sign, and no line feed behind it. -/
theorem exists_accepts_local_iff : (∃ groups, localPattern.Accepts name groups) ↔
    2 ≤ (front name).length ∧ (front name).head?.any Char.isDigit = true ∧ '\n' ∉ back name := by
  constructor
  · rintro ⟨groups, haccepts⟩
    obtain ⟨digits, start, tail, rest, hdivides, -⟩ := accepts_local_iff.mp haccepts
    obtain ⟨hfront, -, hline⟩ := hdivides.front_eq
    obtain ⟨first, digits, rfl⟩ := List.exists_cons_of_ne_nil hdivides.digits_ne
    refine ⟨?_, ?_, hline⟩
    · have hpos := List.length_pos_iff.mpr hdivides.start_ne
      rw [← hfront, List.length_append, List.length_cons]
      omega
    · rw [← hfront]
      exact hdivides.decimal first List.mem_cons_self
  · rintro ⟨hlength, hhead, hline⟩
    obtain ⟨hdollar, tail, hname, hends⟩ := split_iff.mpr ⟨rfl, rfl, hline⟩
    -- one digit is enough
    obtain ⟨first, start, hfront⟩ := List.exists_cons_of_length_pos (Nat.lt_of_lt_of_le (by decide) hlength)
    rw [hfront] at hlength hhead hdollar hname
    have hfirst : ∀ digit ∈ [first], digit.isDigit = true := by simpa using hhead
    refine ⟨_, accepts_local_iff.mpr ⟨[first], start, tail, _, ⟨hname, by simp, hfirst, ?_, ?_, hends⟩, rfl⟩⟩
    · rintro rfl
      simp at hlength
    · exact fun hmem => hdollar (List.mem_cons_of_mem _ hmem)

/-- A search for the pattern of anonymous classes comes to what their reader reads. -/
theorem readBy_anonymous :
    anonymousPattern.ReadBy anonymous? fun groups => (groupText groups 1, groupText groups 3) :=
  Pattern.readBy_of_preferred determinate_end fun _ _ => anonymous?_eq_some_iff_preferred

/-- A search for the pattern of local classes comes to what their reader reads. -/
theorem readBy_local :
    localPattern.ReadBy localClass? fun groups => (groupText groups 1, groupText groups 2, groupText groups 4) :=
  Pattern.readBy_of_preferred determinate_start fun _ _ => localClass?_eq_some_iff_preferred

theorem LeadingDigits.unique {text digits' : List Char} {limit : Nat} (hleading : LeadingDigits text limit digits)
    (hleading' : LeadingDigits text limit digits') : digits = digits' := by
  have hle := hleading'.longest digits hleading.leads hleading.decimal hleading.length_le
  have hge := hleading.longest digits' hleading'.leads hleading'.decimal hleading'.length_le
  exact (List.prefix_of_prefix_length_le hleading.leads hleading'.leads hle).eq_of_length (Nat.le_antisymm hle hge)

/-- What is read of a local class can be read off the parts of the name before and behind its first dollar sign. -/
theorem front_of_localClass? (hread : localClass? name = some (digits, start, rest)) :
    LeadingDigits (front name) ((front name).length - 1) digits ∧ digits ++ start = front name ∧
      rest = back name := by
  obtain ⟨hlongest, tail, hdivides⟩ := localClass?_eq_some_iff_divides.mp hread
  obtain ⟨hfront, hback, -⟩ := hdivides.front_eq
  exact ⟨hfront ▸ hdivides.leadingDigits hlongest, hfront, hback⟩

/-- A local class is read from all of a name's front; the digits end before its last character. -/
theorem localClass?_eq_some_iff_front : localClass? name = some (digits, start, rest) ↔
    2 ≤ (front name).length ∧ (front name).head?.any Char.isDigit = true ∧ '\n' ∉ back name ∧
      LeadingDigits (front name) ((front name).length - 1) digits ∧ digits ++ start = front name ∧
      rest = back name := by
  constructor
  · intro hread
    have haccepts := (readBy_local.isSome_iff name).mp (by rw [hread, Option.isSome_some])
    obtain ⟨hlength, hhead, hline⟩ := exists_accepts_local_iff.mp haccepts
    exact ⟨hlength, hhead, hline, front_of_localClass? hread⟩
  · rintro ⟨hlength, hhead, hline, hleading, hfront, rfl⟩
    have hsome := (readBy_local.isSome_iff name).mpr (exists_accepts_local_iff.mpr ⟨hlength, hhead, hline⟩)
    obtain ⟨⟨digits', start', rest'⟩, hread⟩ := Option.isSome_iff_exists.mp hsome
    obtain ⟨hleading', hfront', rfl⟩ := front_of_localClass? hread
    obtain rfl := hleading.unique hleading'
    obtain rfl := List.append_cancel_left (hfront.trans hfront'.symm)
    exact hread

/-- A rank is what its digits come to in 32 bits. -/
theorem rank_eq_elim (digits : List Char) :
    rank digits = (Text.readWord? digits).elim (.error ⟨String.ofList digits⟩) fun word => .ok word.toNat := by
  rw [rank]
  split
  · rename_i hfits
    obtain ⟨word, hword⟩ := Text.exists_readWord?_iff.mpr hfits
    rw [hword, Option.elim_some, Text.readWord?_eq_some_iff.mp hword]
  · rename_i hfits
    rw [← Text.exists_readWord?_iff, ← Option.isSome_iff_exists, Option.not_isSome_iff_eq_none] at hfits
    rw [hfits, Option.elim_none]

end Segment

namespace BinaryName

open Pattern (Groups groupText)

/-- Reads the part of a class by a pattern whose first group is the digits of a rank. Reading goes on with the last
group if the class has that rank and whatever else the groups ask for. -/
def readGroups (pattern : Pattern) (last : Nat) (admits : Groups → Nat → Bool) (inside : Bool)
    (name : List Char) : Except RankOverflow Step :=
  match pattern.captures? name with
  | none => .ok (.decided false)
  | some groups =>
    match Text.readWord? (groupText groups 1) with
    | none => .error ⟨String.ofList (groupText groups 1)⟩
    | some wanted =>
      if admits groups wanted.toNat then .ok (.onward inside (groupText groups last)) else .ok (.decided false)

variable {ranks : RankIndex} {id : NodeId} {inside : Bool} {name : List Char}

/-- Reading by a pattern, with the rank in place of the word that the digits are read into. -/
theorem readGroups_eq_elim (pattern : Pattern) (last : Nat) (admits : Groups → Nat → Bool) :
    readGroups pattern last admits inside name =
      (pattern.captures? name).elim (.ok (.decided false)) fun groups =>
        (Segment.rank (groupText groups 1)).map fun wanted =>
          if admits groups wanted then Step.onward inside (groupText groups last) else .decided false := by
  rw [readGroups]
  cases pattern.captures? name with
  | none => rfl
  | some groups =>
    simp only [Option.elim_some, Segment.rank_eq_elim]
    cases Text.readWord? (groupText groups 1) with
    | none => rfl
    | some wanted => simp only [Option.elim_some, Except.map, apply_ite Except.ok]

/-- Reading the part of an anonymous class is searching for its pattern and comparing what is captured. -/
theorem readAnonymous_eq_readGroups : readAnonymous ranks id inside name =
    readGroups Segment.anonymousPattern 3 (fun _ wanted => ranks.rank? id .anonymous = some wanted) inside name := by
  rw [readAnonymous, readGroups_eq_elim, Segment.readBy_anonymous.eq_captures]
  simp only [decide_eq_true_eq]
  cases Segment.anonymousPattern.captures? name with
  | none => rfl
  | some groups => rfl

/-- Reading the part of a local class is searching for its pattern and comparing what is captured. -/
theorem readLocal_eq_readGroups {className : String} : readLocal ranks id className inside name =
    readGroups Segment.localPattern 4 (fun groups wanted =>
      ranks.rank? id .localClass = some wanted ∧ (groupText groups 2).isPrefixOf className.toList) inside name := by
  rw [readLocal, readGroups_eq_elim, Segment.readBy_local.eq_captures]
  simp only [decide_eq_true_eq]
  cases Segment.localPattern.captures? name with
  | none => rfl
  | some groups => rfl

/-- The segments of class names and the patterns that they are written by. A name holds the segment of an anonymous
class if its front is digits, and that of a local class if its front starts with a digit and goes on, and in both
cases there is no line feed in its back; the rank of a local class has all the digits that the front starts with,
but not its last character. The readers come to the groups that a search for the patterns finds, those of the match
with the longest first group. A rank is what its digits, read one by one, come to in 32 bits, and that they do just
when their value is small enough, however many zeros are in front. So the parts of anonymous and local classes are
read as the groups of the patterns say. -/
theorem segments_follow_patterns :
    (∀ name, (∃ groups, Segment.anonymousPattern.Accepts name groups) ↔
      Segment.front name ≠ [] ∧ (∀ digit ∈ Segment.front name, digit.isDigit = true) ∧
      '\n' ∉ Segment.back name) ∧
    (∀ name digits rest, Segment.anonymous? name = some (digits, rest) ↔
      Segment.front name ≠ [] ∧ (∀ digit ∈ Segment.front name, digit.isDigit = true) ∧
      '\n' ∉ Segment.back name ∧ digits = Segment.front name ∧ rest = Segment.back name) ∧
    Segment.anonymousPattern.ReadBy Segment.anonymous? (fun groups => (groupText groups 1, groupText groups 3)) ∧
    (∀ name, (∃ groups, Segment.localPattern.Accepts name groups) ↔
      2 ≤ (Segment.front name).length ∧ (Segment.front name).head?.any Char.isDigit = true ∧
      '\n' ∉ Segment.back name) ∧
    (∀ name digits start rest, Segment.localClass? name = some (digits, start, rest) ↔
      2 ≤ (Segment.front name).length ∧ (Segment.front name).head?.any Char.isDigit = true ∧
      '\n' ∉ Segment.back name ∧
      Segment.LeadingDigits (Segment.front name) ((Segment.front name).length - 1) digits ∧
      digits ++ start = Segment.front name ∧ rest = Segment.back name) ∧
    Segment.localPattern.ReadBy Segment.localClass?
      (fun groups => (groupText groups 1, groupText groups 2, groupText groups 4)) ∧
    (∀ zeros digits, ((∃ word, Text.readWord? (List.replicate zeros '0' ++ digits) = some word) ↔
        Nat.ofDigits 10 (digits.reverse.map Text.digitValue) < UInt32.size) ∧
      ∀ word, Text.readWord? (List.replicate zeros '0' ++ digits) = some word ↔
        word.toNat = Nat.ofDigits 10 (digits.reverse.map Text.digitValue)) ∧
    (∀ digits, Segment.rank digits =
      (Text.readWord? digits).elim (.error ⟨String.ofList digits⟩) fun word => .ok word.toNat) ∧
    (∀ ranks id inside name, readAnonymous ranks id inside name =
      readGroups Segment.anonymousPattern 3 (fun _ wanted => ranks.rank? id .anonymous = some wanted) inside name) ∧
    ∀ ranks id className inside name, readLocal ranks id className inside name =
      readGroups Segment.localPattern 4 (fun groups wanted => ranks.rank? id .localClass = some wanted ∧
        (groupText groups 2).isPrefixOf className.toList) inside name := by
  refine ⟨fun _ => Segment.exists_accepts_anonymous_iff, fun _ _ _ => Segment.anonymous?_eq_some_iff_front,
    Segment.readBy_anonymous, fun _ => Segment.exists_accepts_local_iff,
    fun _ _ _ _ => Segment.localClass?_eq_some_iff_front, Segment.readBy_local, fun zeros digits => ?_,
    Segment.rank_eq_elim, fun _ _ _ _ => readAnonymous_eq_readGroups, fun _ _ _ _ _ => readLocal_eq_readGroups⟩
  have hvalue : Text.decimalValue (List.replicate zeros '0' ++ digits) =
      Nat.ofDigits 10 (digits.reverse.map Text.digitValue) := by
    rw [Text.decimalValue_zeros_append, Text.decimalValue_eq_ofDigits]
  rw [← hvalue]
  exact ⟨Text.exists_readWord?_iff, fun _ => Text.readWord?_eq_some_iff⟩

/-- The fourth digit before the dollar sign is left to the class name, a line feed is part of the class name there but
not allowed behind it, and zeros in front do not make a number longer than 32 bits. -/
theorem segments_follow_patterns_backed_off :
    Segment.localPattern.captures? "0012$a".toList =
      some [some "0012$a".toList, some "001".toList, some "2".toList, some "$a".toList, some "a".toList] ∧
    Segment.localClass? "0012$a".toList = some ("001".toList, "2".toList, "a".toList) ∧
    Segment.LeadingDigits "0012".toList 3 "001".toList ∧
    (∃ groups, Segment.localPattern.Accepts "0\n$a".toList groups) ∧
    ¬ (∃ groups, Segment.localPattern.Accepts "0x$\n".toList groups) ∧
    (∃ word, Text.readWord? ("000".toList ++ "4294967295".toList) = some word) ∧
    ¬ ∃ word, Text.readWord? ("000".toList ++ "4294967296".toList) = some word := by
  obtain ⟨-, -, -, haccepts, hlocal, hreadBy, hwords, -⟩ := segments_follow_patterns
  have hcaptures : Segment.localPattern.captures? "0012$a".toList =
      some [some "0012$a".toList, some "001".toList, some "2".toList, some "$a".toList, some "a".toList] := by
    decide +kernel
  have hread : Segment.localClass? "0012$a".toList = some ("001".toList, "2".toList, "a".toList) := by
    rw [hreadBy.eq_captures, hcaptures]
    rfl
  obtain ⟨-, -, -, hleading, -, -⟩ := (hlocal _ _ _ _).mp hread
  refine ⟨hcaptures, hread, hleading, (haccepts _).mpr (by decide +kernel), fun h => ?_, ?_, fun h => ?_⟩
  · exact absurd ((haccepts _).mp h) (by decide +kernel)
  · exact (hwords 3 "4294967295".toList).1.mpr (by decide +kernel)
  · exact absurd ((hwords 3 "4294967296".toList).1.mp h) (by decide +kernel)

end BinaryName

end Pinpoint
