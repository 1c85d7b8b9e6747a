import Mathlib.Data.List.Basic
import Mathlib.Tactic.Common
import Pinpoint.Method.Key
import Pinpoint.Proofs.Criterion.Receiver
import Pinpoint.Proofs.Text

namespace Pinpoint

namespace MethodSignature

/-- A text that spells a signature: a name, the parameters in parentheses, and then anything. -/
structure Spells (text name parameters : List Char) : Prop where
  name_ne : name ≠ []
  name_open : '(' ∉ name
  name_close : ')' ∉ name
  parameters_close : ')' ∉ parameters
  text_eq : ∃ rest, text = name ++ '(' :: (parameters ++ ')' :: rest)

/-- A text whose first parenthesis is an opening one and that has a closing one divides at the two. -/
theorem exists_between {text name before more rest : List Char} (hopen : text = name ++ '(' :: more)
    (hclose : text = before ++ ')' :: rest) (hlength : name.length ≤ before.length) :
    ∃ parameters, before = name ++ '(' :: parameters := by
  rw [hopen] at hclose
  obtain ⟨between, hbefore, hmore⟩ | ⟨between, hname, -⟩ := List.append_eq_append_iff.mp hclose
  · cases between with
    | nil => cases hmore
    | cons c parameters =>
      cases hmore
      exact ⟨parameters, hbefore⟩
  · -- the closing parenthesis would stand where the opening one does
    have hnil : between = [] := by
      apply List.eq_nil_of_length_eq_zero
      have hsplit := congrArg List.length hname
      rw [List.length_append] at hsplit
      omega
    rw [hnil, List.append_nil] at hname
    rw [hname] at hclose
    cases List.append_cancel_left hclose

/-- What is read off a text that divides at its first opening and at its first closing parenthesis. -/
theorem parse_divided {text : String} {name more before rest : List Char}
    (hopen : text.toList = name ++ '(' :: more) (hname : '(' ∉ name)
    (hclose : text.toList = before ++ ')' :: rest) (hbefore : ')' ∉ before) :
    parse text =
      if before.length < name.length then .error .closeBeforeOpen
      else if name.isEmpty then .error .missingName
      else .ok ⟨text, String.ofList name, String.ofList (before.drop (name.length + 1))⟩ := by
  have hnameRead : text.toList.takeWhile (· ≠ '(') = name := by
    rw [hopen, Text.takeWhile_ne_append hname]
  have hbeforeRead : text.toList.takeWhile (· ≠ ')') = before := by
    rw [hclose, Text.takeWhile_ne_append hbefore]
  have hopenMem : '(' ∈ text.toList := by simp [hopen]
  have hcloseMem : ')' ∈ text.toList := by simp [hclose]
  simp only [parse, hnameRead, hbeforeRead, hopenMem, hcloseMem, not_true, if_false]

/-- A text that spells a signature is read as the name and parameters that it spells. -/
theorem Spells.parse_eq {text name parameters : String}
    (hspells : Spells text.toList name.toList parameters.toList) :
    parse text = .ok ⟨text, name, parameters⟩ := by
  obtain ⟨hne, hopen, hclose, hparameters, rest, htext⟩ := hspells
  have hbefore : ')' ∉ name.toList ++ '(' :: parameters.toList := by simp [hclose, hparameters]
  have hdivided : text.toList = (name.toList ++ '(' :: parameters.toList) ++ ')' :: rest := by
    rw [htext, List.append_assoc, List.cons_append]
  have hlength : ¬ (name.toList ++ '(' :: parameters.toList).length < name.toList.length := by
    rw [List.length_append]
    omega
  have hempty : ¬ name.toList.isEmpty = true := by simpa using hne
  rw [parse_divided htext hopen hdivided hbefore, if_neg hlength, if_neg hempty]
  simp

/-- A signature is read off a text just when the text spells it. -/
theorem parse_eq_ok_iff {text : String} {signature : MethodSignature} :
    parse text = .ok signature ↔
      signature.text = text ∧ Spells text.toList signature.name.toList signature.parameters.toList := by
  constructor
  · intro hparse
    have hopenMem : '(' ∈ text.toList := by
      by_contra hnot
      simp [parse, hnot] at hparse
    have hcloseMem : ')' ∈ text.toList := by
      by_contra hnot
      simp [parse, hopenMem, hnot] at hparse
    obtain ⟨name, more, hopen, hname⟩ := List.eq_append_cons_of_mem hopenMem
    obtain ⟨before, rest, hclose, hbefore⟩ := List.eq_append_cons_of_mem hcloseMem
    rw [parse_divided hopen hname hclose hbefore] at hparse
    split_ifs at hparse with hlength hempty
    obtain ⟨parameters, rfl⟩ := exists_between hopen hclose (Nat.le_of_not_lt hlength)
    rw [List.mem_append, List.mem_cons, not_or, not_or] at hbefore
    obtain ⟨hnameClose, -, hparameters⟩ := hbefore
    cases hparse
    refine ⟨rfl, ?_, ?_, ?_, ?_, rest, ?_⟩
    · simpa using hempty
    · simpa using hname
    · simpa using hnameClose
    · simpa using hparameters
    · simp [hclose]
  · rintro ⟨rfl, hspells⟩
    exact hspells.parse_eq

/-- A text that spells no signature, and why not: for lack of a parenthesis, for their order, or for lack of
a name. -/
inductive Misspells (text : List Char) : SignatureFault → Prop where
  | missingOpen (hopen : '(' ∉ text) : Misspells text .missingOpen
  | missingClose (hopen : '(' ∈ text) (hclose : ')' ∉ text) : Misspells text .missingClose
  | closeBeforeOpen {front rest : List Char} (htext : text = front ++ ')' :: rest) (hfront : '(' ∉ front)
      (hrest : '(' ∈ rest) : Misspells text .closeBeforeOpen
  | missingName {rest : List Char} (htext : text = '(' :: rest) (hclose : ')' ∈ rest) :
      Misspells text .missingName

/-- A closing parenthesis that comes before the first opening one stands before it in the text. -/
theorem exists_after_close {text name before more rest : List Char} (hopen : text = name ++ '(' :: more)
    (hclose : text = before ++ ')' :: rest) (hlength : before.length < name.length) :
    (∃ between, name = before ++ between) ∧ '(' ∈ rest := by
  rw [hopen] at hclose
  obtain ⟨between, hbefore, -⟩ | ⟨between, hname, hrest⟩ := List.append_eq_append_iff.mp hclose
  · rw [hbefore, List.length_append] at hlength
    omega
  · cases between with
    | nil => cases hrest
    | cons c between =>
      cases hrest
      exact ⟨⟨_, hname⟩, by simp⟩

/-- A text that spells none is refused for what is wrong with it. -/
theorem Misspells.parse_eq {text : String} {fault : SignatureFault}
    (hmisspells : Misspells text.toList fault) : parse text = .error fault := by
  cases hmisspells with
  | missingOpen hopen => simp [parse, hopen]
  | missingClose hopen hclose => simp [parse, hopen, hclose]
  | @closeBeforeOpen front rest htext hfront hrest =>
    obtain ⟨between, more, rfl, hbetween⟩ := List.eq_append_cons_of_mem hrest
    have hopen : text.toList = (front ++ ')' :: between) ++ '(' :: more := by simp [htext]
    have hname : '(' ∉ front ++ ')' :: between := by simp [hfront, hbetween]
    have hmem : ')' ∈ text.toList := by simp [htext]
    obtain ⟨before, after, hclose, hbefore⟩ := List.eq_append_cons_of_mem hmem
    have hlength : before.length < (front ++ ')' :: between).length := by
      by_contra hnot
      obtain ⟨parameters, rfl⟩ := exists_between hopen hclose (Nat.le_of_not_lt hnot)
      simp at hbefore
    rw [parse_divided hopen hname hclose hbefore, if_pos hlength]
  | @missingName rest htext hclose =>
    obtain ⟨before, after, rfl, hbefore⟩ := List.eq_append_cons_of_mem hclose
    have hopen : text.toList = [] ++ '(' :: (before ++ ')' :: after) := htext
    have hdivided : text.toList = ('(' :: before) ++ ')' :: after := htext
    rw [parse_divided hopen (List.not_mem_nil) hdivided (by simp [hbefore])]
    simp

/-- A text is refused just when it spells no signature, for the first reason that it gives. -/
theorem parse_eq_error_iff {text : String} {fault : SignatureFault} :
    parse text = .error fault ↔ Misspells text.toList fault := by
  constructor
  · intro hparse
    by_cases hopenMem : '(' ∈ text.toList
    · by_cases hcloseMem : ')' ∈ text.toList
      · obtain ⟨name, more, hopen, hname⟩ := List.eq_append_cons_of_mem hopenMem
        obtain ⟨before, rest, hclose, hbefore⟩ := List.eq_append_cons_of_mem hcloseMem
        rw [parse_divided hopen hname hclose hbefore] at hparse
        split_ifs at hparse with hlength hempty
        · cases hparse
          obtain ⟨⟨between, rfl⟩, hrest⟩ := exists_after_close hopen hclose hlength
          exact .closeBeforeOpen hclose (fun hmem => hname (List.mem_append_left _ hmem)) hrest
        · cases hparse
          rw [List.isEmpty_iff] at hempty
          rw [hempty, List.nil_append] at hopen
          refine .missingName hopen ?_
          simpa [hopen] using hcloseMem
      · simp only [parse, hopenMem, hcloseMem, not_true, not_false_eq_true, if_true, if_false,
          Except.error.injEq] at hparse
        exact hparse ▸ .missingClose hopenMem hcloseMem
    · simp only [parse, hopenMem, not_false_eq_true, if_true, Except.error.injEq] at hparse
      exact hparse ▸ .missingOpen hopenMem
  · exact Misspells.parse_eq

end MethodSignature

namespace MethodKey

/-- A method as a class file names it: the name holds no parenthesis, the descriptor starts with one. -/
structure Plain (name descriptor : String) : Prop where
  name_ne : name ≠ ""
  name_open : '(' ∉ name.toList
  name_close : ')' ∉ name.toList
  opens : descriptor.toList.head? = some '('

/-- What a descriptor holds between its first character and its first closing parenthesis. -/
def parameterText (descriptor : String) : String :=
  String.ofList (descriptor.toList.tail.takeWhile (· ≠ ')'))

/-- A method has a key just when its descriptor closes its parameters. -/
theorem ofDescriptor?_isSome_iff {name descriptor : String} :
    (∃ key, ofDescriptor? name descriptor = some key) ↔ ')' ∈ descriptor.toList := by
  by_cases hclose : ')' ∈ descriptor.toList <;> simp [ofDescriptor?, hclose]

/-- The parameters of a descriptor end at the first closing parenthesis. -/
theorem close_not_mem_parameterText (descriptor : String) : ')' ∉ (parameterText descriptor).toList := by
  intro hmem
  rw [parameterText, String.toList_ofList] at hmem
  simpa using List.mem_takeWhile_imp hmem

section Plain

variable {name descriptor : String} {key : MethodKey}

/-- A key is the name with the parameters in parentheses. -/
theorem Plain.text_eq (hplain : Plain name descriptor) (hkey : ofDescriptor? name descriptor = some key) :
    key.text.toList = name.toList ++ '(' :: ((parameterText descriptor).toList ++ [')']) := by
  obtain ⟨rest, hrest⟩ := List.head?_eq_some_iff.mp hplain.opens
  have hclose := ofDescriptor?_isSome_iff.mp ⟨key, hkey⟩
  simp only [ofDescriptor?, hclose, if_true, Option.some.injEq] at hkey
  simp [← hkey, parameterText, hrest]

/-- The key of a method is read as a signature with the method's own name and parameters. -/
theorem Plain.parse_key (hplain : Plain name descriptor) (hkey : ofDescriptor? name descriptor = some key) :
    MethodSignature.parse key.text = .ok ⟨key.text, name, parameterText descriptor⟩ := by
  have hspells : MethodSignature.Spells key.text.toList name.toList (parameterText descriptor).toList :=
    ⟨by simpa using hplain.name_ne, hplain.name_open, hplain.name_close,
      close_not_mem_parameterText descriptor, [], hplain.text_eq hkey⟩
  exact hspells.parse_eq

/-- Methods share a key just when they share name and parameters, whatever they return. -/
theorem Plain.key_eq_iff (hplain : Plain name descriptor) (hkey : ofDescriptor? name descriptor = some key)
    {name' descriptor' : String} {key' : MethodKey} (hplain' : Plain name' descriptor')
    (hkey' : ofDescriptor? name' descriptor' = some key') :
    key = key' ↔ name = name' ∧ parameterText descriptor = parameterText descriptor' := by
  constructor
  · rintro rfl
    have hparse := (hplain.parse_key hkey).symm.trans (hplain'.parse_key hkey')
    rw [Except.ok.injEq, MethodSignature.mk.injEq] at hparse
    exact hparse.2
  · rintro ⟨rfl, hparameters⟩
    have htext : key.text = key'.text := by
      apply String.toList_inj.mp
      rw [hplain.text_eq hkey, hplain'.text_eq hkey', hparameters]
    cases key
    cases key'
    exact congrArg MethodKey.mk htext

end Plain

end MethodKey

/-- The signature criterion holds at the methods of the signature and nowhere else. -/
theorem Criterion.hasSignature_iff {tree : Tree} (htree : tree.Grown) (signature : MethodSignature)
    (ranks : RankIndex) {id : NodeId} (hid : id < tree.size) :
    ∃ answer, (Criterion.hasSignature signature).holds ranks (tree.path? id) = .ok answer ∧
      (answer = true ↔ tree.IsMethodOf signature id) := by
  have hwf := htree.wellFormed
  obtain ⟨node, hnode⟩ := Tree.node?_isSome_iff.mpr hid
  obtain ⟨path, hpath, hnodes⟩ := hwf.path?_eq hid
  refine ⟨isMethodOf signature path, by rw [hpath]; rfl, ?_⟩
  rw [Tree.isMethodOf_iff hnode, isMethodOf, hwf.leaf_eq hnode hnodes]
  cases hkind : node.kind <;> simp

/-- A method has a key just when its descriptor holds a closing parenthesis. The key is itself a signature,
of the method's name and parameters; the criterion of that signature holds at just the methods that have
them; and two methods share a key just when they share both. -/
theorem MethodKey.ofDescriptor?_signature {name descriptor : String}
    (hplain : MethodKey.Plain name descriptor) :
    ((∃ key, ofDescriptor? name descriptor = some key) ↔ ')' ∈ descriptor.toList) ∧
    ∀ key, ofDescriptor? name descriptor = some key →
      MethodSignature.parse key.text = .ok ⟨key.text, name, parameterText descriptor⟩ ∧
      (∃ criterion, Criterion.ofSignature key.text = .ok criterion ∧
        ∀ (tree : Tree) (ranks : RankIndex), tree.Grown → ∀ id < tree.size,
          ∃ answer, criterion.holds ranks (tree.path? id) = .ok answer ∧
            (answer = true ↔ ∃ parameters receiver,
              tree.kind? id = some (.method name parameters receiver) ∧
              String.join parameters = parameterText descriptor)) ∧
      ∀ name' descriptor' key', MethodKey.Plain name' descriptor' →
        ofDescriptor? name' descriptor' = some key' →
        (key = key' ↔ name = name' ∧ parameterText descriptor = parameterText descriptor') := by
  refine ⟨ofDescriptor?_isSome_iff, ?_⟩
  intro key hkey
  have hparse := hplain.parse_key hkey
  refine ⟨hparse, ⟨.hasSignature ⟨key.text, name, parameterText descriptor⟩, ?_, ?_⟩, ?_⟩
  · rw [Criterion.ofSignature, MethodSignature.ofText, hparse]
    rfl
  · intro tree ranks htree id hid
    exact Criterion.hasSignature_iff htree _ ranks hid
  · intro name' descriptor' key' hplain' hkey'
    exact hplain.key_eq_iff hkey hplain' hkey'

theorem MethodKey.ofDescriptor?_received :
    ofDescriptor? "m" "(I)V" = some ⟨"m(I)"⟩ ∧ ofDescriptor? "m" "(I)J" = some ⟨"m(I)"⟩ ∧
    parameterText "(I)V" = parameterText "(I)J" ∧
    ∃ criterion, Criterion.ofSignature "m(I)" = .ok criterion ∧
      criterion.holds Tree.received.ranks (Tree.received.path? 2) = .ok true := by
  have hplain : Plain "m" "(I)V" := ⟨by decide, by decide, by decide, by decide⟩
  have hkey : ofDescriptor? "m" "(I)V" = some ⟨"m(I)"⟩ := by decide +kernel
  have hkey' : ofDescriptor? "m" "(I)J" = some ⟨"m(I)"⟩ := by decide +kernel
  obtain ⟨-, hkeys⟩ := ofDescriptor?_signature hplain
  obtain ⟨-, ⟨criterion, hcriterion, hholds⟩, hshared⟩ := hkeys _ hkey
  have hplain' : Plain "m" "(I)J" := ⟨by decide, by decide, by decide, by decide⟩
  refine ⟨hkey, hkey', ((hshared _ _ _ hplain' hkey').mp rfl).2, criterion, hcriterion, ?_⟩
  obtain ⟨answer, hanswer, hiff⟩ :=
    hholds Tree.received Tree.received.ranks Tree.grown_received 2 (by decide +kernel)
  rw [hanswer, hiff.mpr ⟨["I"], some 3, by decide +kernel, by decide +kernel⟩]

end Pinpoint
