import Mathlib.Tactic.Common
import Pinpoint.Proofs.Method.Signature
import Pinpoint.Proofs.Refusal

namespace Pinpoint

namespace MethodSignature

/-- A text divided as a signature: a name, the parameters in parentheses, and a rest, such as a return type. -/
structure Divides (text name parameters rest : String) : Prop where
  text_eq : text = name ++ "(" ++ parameters ++ ")" ++ rest
  name_ne : name ≠ ""
  name_open : '(' ∉ name.toList
  name_close : ')' ∉ name.toList
  parameters_close : ')' ∉ parameters.toList

variable {text name parameters rest name' parameters' rest' : String} {signature : MethodSignature}

/-- A text divides just when it spells a signature. -/
theorem exists_divides_iff :
    (∃ rest, Divides text name parameters rest) ↔ Spells text.toList name.toList parameters.toList := by
  constructor
  · rintro ⟨rest, rfl, hne, hopen, hclose, hparameters⟩
    refine ⟨by simpa using hne, hopen, hclose, hparameters, rest.toList, ?_⟩
    simp
  · rintro ⟨hne, hopen, hclose, hparameters, rest, htext⟩
    refine ⟨String.ofList rest, ?_, by simpa using hne, hopen, hclose, hparameters⟩
    apply String.toList_inj.mp
    simp [htext]

/-- A signature is read off a text just when the text divides into its parts. -/
theorem ofText_eq_ok_iff : ofText text = .ok signature ↔
    signature.text = text ∧ ∃ rest, Divides text signature.name signature.parameters rest := by
  rw [exists_divides_iff, ← parse_eq_ok_iff, ofText]
  cases parse text <;> simp

/-- A text that divides is read as its name and parameters. -/
theorem Divides.ofText_eq (hdivides : Divides text name parameters rest) :
    ofText text = .ok ⟨text, name, parameters⟩ :=
  ofText_eq_ok_iff.mpr ⟨rfl, rest, hdivides⟩

/-- A text divides in one way: name and parameters are what is read off it, and the rest is what they leave. -/
theorem Divides.unique (hdivides : Divides text name parameters rest)
    (hdivides' : Divides text name' parameters' rest') :
    name = name' ∧ parameters = parameters' ∧ rest = rest' := by
  have hread := hdivides.ofText_eq.symm.trans hdivides'.ofText_eq
  rw [Except.ok.injEq, MethodSignature.mk.injEq] at hread
  obtain ⟨-, rfl, rfl⟩ := hread
  have htext := hdivides.text_eq.symm.trans hdivides'.text_eq
  exact ⟨rfl, rfl, (String.append_right_inj _).mp htext⟩

end MethodSignature

namespace SignatureFault

/-- What a fault says of a text, be it the first thing to say or not. -/
def Applies (text : String) : SignatureFault → Prop
  | .missingOpen => '(' ∉ text.toList
  | .missingClose => ')' ∉ text.toList
  | .closeBeforeOpen => ∃ front rest, text.toList = front ++ ')' :: rest ∧ '(' ∉ front
  | .missingName => ∃ rest, text.toList = '(' :: rest

/-- The faults in the order in which a text is checked for them. -/
def order : List SignatureFault := [.missingOpen, .missingClose, .closeBeforeOpen, .missingName]

/-- The first fault that a text has. -/
def IsFirst (text : String) : SignatureFault → Prop :=
  FirstFault (fun candidate fault => candidate.Applies text ∧ candidate = fault) order

/-- The complaints in the order in which they are made. -/
theorem isFirst_iff {text : String} {fault : SignatureFault} :
    fault.IsFirst text ↔
      ('(' ∉ text.toList ∧ .missingOpen = fault) ∨ '(' ∈ text.toList ∧
        ((')' ∉ text.toList ∧ .missingClose = fault) ∨ ')' ∈ text.toList ∧
          ((closeBeforeOpen.Applies text ∧ .closeBeforeOpen = fault) ∨ ¬ closeBeforeOpen.Applies text ∧
            missingName.Applies text ∧ .missingName = fault)) := by
  have hnone (candidate : SignatureFault) :
      (∀ other, ¬ (candidate.Applies text ∧ candidate = other)) ↔ ¬ candidate.Applies text := by simp
  have hopen : ¬ missingOpen.Applies text ↔ '(' ∈ text.toList := not_not
  have hclose : ¬ missingClose.Applies text ↔ ')' ∈ text.toList := not_not
  simp only [IsFirst, order, FirstFault.cons_iff, FirstFault.not_nil, hnone, hopen, hclose, and_false, or_false]
  rfl

/-- A text is misspelled in the first way that it can be. -/
theorem misspells_iff_isFirst {text : String} {fault : SignatureFault} :
    MethodSignature.Misspells text.toList fault ↔ fault.IsFirst text := by
  rw [isFirst_iff]
  constructor
  · intro hmisspells
    cases hmisspells with
    | missingOpen hopen => exact .inl ⟨hopen, rfl⟩
    | missingClose hopen hclose => exact .inr ⟨hopen, .inl ⟨hclose, rfl⟩⟩
    | @closeBeforeOpen front rest htext hfront hrest =>
      have hopen : '(' ∈ text.toList := by simp [htext, hrest]
      have hclose : ')' ∈ text.toList := by simp [htext]
      exact .inr ⟨hopen, .inr ⟨hclose, .inl ⟨⟨front, rest, htext, hfront⟩, rfl⟩⟩⟩
    | @missingName rest htext hrest =>
      have hopen : '(' ∈ text.toList := by simp [htext]
      have hclose : ')' ∈ text.toList := by simp [htext, hrest]
      refine .inr ⟨hopen, .inr ⟨hclose, .inr ⟨?_, ⟨rest, htext⟩, rfl⟩⟩⟩
      rintro ⟨front, after, hsplit, hfront⟩
      rw [htext] at hsplit
      cases front with
      | nil => cases hsplit
      | cons c front =>
        cases hsplit
        exact hfront List.mem_cons_self
  · rintro (⟨hopen, rfl⟩ | ⟨hopen, ⟨hclose, rfl⟩ | ⟨hclose, ⟨⟨front, rest, htext, hfront⟩, rfl⟩ |
      ⟨-, ⟨rest, htext⟩, rfl⟩⟩⟩)
    · exact .missingOpen hopen
    · exact .missingClose hopen hclose
    · refine .closeBeforeOpen htext hfront ?_
      simpa [htext, hfront] using hopen
    · refine .missingName htext ?_
      simpa [htext] using hclose

end SignatureFault

/-- Criteria that come to the same at every node of every tree. -/
def Criterion.SameVerdicts (first second : Criterion) : Prop :=
  ∀ (tree : Tree) (ranks : RankIndex) (id : NodeId), tree.Grown → id < tree.size →
    first.holds ranks (tree.path? id) = second.holds ranks (tree.path? id)

namespace MethodSignature

variable {signature signature' : MethodSignature} {text text' : String}

/-- What a signature fits depends on its name and parameters only. -/
theorem fits_congr (hname : signature.name = signature'.name)
    (hparameters : signature.parameters = signature'.parameters) : signature.fits = signature'.fits := by
  funext name parameters
  rw [fits, fits, hname, hparameters]

/-- A climb asks a signature for nothing but which methods fit it. -/
theorem climb_congr (hfits : signature.fits = signature'.fits) (passed : Option NodeId) (nodes : List Node) :
    Receiver.climb signature passed nodes = Receiver.climb signature' passed nodes := by
  induction nodes generalizing passed with
  | nil => rfl
  | cons node above ih =>
    rw [Receiver.climb, Receiver.climb]
    split
    · rw [hfits]
    · rw [ih]
    · exact ih passed

/-- The place of a receiver annotation depends on what the signature fits only. -/
theorem isPlace_congr (hfits : signature.fits = signature'.fits) (path : Path) :
    Receiver.isPlace signature path = Receiver.isPlace signature' path := by
  rw [Receiver.isPlace, Receiver.isPlace]
  split
  · rw [hfits]
  · exact climb_congr hfits none _

/-- Being a method of a signature depends on what the signature fits only. -/
theorem isMethodOf_congr (hfits : signature.fits = signature'.fits) (path : Path) :
    Criterion.isMethodOf signature path = Criterion.isMethodOf signature' path := by
  rw [Criterion.isMethodOf, Criterion.isMethodOf, hfits]

/-- The tree of a method of a name, whose parameters are given in one piece. -/
def declaring (name parameters : String) : Tree :=
  (Tree.unit none).pushed [(0, .method name [parameters] none)]

theorem grown_declaring (name parameters : String) : (declaring name parameters).Grown :=
  Tree.Grown.pushed (.unit none) _

/-- A criterion that holds at a method declared by itself just when the method fits the signature. -/
def Judges (signature : MethodSignature) (criterion : Criterion) : Prop :=
  ∀ (ranks : RankIndex) (name parameters : String),
    criterion.holds ranks ((declaring name parameters).path? 1) = .ok (signature.fits name [parameters])

/-- A criterion on a signature judges by the signature. -/
theorem judges_hasSignature : signature.Judges (.hasSignature signature) := fun _ _ _ => rfl

/-- A criterion on a receiver does, too, since the method declares no receiver of its own. -/
theorem judges_onReceiver : signature.Judges (.onReceiver text signature) := by
  intro ranks name parameters
  have hplace : (Criterion.onReceiver text signature).holds ranks ((declaring name parameters).path? 1) =
      .ok (signature.fits name [parameters] && true) := rfl
  rw [hplace, Bool.and_true]

/-- Criteria of different signatures differ at the method that has the first of them. -/
theorem Judges.eq_of_sameVerdicts {criterion criterion' : Criterion} (hjudges : signature.Judges criterion)
    (hjudges' : signature'.Judges criterion') (hsame : criterion.SameVerdicts criterion') :
    signature.name = signature'.name ∧ signature.parameters = signature'.parameters := by
  have hsize : 1 < (declaring signature.name signature.parameters).size := Nat.lt_succ_self 1
  have hverdict := hsame _ .empty 1 (grown_declaring signature.name signature.parameters) hsize
  have hown : signature.fits signature.name [signature.parameters] = true := by simp [fits]
  rw [hjudges, hjudges', hown, Except.ok.injEq, eq_comm] at hverdict
  simpa [fits] using hverdict

/-- Criteria on signatures answer alike everywhere just when they read the same name and parameters. -/
theorem sameVerdicts_hasSignature_iff :
    (Criterion.hasSignature signature).SameVerdicts (.hasSignature signature') ↔
      signature.name = signature'.name ∧ signature.parameters = signature'.parameters := by
  refine ⟨judges_hasSignature.eq_of_sameVerdicts judges_hasSignature, ?_⟩
  rintro ⟨hname, hparameters⟩ tree ranks id - -
  cases tree.path? id with
  | none => rfl
  | some path => exact congrArg Except.ok (isMethodOf_congr (fits_congr hname hparameters) path)

/-- The same of criteria on receivers. -/
theorem sameVerdicts_onReceiver_iff :
    (Criterion.onReceiver text signature).SameVerdicts (.onReceiver text' signature') ↔
      signature.name = signature'.name ∧ signature.parameters = signature'.parameters := by
  refine ⟨judges_onReceiver.eq_of_sameVerdicts judges_onReceiver, ?_⟩
  rintro ⟨hname, hparameters⟩ tree ranks id - -
  cases tree.path? id with
  | none => rfl
  | some path => exact congrArg Except.ok (isPlace_congr (fits_congr hname hparameters) path)

/-- The grammar of signatures. A text is one just when it divides into a name, parameters in parentheses and a
rest, which it does in one way, and these are the name and the parameters that are read. Any other text is refused
for the first of four reasons. The method and the receiver criteria of two signatures come to the same at every
node of every tree just when name and parameters are the same, whatever the rests are. -/
theorem signature_grammar :
    (∀ text, (∃ signature, ofText text = .ok signature) ↔
      ∃ name parameters rest, Divides text name parameters rest) ∧
    (∀ text name parameters rest, Divides text name parameters rest →
      ofText text = .ok ⟨text, name, parameters⟩ ∧
      ∀ name' parameters' rest', Divides text name' parameters' rest' →
        name = name' ∧ parameters = parameters' ∧ rest = rest') ∧
    (∀ text fault, ofText text = .error fault ↔
      ∃ reason : SignatureFault, reason.IsFirst text ∧ .badSignature text reason.reason = fault) ∧
    SignatureFault.order.map SignatureFault.reason =
      ["missing '('", "missing ')'", "')' before '('", "missing method name"] ∧
    ∀ text name parameters rest text' name' parameters' rest',
      Divides text name parameters rest → Divides text' name' parameters' rest' →
      ∃ method method' receiver receiver',
        Criterion.ofSignature text = .ok method ∧ Criterion.ofSignature text' = .ok method' ∧
        Criterion.ofReceiver text = .ok receiver ∧ Criterion.ofReceiver text' = .ok receiver' ∧
        (method.SameVerdicts method' ↔ name = name' ∧ parameters = parameters') ∧
        (receiver.SameVerdicts receiver' ↔ name = name' ∧ parameters = parameters') := by
  refine ⟨?_, ?_, ?_, rfl, ?_⟩
  · intro text
    constructor
    · rintro ⟨signature, hread⟩
      obtain ⟨-, rest, hdivides⟩ := ofText_eq_ok_iff.mp hread
      exact ⟨_, _, rest, hdivides⟩
    · rintro ⟨name, parameters, rest, hdivides⟩
      exact ⟨_, hdivides.ofText_eq⟩
  · intro text name parameters rest hdivides
    exact ⟨hdivides.ofText_eq, fun _ _ _ hdivides' => hdivides.unique hdivides'⟩
  · intro text fault
    simp only [WrittenCriterion.ofText_eq_error_iff, SignatureFault.misspells_iff_isFirst]
  · intro text name parameters rest text' name' parameters' rest' hdivides hdivides'
    have hread := hdivides.ofText_eq
    have hread' := hdivides'.ofText_eq
    refine ⟨.hasSignature ⟨text, name, parameters⟩, .hasSignature ⟨text', name', parameters'⟩,
      .onReceiver text ⟨text, name, parameters⟩, .onReceiver text' ⟨text', name', parameters'⟩, ?_, ?_, ?_, ?_,
      sameVerdicts_hasSignature_iff, sameVerdicts_onReceiver_iff⟩
    · rw [Criterion.ofSignature, hread, Except.map]
    · rw [Criterion.ofSignature, hread', Except.map]
    · rw [Criterion.ofReceiver, hread, Except.map]
    · rw [Criterion.ofReceiver, hread', Except.map]

/-- The parameters start behind the first opening and end before the first closing parenthesis, however many
follow. -/
theorem signature_grammar_nested :
    Divides "m((I)V)(x)" "m" "(I" "V)(x)" ∧ Divides "m((I)" "m" "(I" "" ∧
    (∃ receiver receiver', Criterion.ofReceiver "m((I)V)(x)" = .ok receiver ∧
      Criterion.ofReceiver "m((I)" = .ok receiver' ∧ receiver.SameVerdicts receiver') ∧
    SignatureFault.IsFirst ")(" .closeBeforeOpen := by
  have hlong : Divides "m((I)V)(x)" "m" "(I" "V)(x)" :=
    ⟨by decide +kernel, by decide, by decide, by decide, by decide⟩
  have hshort : Divides "m((I)" "m" "(I" "" := ⟨by decide +kernel, by decide, by decide, by decide, by decide⟩
  have hrefused : ofText ")(" = .error (.badSignature ")(" "')' before '('") := by decide +kernel
  obtain ⟨-, -, hfaults, -, hcriteria⟩ := signature_grammar
  obtain ⟨-, -, receiver, receiver', -, -, hreceiver, hreceiver', -, hsame⟩ :=
    hcriteria _ _ _ _ _ _ _ _ hlong hshort
  obtain ⟨reason, hfirst, hreason⟩ := (hfaults _ _).mp hrefused
  have hclose : reason = .closeBeforeOpen := by
    cases reason with
    | closeBeforeOpen => rfl
    | _ => simp [SignatureFault.reason] at hreason
  exact ⟨hlong, hshort, ⟨receiver, receiver', hreceiver, hreceiver', hsame.mpr ⟨rfl, rfl⟩⟩, hclose ▸ hfirst⟩

end MethodSignature

end Pinpoint
