import Mathlib.Data.List.Forall2
import Mathlib.Tactic.Common
import Pinpoint.Document.Criterion
import Pinpoint.Document.Event
import Pinpoint.Document.Outline

namespace Pinpoint

open Json Json.Fields

namespace Json

variable {α β : Type}

/-- The values that are read back from what is written for them are those of the form `plain`; a value that
has been read off any document is one of these. -/
structure RoundTrips (write : α → Json) (read : Json → Option α) (plain : α → Prop) : Prop where
  read_write_iff : ∀ value, read (write value) = some value ↔ plain value
  read_again : ∀ json value, read json = some value → read (write value) = some value

section Values

@[simp]
theorem asUInt8?_nat (n : UInt8) : asUInt8? (.nat n.toNat) = some n := by
  have hlt : n.toNat < UInt8.size := n.toNat_lt
  simp [asUInt8?, asNatBelow?, nat, hlt]

@[simp]
theorem asUInt16?_nat (n : UInt16) : asUInt16? (.nat n.toNat) = some n := by
  have hlt : n.toNat < UInt16.size := n.toNat_lt
  simp [asUInt16?, asNatBelow?, nat, hlt]

@[simp]
theorem asUInt32?_nat (n : UInt32) : asUInt32? (.nat n.toNat) = some n := by
  have hlt : n.toNat < UInt32.size := n.toNat_lt
  simp [asUInt32?, asNatBelow?, nat, hlt]

@[simp]
theorem asInt32?_number (n : Int32) : asInt32? (.number n.toInt) = some n := by
  have hle := n.le_toInt
  have hlt := n.toInt_lt
  simp only [asInt32?, Int32.ofInt_toInt, ite_eq_left_iff]
  omega

/-- A list is read element by element. -/
theorem readAll?_eq_some_iff {read : Json → Option α} {items : List Json} {values : List α} :
    readAll? read items = some values ↔
      List.Forall₂ (fun item value => read item = some value) items values := by
  induction items generalizing values with
  | nil => simp [readAll?, eq_comm]
  | cons item items ih =>
    cases values with
    | nil => simp [readAll?, Option.bind_eq_some_iff]
    | cons value values => simp [readAll?, Option.bind_eq_some_iff, ih]

@[simp]
theorem asListOf?_strings (texts : List String) : asListOf? asString? (.strings texts) = some texts := by
  rw [strings, asListOf?, readAll?_eq_some_iff, List.forall₂_map_left_iff, List.forall₂_same]
  exact fun _ _ => rfl

end Values

/-- Lists are read back where their elements are. -/
theorem RoundTrips.list {write : α → Json} {read : Json → Option α} {plain : α → Prop}
    (htrips : RoundTrips write read plain) :
    RoundTrips (fun values => .array (values.map write)) (asListOf? read)
      fun values => ∀ value ∈ values, plain value := by
  have hlist (values : List α) : asListOf? read (.array (values.map write)) = some values ↔
      ∀ value ∈ values, read (write value) = some value := by
    rw [asListOf?, readAll?_eq_some_iff, List.forall₂_map_left_iff, List.forall₂_same]
  refine ⟨?_, ?_⟩
  · intro values
    simp only [hlist, htrips.read_write_iff]
  · intro json values hread
    rw [hlist]
    cases json with
    | array items =>
      rw [asListOf?, readAll?_eq_some_iff] at hread
      induction hread with
      | nil => simp
      | cons hfirst _ ih => exact List.forall_mem_cons.2 ⟨htrips.read_again _ _ hfirst, ih⟩
    | _ => cases hread

namespace Fields

/-- All that a reader gives is of some form. -/
def Yields (reader : FieldReader α) (form : α → Prop) : Prop :=
  ∀ fields value rest, reader.run fields = some (value, rest) → form value

theorem Yields.pure {value : α} {form : α → Prop} (hvalue : form value) :
    Yields (Pure.pure value) form := by
  rintro fields _ _ ⟨⟩
  exact hvalue

theorem Yields.failure {form : α → Prop} : Yields Alternative.failure form := by
  rintro fields value rest ⟨⟩

/-- What a reader gives is what its last step gives. -/
theorem Yields.bind {first : FieldReader α} {next : α → FieldReader β} {form : β → Prop}
    (hnext : ∀ value, Yields (next value) form) : Yields (first >>= next) form := by
  intro fields value rest hrun
  rw [StateT.run_bind] at hrun
  obtain ⟨⟨middle, left⟩, -, hrun⟩ := Option.bind_eq_some_iff.1 hrun
  exact hnext middle left value rest hrun

/-- What is read as a record is of the form that its reader gives. -/
theorem Yields.readAs? {reader : FieldReader α} {form : α → Prop} (hyields : Yields reader form)
    {fields : Fields} {value : α} (hread : fields.readAs? reader = some value) : form value := by
  rw [Fields.readAs?] at hread
  split at hread
  · next rest hrun =>
    cases hread
    exact hyields _ _ _ hrun
  · next hrun =>
    cases hread
    exact hyields _ _ _ hrun
  · cases hread

/-- A reader that goes on from a member by what is picked from it leaves the members as they are. -/
theorem run_next?_named {next : Option Json → FieldReader α} {pick : Option Json → Option α}
    {members : List (String × Json)} (key : String)
    (hnext : ∀ found, (next found).run (.named members) =
      (pick found).map fun value => (value, .named members)) :
    (next? key >>= next).run (.named members) =
      ((member? key members).bind pick).map fun value => (value, .named members) := by
  rw [StateT.run_bind]
  change ((member? key members).map _).bind _ = _
  cases member? key members with
  | none => rfl
  | some found => exact hnext found

/-- A reading that needs no field leaves the fields as they are. -/
theorem run_lift (read : Option α) (fields : Fields) :
    (liftM read : FieldReader α).run fields = read.map fun value => (value, fields) := by
  cases read <;> rfl

/-- A required member is looked up by its key, and the members stay for the next field. -/
theorem required_named (key : String) (read : Json → Option α) (members : List (String × Json)) :
    (required key read).run (.named members) =
      ((member? key members).bind (·.bind read)).map fun value => (value, .named members) := by
  apply run_next?_named key
  rintro (_ | json)
  · rfl
  · exact run_lift (read json) _

/-- An optional member is looked up by its key, and a default stands in for it. -/
theorem optional_named (key : String) (read : Json → Option α) (default : α)
    (members : List (String × Json)) :
    (Fields.optional key read default).run (.named members) =
      ((member? key members).bind (·.elim (some default) read)).map fun value =>
        (value, .named members) := by
  apply run_next?_named key
  rintro (_ | json)
  · rfl
  · exact run_lift (read json) _

end Fields

end Json

namespace Event

/-- The fields of an event are read back, whichever of the events it is. -/
theorem readAs?_members (event : Event) :
    (Fields.named (("event", .string event.tag) :: event.members)).readAs? (reader event.tag) =
      some event := by
  cases event <;>
    simp [readAs?, reader, tag, members, required_named, member?, asString?]

/-- An event is read back from its document. -/
theorem ofJson?_toJson (event : Event) : ofJson? event.toJson = some event := by
  have htag : (toJson event).asTagged? "event" =
      some (event.tag, .named (("event", .string event.tag) :: event.members)) := by
    cases event <;> simp [toJson, asTagged?, member?, members]
  rw [ofJson?, htag]
  exact readAs?_members event

/-- Events have no other form. -/
theorem roundTrips : RoundTrips toJson ofJson? fun _ => True :=
  ⟨fun event => iff_true_intro (ofJson?_toJson event), fun _ event _ => ofJson?_toJson event⟩

end Event

namespace WrittenCriterion

/-- A criterion is read back from its document. -/
theorem ofJson?_toJson (written : WrittenCriterion) : ofJson? written.toJson = some written := by
  cases written <;>
    simp [ofJson?, toJson, asTagged?, member?, readAs?, reader, required_named, optional_named, asBool?,
      asString?]

theorem roundTrips : RoundTrips toJson ofJson? fun _ => True :=
  ⟨fun written => iff_true_intro (ofJson?_toJson written), fun _ written _ => ofJson?_toJson written⟩

end WrittenCriterion

@[simp]
theorem Flavor.ofJson?_tag (isNothing : Json → Bool) (flavor : Flavor) :
    Flavor.ofJson? isNothing (.string flavor.tag) = some flavor := by
  cases flavor <;> simp [Flavor.ofJson?, asChoice?, Flavor.ofTag?, Flavor.all, Flavor.tag]

namespace Kind

/-- Neither a body nor a receiver is wired to a node of this kind. -/
structure Unwired (kind : Kind) : Prop where
  body : kind.body? = none
  receiver : kind.receiver? = none

/-- Bodies and receivers are never read. -/
theorem yields_reader (tag : String) : Yields (reader tag) Unwired := by
  unfold reader
  split_ifs
  · exact .bind fun _ => .pure ⟨rfl, rfl⟩
  · exact .bind fun _ => .bind fun _ => .pure ⟨rfl, rfl⟩
  · exact .pure ⟨rfl, rfl⟩
  · exact .bind fun _ => .bind fun _ => .pure ⟨rfl, rfl⟩
  · exact .bind fun _ => .bind fun _ => .pure ⟨rfl, rfl⟩
  · exact .pure ⟨rfl, rfl⟩
  · exact .bind fun _ => .pure ⟨rfl, rfl⟩
  · exact .failure

/-- The fields of a kind that is not wired are read back; the member for the children is not looked at. -/
theorem readAs?_members {kind : Kind} (hkind : kind.Unwired) {more : List (String × Json)}
    (hmore : ∀ member ∈ more, member.1 = "children") :
    (Fields.named (("kind", .string kind.tag) :: kind.members ++ more)).readAs? (reader kind.tag) =
      some kind := by
  have hnone {key : String} (hkey : key ≠ "children") : more.filter (·.1 == key) = [] := by
    refine List.filter_eq_nil_iff.2 fun member hmember => ?_
    simp [hmore member hmember, Ne.symm hkey]
  obtain ⟨hbody, hreceiver⟩ := hkind
  cases kind with
  | unit package =>
    cases package <;>
      simp [readAs?, reader, tag, members, optional_named, member?, hnone, asOptional?, asString?]
  | classDecl name flavor =>
    simp [readAs?, reader, tag, members, optional_named, member?, hnone, asString?]
  | construction body =>
    cases hbody
    simp [readAs?, reader, tag]
  | method name parameters receiver =>
    cases hreceiver
    simp [readAs?, reader, tag, members, required_named, optional_named, member?, hnone, asString?]
  | «variable» name isReceiver =>
    cases isReceiver <;>
      simp [readAs?, reader, tag, members, required_named, optional_named, member?, hnone, asString?,
        asBool?]
  | block => simp [readAs?, reader, tag]
  | other label => simp [readAs?, reader, tag, members, optional_named, member?, hnone, asString?]

/-- No member of a kind takes the place of the tag or of the children. -/
theorem key_members (kind : Kind) :
    ∀ member ∈ kind.members, member.1 ≠ "kind" ∧ member.1 ≠ "children" := by
  cases kind with
  | unit package => cases package <;> simp [members]
  | «variable» name isReceiver => cases isReceiver <;> simp [members]
  | _ => simp [members]

/-- The tag of a kind is found among its members. -/
theorem member?_kind (kind : Kind) {more : List (String × Json)}
    (hmore : ∀ member ∈ more, member.1 = "children") :
    member? "kind" (("kind", .string kind.tag) :: kind.members ++ more) =
      some (some (.string kind.tag)) := by
  have hnone : (kind.members ++ more).filter (·.1 == "kind") = [] := by
    refine List.filter_eq_nil_iff.2 fun member hmember => ?_
    rcases List.mem_append.1 hmember with hmember | hmember
    · simpa using (kind.key_members member hmember).1
    · simp [hmore member hmember]
  simp [member?, hnone]

/-- A kind that has been read is not wired. -/
theorem unwired_of_ofJson? {json : Json} {kind : Kind} (hread : ofJson? json = some kind) :
    kind.Unwired := by
  obtain ⟨⟨tag, fields⟩, -, hfields⟩ := Option.bind_eq_some_iff.1 hread
  exact (yields_reader tag).readAs? hfields

/-- A kind is read back from its document. -/
theorem ofJson?_toJson {kind : Kind} (hkind : kind.Unwired) : ofJson? kind.toJson = some kind := by
  have htagged : kind.toJson.asTagged? "kind" =
      some (kind.tag, .named (("kind", .string kind.tag) :: kind.members)) := by
    have hmember := member?_kind kind (List.forall_mem_nil _)
    rw [List.append_nil] at hmember
    rw [toJson, asTagged?, hmember]
  have hfields := readAs?_members hkind (List.forall_mem_nil _)
  rw [List.append_nil] at hfields
  rw [ofJson?, htagged]
  exact hfields

theorem roundTrips : RoundTrips toJson ofJson? Unwired :=
  ⟨fun _ => ⟨unwired_of_ofJson?, ofJson?_toJson⟩,
    fun _ _ hread => ofJson?_toJson (unwired_of_ofJson? hread)⟩

end Kind

namespace Outline

/-- No node of the outline is wired. -/
inductive Unwired : Outline → Prop where
  | intro {outline : Outline} (hkind : outline.kind.Unwired)
      (hchildren : ∀ child ∈ outline.children, child.Unwired) : Unwired outline

theorem key_childMembers (children : List Outline) :
    ∀ member ∈ childMembers children, member.1 = "children" := by
  cases children <;> simp [childMembers]

/-- The members of a kind are passed over on the way to the children. -/
theorem childrenAmong?_append {front more : List (String × Json)}
    (hfront : ∀ member ∈ front, member.1 ≠ "children") :
    childrenAmong? (front ++ more) = childrenAmong? more := by
  induction front with
  | nil => rfl
  | cons member front ih =>
    obtain ⟨hmember, hfront⟩ := List.forall_mem_cons.1 hfront
    rw [List.cons_append, childrenAmong?, if_neg hmember, ih hfront]

/-- The children are read from the one member that is written for them. -/
theorem childrenAmong?_childMembers (children : List Outline) :
    childrenAmong? (childMembers children) = ofJsonAll? (toJsonAll children) := by
  cases children with
  | nil => rfl
  | cons child rest => rw [childMembers, childrenAmong?, if_pos rfl, childrenOf?, toJsonAll]

/-- The member for the children is not repeated, and so is no reason to refuse the document. -/
theorem member?_children {front : List (String × Json)}
    (hfront : ∀ member ∈ front, member.1 ≠ "children") (children : List Outline) :
    ∃ found, member? "children" (front ++ childMembers children) = some found := by
  have hnone : front.filter (·.1 == "children") = [] :=
    List.filter_eq_nil_iff.2 fun member hmember => by simpa using hfront member hmember
  cases children <;> simp [member?, childMembers, hnone]

/-- The document of a node is read as its kind with what the documents of its children are read as. -/
theorem ofJson?_toJson_eq {kind : Kind} (hkind : kind.Unwired) (children : List Outline) :
    ofJson? (toJson ⟨kind, children⟩) = (ofJsonAll? (toJsonAll children)).map (Outline.mk kind) := by
  have hmore := key_childMembers children
  have hfront : ∀ member ∈ ("kind", .string kind.tag) :: kind.members, member.1 ≠ "children" :=
    List.forall_mem_cons.2 ⟨by simp, fun member hmember => (kind.key_members member hmember).2⟩
  obtain ⟨found, hfound⟩ := member?_children hfront children
  have htag : tag? (("kind", .string kind.tag) :: kind.members ++ childMembers children) =
      some kind.tag := by
    rw [tag?, kind.member?_kind hmore]
  rw [toJson, ofJson?, htag]
  simp only [Option.bind_eq_bind, Option.bind_some, Kind.readAs?_members hkind hmore, hfound]
  rw [childrenAmong?_append hfront, childrenAmong?_childMembers]
  cases ofJsonAll? (toJsonAll children) <;> rfl

/-- Outlines are read back from their documents if each of them is. -/
theorem ofJsonAll?_toJsonAll {outlines : List Outline}
    (houtlines : ∀ outline ∈ outlines, ofJson? outline.toJson = some outline) :
    ofJsonAll? (toJsonAll outlines) = some outlines := by
  induction outlines with
  | nil => rfl
  | cons outline rest ih =>
    obtain ⟨houtline, hrest⟩ := List.forall_mem_cons.1 houtlines
    rw [toJsonAll, ofJsonAll?, houtline, ih hrest]
    rfl

/-- An outline is read back from its document. -/
theorem ofJson?_toJson {outline : Outline} (houtline : outline.Unwired) :
    ofJson? outline.toJson = some outline := by
  induction houtline with
  | @intro outline hkind _ ih =>
    obtain ⟨kind, children⟩ := outline
    rw [ofJson?_toJson_eq hkind, ofJsonAll?_toJsonAll ih, Option.map_some]

mutual

/-- Nothing that is read off a document is wired, at any depth. -/
theorem unwired_of_ofJson? {json : Json} {outline : Outline} (hread : ofJson? json = some outline) :
    outline.Unwired := by
  cases json with
  | object members =>
    rw [ofJson?] at hread
    obtain ⟨tag, -, hread⟩ := Option.bind_eq_some_iff.1 hread
    obtain ⟨kind, hkind, hread⟩ := Option.bind_eq_some_iff.1 hread
    obtain ⟨found, -, hread⟩ := Option.bind_eq_some_iff.1 hread
    obtain ⟨children, hchildren, hread⟩ := Option.bind_eq_some_iff.1 hread
    cases hread
    exact .intro ((Kind.yields_reader tag).readAs? hkind) (unwired_of_childrenAmong? hchildren)
  | _ => cases hread

theorem unwired_of_childrenAmong? {members : List (String × Json)} {children : List Outline}
    (hread : childrenAmong? members = some children) : ∀ child ∈ children, child.Unwired := by
  cases members with
  | nil =>
    cases hread
    exact List.forall_mem_nil _
  | cons member rest =>
    obtain ⟨key, value⟩ := member
    rw [childrenAmong?] at hread
    split at hread
    · exact unwired_of_childrenOf? hread
    · exact unwired_of_childrenAmong? hread

theorem unwired_of_childrenOf? {json : Json} {children : List Outline}
    (hread : childrenOf? json = some children) : ∀ child ∈ children, child.Unwired := by
  cases json with
  | array items => exact unwired_of_ofJsonAll? hread
  | _ => cases hread

theorem unwired_of_ofJsonAll? {items : List Json} {outlines : List Outline}
    (hread : ofJsonAll? items = some outlines) : ∀ outline ∈ outlines, outline.Unwired := by
  cases items with
  | nil =>
    cases hread
    exact List.forall_mem_nil _
  | cons item rest =>
    rw [ofJsonAll?] at hread
    obtain ⟨outline, hfirst, hread⟩ := Option.bind_eq_some_iff.1 hread
    obtain ⟨others, hrest, hread⟩ := Option.bind_eq_some_iff.1 hread
    cases hread
    exact List.forall_mem_cons.2 ⟨unwired_of_ofJson? hfirst, unwired_of_ofJsonAll? hrest⟩

end

theorem roundTrips : RoundTrips toJson ofJson? Unwired :=
  ⟨fun _ => ⟨unwired_of_ofJson?, ofJson?_toJson⟩,
    fun _ _ hread => ofJson?_toJson (unwired_of_ofJson? hread)⟩

end Outline

/-- Documents of trees, criteria and events, of bare kinds, and lists of any of them, round trip: what is
written is read back, unless something is wired in it, and a value that has been read off any document is
read back from its own. -/
theorem Json.documents_roundTrip :
    RoundTrips Outline.toJson Outline.ofJson? Outline.Unwired ∧
    RoundTrips Kind.toJson Kind.ofJson? Kind.Unwired ∧
    RoundTrips WrittenCriterion.toJson WrittenCriterion.ofJson? (fun _ => True) ∧
    RoundTrips Event.toJson Event.ofJson? (fun _ => True) ∧
    RoundTrips (fun outlines => .array (outlines.map Outline.toJson)) (asListOf? Outline.ofJson?)
      (fun outlines => ∀ outline ∈ outlines, outline.Unwired) ∧
    RoundTrips (fun criteria => .array (criteria.map WrittenCriterion.toJson)) WrittenCriterion.listOfJson?
      (fun _ => True) ∧
    RoundTrips (fun events => .array (events.map Event.toJson)) Event.listOfJson? (fun _ => True) := by
  have hcriteria := WrittenCriterion.roundTrips.list
  have hevents := Event.roundTrips.list
  simp only [implies_true] at hcriteria hevents
  exact ⟨Outline.roundTrips, Kind.roundTrips, WrittenCriterion.roundTrips, Event.roundTrips,
    Outline.roundTrips.list, hcriteria, hevents⟩

end Pinpoint
