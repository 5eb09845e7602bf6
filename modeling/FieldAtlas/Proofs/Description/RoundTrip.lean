import FieldAtlas.Description.Json
import Mathlib.Data.List.Nodup

/-!
# `RoundTrip` — a description is read back from its JSON

Writing a description and reading the value gives the description itself, in order or not.
Nothing is required of names, numbers or comments.

A reader is wider than the writer, and what it refuses is what has to be kept away from here.
Three things could go wrong, each with a section of its own:

* a record refuses a key that occurs twice, so the keys of every record that is written are
  distinct (`unrepeated_of_nodup`);
* a comment is written only where there is one, so its key may be missing, and an empty comment is
  not an absent one (`comment?_commentMember`);
* a type is wanted as a whole, so nothing that is written may be unreadable
  (`isReadable_typeToJson`).

Everything else is one case for each constructor, by a recursion with the shape of the writer.  A
message stands inside a type or at the top, and the two are read by different rules, so every step
is proved for both.
-/

namespace FieldAtlas

namespace Json

/-! ## Members by key -/

/-- No known key is repeated where no key is. -/
theorem unrepeated_of_nodup {members : List (String × Json)} (h : (members.map Prod.fst).Nodup)
    (known : List String) : unrepeated known members = true := by
  rw [unrepeated, List.all_eq_true]
  intro key _
  have hcount : (members.filter (·.1 == key)).length = (members.map Prod.fst).count key := by
    rw [List.count, List.countP_map, List.countP_eq_length_filter]
    rfl
  rw [hcount]
  exact decide_eq_true (List.nodup_iff_count_le_one.mp h key)

theorem record?_obj {members : List (String × Json)} (h : (members.map Prod.fst).Nodup)
    (known : List String) : record? known (.obj members) = some members :=
  if_pos (unrepeated_of_nodup h known)

section

variable {α : Type} {key k : String} {value : Json} {rest : List (String × Json)}
  {decode : Json → Option α} {default : α}

@[simp] theorem required?_cons : required? ((k, value) :: rest) key decode =
    if key = k then decode value else required? rest key decode := by
  rw [required?, List.lookup_cons]
  by_cases h : key = k
  · rw [if_pos h, beq_iff_eq.mpr h]
    rfl
  · rw [if_neg h, beq_eq_false_iff_ne.mpr h]
    rfl

@[simp] theorem optional?_cons : optional? ((k, value) :: rest) key decode default =
    if key = k then decode value else optional? rest key decode default := by
  rw [optional?, List.lookup_cons]
  by_cases h : key = k
  · rw [if_pos h, beq_iff_eq.mpr h]
  · rw [if_neg h, beq_eq_false_iff_ne.mpr h]
    rfl

@[simp] theorem comment?_cons : comment? ((k, value) :: rest) key =
    if key = k then text? value else comment? rest key :=
  optional?_cons

end

/-! ## Numbers and lists -/

@[simp] theorem int32?_toInt (n : Int32) : int32? (.int n.toInt) = some n := by
  have hlo := n.le_toInt
  have hhi := n.toInt_lt
  have hin : -0x80000000 ≤ n.toInt ∧ n.toInt ≤ 0x7fffffff := by omega
  rw [int32?, intIn?, if_pos hin, Option.map_some, Int32.ofInt_toInt]

@[simp] theorem int64?_toInt (n : Int64) : int64? (.int n.toInt) = some n := by
  have hlo := n.le_toInt
  have hhi := n.toInt_lt
  have hin : -0x8000000000000000 ≤ n.toInt ∧ n.toInt ≤ 0x7fffffffffffffff := by omega
  rw [int64?, intIn?, if_pos hin, Option.map_some, Int64.ofInt_toInt]

/-- A list is read back if each of its items is. -/
theorem list?_map {α : Type} {encode : α → Json} {decode : Json → Option α}
    (h : ∀ a, decode (encode a) = some a) (as : List α) :
    list? decode (.arr (as.map encode)) = some as := by
  rw [list?]
  induction as with
  | nil => rfl
  | cons a rest ih =>
      rw [List.map_cons, List.mapM_cons, h a, ih]
      rfl

/-! ## Readable values -/

theorem areReadable_map {α : Type} {encode : α → Json} (h : ∀ a, (encode a).isReadable = true)
    (as : List α) : areReadable (as.map encode) = true := by
  induction as with
  | nil => rfl
  | cons a rest ih => rw [List.map_cons, areReadable, h a, ih, Bool.and_self]

theorem membersReadable_append (front back : List (String × Json)) :
    membersReadable (front ++ back) = (membersReadable front && membersReadable back) := by
  induction front with
  | nil => rfl
  | cons member rest ih =>
      rw [List.cons_append, membersReadable, membersReadable, ih, Bool.and_assoc]

end Json

open Json

/-! ## Comments -/

/-- A comment is read back, an empty one as an empty one. -/
@[simp] theorem comment?_commentMember (comment : Option String) :
    comment? (commentMember comment) "comment" = some comment := by
  cases comment <;> rfl

theorem membersReadable_commentMember (comment : Option String) :
    membersReadable (commentMember comment) = true := by
  cases comment <;> rfl

theorem nodup_keys_comment (front : List (String × Json)) (h : (front.map Prod.fst).Nodup)
    (hfront : "comment" ∉ front.map Prod.fst) (comment : Option String) :
    ((front ++ commentMember comment).map Prod.fst).Nodup := by
  cases comment with
  | none => simpa [commentMember] using h
  | some text =>
      rw [List.map_append, List.nodup_append]
      refine ⟨h, List.nodup_singleton "comment", fun key hkey last hlast => ?_⟩
      rw [List.mem_singleton.mp hlast]
      rintro rfl
      exact hfront hkey

/-! ## Enums -/

namespace EnumMember

theorem ofJson?_toJson (v : EnumMember) : ofJson? v.toJson = some v := by
  rw [ofJson?, toJson, record?_obj (nodup_keys_comment _ (by simp) (by simp) v.comment)]
  simp [str?]

theorem isReadable_toJson (v : EnumMember) : v.toJson.isReadable = true := by
  rw [toJson, isReadable, membersReadable_append, membersReadable_commentMember]
  rfl

end EnumMember

namespace EnumType

theorem ofJson?_toJson (e : EnumType) : ofJson? e.toJson = some e := by
  have hmembers := list?_map EnumMember.ofJson?_toJson e.members
  rw [ofJson?, toJson, record?_obj (by simp)]
  simp [str?, hmembers]

theorem isReadable_toJson (e : EnumType) : e.toJson.isReadable = true := by
  have hmembers := areReadable_map EnumMember.isReadable_toJson e.members
  simp [toJson, isReadable, membersReadable, hmembers]

end EnumType

/-! ## Types and messages are readable -/

mutual
theorem isReadable_typeToJson : ∀ t : FieldType, (typeToJson t).isReadable = true
  | .scalar _ => rfl
  | .enum e => by
      simp [typeToJson, isReadable, membersReadable, e.isReadable_toJson]
  | .message m => by
      simp [typeToJson, isReadable, membersReadable, isReadable_messageToJson m]
  | .map _ value => by
      simp [typeToJson, isReadable, membersReadable, isReadable_typeToJson value]
  | .group => rfl

theorem isReadable_messageToJson :
    ∀ m : MessageOf FieldType, (messageToJson m).isReadable = true
  | ⟨_, fields, enums⟩ => by
      have henums := areReadable_map EnumType.isReadable_toJson enums
      simp [messageToJson, isReadable, membersReadable, areReadable_fieldsToJson fields, henums]

theorem areReadable_fieldsToJson :
    ∀ fs : List (FieldOf FieldType), areReadable (fieldsToJson fs) = true
  | [] => rfl
  | f :: rest => by
      rw [fieldsToJson, areReadable, isReadable_fieldToJson f, areReadable_fieldsToJson rest,
        Bool.and_self]

theorem isReadable_fieldToJson :
    ∀ f : FieldOf FieldType, (fieldToJson f).isReadable = true
  | ⟨_, _, _, type, comment⟩ => by
      rw [fieldToJson, isReadable, membersReadable_append, membersReadable_commentMember]
      simp [isReadable, membersReadable, isReadable_typeToJson type]
end

/-! ## Types and messages are read back -/

/-- The kind of a type is read by its name, inside of types as well as outside. -/
theorem typeKind?_str (inner : Bool) {kind : String} (h : kind ∈ typeKinds) :
    typeKind? inner (.str kind) = some kind :=
  if_pos h

/-- A type is read by its kind, whatever stands behind it, if no key is repeated. -/
theorem lookup_kind (inner : Bool) {kind : String} (h : kind ∈ typeKinds)
    (rest : List (String × Json)) :
    ((("kind", .str kind) :: rest).lookup "kind").bind (typeKind? inner) = some kind := by
  rw [List.lookup_cons_self, Option.bind_some, typeKind?_str inner h]

mutual
theorem typeOfJson?_typeToJson (inner : Bool) :
    ∀ t : FieldType, typeOfJson? inner (typeToJson t) = some t
  | .scalar s => by
      rw [typeToJson, typeOfJson?, lookup_kind inner (by simp [typeKinds])]
      simp [unrepeated_of_nodup, name?, Scalar.ofName?_name]
  | .enum e => by
      rw [typeToJson, typeOfJson?, lookup_kind inner (by simp [typeKinds])]
      simp [unrepeated_of_nodup, e.ofJson?_toJson]
  | .message m => by
      have hmessage := messageOfJson?_messageToJson true m
      rw [typeToJson, typeOfJson?, lookup_kind inner (by simp [typeKinds])]
      simp [unrepeated_of_nodup, messageMember?, hmessage]
  | .map key value => by
      have hvalue := typeOfJson?_typeToJson true value
      rw [typeToJson, typeOfJson?, lookup_kind inner (by simp [typeKinds])]
      simp [unrepeated_of_nodup, name?, Scalar.ofName?_name, valueMember?, hvalue]
  | .group => by
      rw [typeToJson, typeOfJson?, lookup_kind inner (by simp [typeKinds])]
      simp [unrepeated_of_nodup]

theorem messageOfJson?_messageToJson (inner : Bool) :
    ∀ m : MessageOf FieldType, messageOfJson? inner (messageToJson m) = some m
  | ⟨name, fields, enums⟩ => by
      have hfields := fieldsOfJson?_fieldsToJson inner fields
      have henums := list?_map EnumType.ofJson?_toJson enums
      rw [messageToJson, messageOfJson?, if_pos (unrepeated_of_nodup (by simp) _)]
      simp [str?, fieldsMember?, fieldListOfJson?, hfields, henums]

theorem fieldsOfJson?_fieldsToJson (inner : Bool) :
    ∀ fs : List (FieldOf FieldType), fieldsOfJson? inner (fieldsToJson fs) = some fs
  | [] => rfl
  | f :: rest => by
      rw [fieldsToJson, fieldsOfJson?, fieldOfJson?_fieldToJson inner f,
        fieldsOfJson?_fieldsToJson inner rest]
      rfl

theorem fieldOfJson?_fieldToJson (inner : Bool) :
    ∀ f : FieldOf FieldType, fieldOfJson? inner (fieldToJson f) = some f
  | ⟨name, number, cardinality, type, comment⟩ => by
      have hkeys := nodup_keys_comment
        [("name", .str name), ("number", .int number.toInt),
          ("cardinality", .str cardinality.name), ("type", typeToJson type)]
        (by simp) (by simp) comment
      have htype := typeOfJson?_typeToJson inner type
      rw [fieldToJson, fieldOfJson?, if_pos (unrepeated_of_nodup hkeys _)]
      simp [str?, name?, Cardinality.ofName?_name, typeMember?, isReadable_typeToJson type, htype]
end

/-- Reading inverts writing, for every description. -/
theorem MessageOf.ofJson?_messageToJson (m : Message) : ofJson? m.toJson = some m :=
  messageOfJson?_messageToJson false m

end FieldAtlas
