import FieldAtlas.Description.Validation
import FieldAtlas.Json.Reader
import FieldAtlas.Json.Record

/-!
# `Description.Json` — descriptions as JSON

Every field of a record is written, an absent comment excepted.  A type is an object whose
`kind` says which other members it has.

Reading is by recursion on the JSON value itself.  What a record holds that is not recursive is
looked up (`Json.required?`); for the rest there is one function a member, which walks the
members to the one it wants.

Every record may be an object or, by position, an array; the kind of a type comes first.

A type is wanted as a whole: nothing inside it may be unreadable, members that are passed over
included.  Inside another type, a kind may also be given as its place in the list of kinds, and
an empty object may follow a name (`Json.isNothing`).
-/

namespace FieldAtlas

open Json

/-! ## Writing -/

/-- The member for a comment, if there is one. -/
def commentMember : Option String → List (String × Json)
  | none => []
  | some comment => [("comment", .str comment)]

namespace EnumMember

def toJson (v : EnumMember) : Json :=
  .obj ([("name", .str v.name), ("number", .int v.number.toInt)] ++ commentMember v.comment)

end EnumMember

namespace EnumType

def toJson (e : EnumType) : Json :=
  .obj [("name", .str e.name), ("values", .arr (e.members.map EnumMember.toJson))]

end EnumType

mutual
def typeToJson : FieldType → Json
  | .scalar s => .obj [("kind", .str "scalar"), ("scalar", .str s.name)]
  | .enum e => .obj [("kind", .str "enum"), ("enum_type", e.toJson)]
  | .message m => .obj [("kind", .str "message"), ("message", messageToJson m)]
  | .map key value =>
    .obj [("kind", .str "map"), ("key", .str key.name), ("value", typeToJson value)]
  | .group => .obj [("kind", .str "group")]

def messageToJson : MessageOf FieldType → Json
  | ⟨name, fields, enums⟩ =>
    .obj [("name", .str name), ("fields", .arr (fieldsToJson fields)),
      ("enums", .arr (enums.map EnumType.toJson))]

def fieldsToJson : List (FieldOf FieldType) → List Json
  | [] => []
  | f :: rest => fieldToJson f :: fieldsToJson rest

def fieldToJson : FieldOf FieldType → Json
  | ⟨name, number, cardinality, type, comment⟩ =>
    .obj ([("name", .str name), ("number", .int number.toInt),
      ("cardinality", .str cardinality.name), ("type", typeToJson type)] ++ commentMember comment)
end

/-! ## Reading -/

namespace EnumMember

def ofJson? (j : Json) : Option EnumMember := do
  let members ← j.record? ["name", "number", "comment"]
  some {
    name := ← required? members "name" str?
    number := ← required? members "number" int64?
    comment := ← comment? members "comment" }

end EnumMember

namespace EnumType

def ofJson? (j : Json) : Option EnumType := do
  let members ← j.record? ["name", "values"]
  some {
    name := ← required? members "name" str?
    members := ← optional? members "values" (list? EnumMember.ofJson?) [] }

end EnumType

/-- The kinds of type, in the order of their places. -/
def typeKinds : List String := ["scalar", "enum", "message", "map", "group"]

/-- The kind of a type. -/
def typeKind? (inner : Bool) : Json → Option String
  | .str s => if s ∈ typeKinds then some s else none
  | .int n => if inner && 0 ≤ n then typeKinds[n.toNat]? else none
  | _ => none

mutual
/-- Reads a message; `inner` says that it stands inside a type. -/
def messageOfJson? (inner : Bool) : Json → Option Message
  | .obj members =>
    if unrepeated ["name", "fields", "enums"] members then do
      let name ← required? members "name" str?
      let fields ← fieldsMember? inner members
      let enums ← optional? members "enums" (list? EnumType.ofJson?) []
      some ⟨name, fields, enums⟩
    else none
  | .arr [name] => do some ⟨← name.str?, [], []⟩
  | .arr [name, fields] => do some ⟨← name.str?, ← fieldListOfJson? inner fields, []⟩
  | .arr [name, fields, enums] => do
    some ⟨← name.str?, ← fieldListOfJson? inner fields, ← enums.list? EnumType.ofJson?⟩
  | _ => none

/-- The fields of a message, none if it says nothing of them. -/
def fieldsMember? (inner : Bool) : List (String × Json) → Option (List Field)
  | [] => some []
  | (key, value) :: rest =>
    if key = "fields" then fieldListOfJson? inner value else fieldsMember? inner rest

/-- Fields as a list; nothing else stands for one. -/
def fieldListOfJson? (inner : Bool) : Json → Option (List Field)
  | .arr items => fieldsOfJson? inner items
  | _ => none

def fieldsOfJson? (inner : Bool) : List Json → Option (List Field)
  | [] => some []
  | item :: rest => do
    let field ← fieldOfJson? inner item
    let fields ← fieldsOfJson? inner rest
    some (field :: fields)

def fieldOfJson? (inner : Bool) : Json → Option Field
  | .obj members =>
    if unrepeated ["name", "number", "cardinality", "type", "comment"] members then do
      let name ← required? members "name" str?
      let number ← required? members "number" int32?
      let cardinality ←
        optional? members "cardinality" (name? inner Cardinality.ofName?) .singular
      let type ← typeMember? inner members
      let comment ← comment? members "comment"
      some ⟨name, number, cardinality, type, comment⟩
    else none
  | .arr (name :: number :: cardinality :: type :: rest) => do
    let name ← name.str?
    let number ← number.int32?
    let cardinality ← cardinality.name? inner Cardinality.ofName?
    let type ← if type.isReadable then typeOfJson? inner type else none
    let comment ← match rest with
      | [] => some none
      | [comment] => comment.text?
      | _ => none
    some ⟨name, number, cardinality, type, comment⟩
  | _ => none

/-- The type of a field. -/
def typeMember? (inner : Bool) : List (String × Json) → Option FieldType
  | [] => none
  | (key, value) :: rest =>
    if key = "type" then
      if value.isReadable then typeOfJson? inner value else none
    else typeMember? inner rest

def typeOfJson? (inner : Bool) : Json → Option FieldType
  | .obj members =>
    if unrepeated ["kind"] members then
      match (members.lookup "kind").bind (typeKind? inner) with
      | some "scalar" =>
        if unrepeated ["scalar"] members then
          (required? members "scalar" (name? true Scalar.ofName?)).map .scalar
        else none
      | some "enum" =>
        if unrepeated ["enum_type"] members then
          (required? members "enum_type" EnumType.ofJson?).map .enum
        else none
      | some "message" =>
        if unrepeated ["message"] members then (messageMember? members).map .message else none
      | some "map" =>
        if unrepeated ["key", "value"] members then do
          let key ← required? members "key" (name? true Scalar.ofName?)
          let value ← valueMember? members
          some (.map key value)
        else none
      | some "group" => some .group
      | _ => none
    else none
  | .arr [kind] => if typeKind? inner kind = some "group" then some .group else none
  | .arr [kind, item] =>
    match typeKind? inner kind with
    | some "scalar" => (item.name? true Scalar.ofName?).map .scalar
    | some "enum" => (EnumType.ofJson? item).map .enum
    | some "message" => (messageOfJson? true item).map .message
    | _ => none
  | .arr [kind, key, value] =>
    if typeKind? inner kind = some "map" then do
      some (.map (← key.name? true Scalar.ofName?) (← typeOfJson? true value))
    else none
  | _ => none

/-- The message of a message type. -/
def messageMember? : List (String × Json) → Option Message
  | [] => none
  | (key, value) :: rest =>
    if key = "message" then messageOfJson? true value else messageMember? rest

/-- The values of a map type. -/
def valueMember? : List (String × Json) → Option FieldType
  | [] => none
  | (key, value) :: rest =>
    if key = "value" then typeOfJson? true value else valueMember? rest
end

namespace MessageOf

def toJson (m : Message) : Json := messageToJson m

def ofJson? (j : Json) : Option Message := messageOfJson? false j

end MessageOf

/-! ## Texts -/

/-- How deep arrays and objects may nest in the text of a description. -/
def maxDepth : Nat := 127

/-- Why a text gives no description in order. -/
inductive TextFault where
  /-- The text is not the JSON form of any description. -/
  | unread
  | defective (defect : Defect)

/-- The description that a text gives, if it is in order. -/
def readDescription (text : String) : Except TextFault Message :=
  match (Json.Reader.read? maxDepth text).bind MessageOf.ofJson? with
  | none => .error .unread
  | some m =>
    match validate m with
    | .ok _ => .ok m
    | .error defect => .error (.defective defect)

end FieldAtlas
