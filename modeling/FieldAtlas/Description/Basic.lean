/-!
# `Description` — message types as data

What a log message looks like: messages with ordered fields and nested enums.  A message type
is held by value wherever a field refers to it, so a description is a finite tree and every
function on it is a structural recursion.

The only type that contains itself is `FieldType`.  `FieldOf` and `MessageOf` are ordinary
records with the type of their fields left open, and `Field` and `Message` close the knot.

Nothing is required of a description at this point.  Empty and repeated names are permitted,
and `Description.Validation` says which descriptions are in order.
-/

namespace FieldAtlas

/-- The scalar types of fields and map keys. -/
inductive Scalar where
  | int32 | int64 | uint32 | uint64 | sint32 | sint64 | fixed32 | fixed64
  | float | double | bool | string | bytes
  deriving DecidableEq, Repr

namespace Scalar

def all : List Scalar :=
  [int32, int64, uint32, uint64, sint32, sint64, fixed32, fixed64,
   float, double, bool, string, bytes]

def name : Scalar → String
  | int32 => "int32"
  | int64 => "int64"
  | uint32 => "uint32"
  | uint64 => "uint64"
  | sint32 => "sint32"
  | sint64 => "sint64"
  | fixed32 => "fixed32"
  | fixed64 => "fixed64"
  | float => "float"
  | double => "double"
  | bool => "bool"
  | string => "string"
  | bytes => "bytes"

def ofName? (s : String) : Option Scalar := all.find? (·.name == s)

theorem ofName?_name (s : Scalar) : ofName? s.name = some s := by cases s <;> decide

def isInteger : Scalar → Bool
  | int32 | int64 | uint32 | uint64 | sint32 | sint64 | fixed32 | fixed64 => true
  | float | double | bool | string | bytes => false

end Scalar

/-- Whether a field holds one value or many. -/
inductive Cardinality where
  | singular | repeated
  deriving DecidableEq, Repr

namespace Cardinality

def name : Cardinality → String
  | singular => "singular"
  | repeated => "repeated"

def ofName? (s : String) : Option Cardinality :=
  if s = "singular" then some singular else if s = "repeated" then some repeated else none

theorem ofName?_name (c : Cardinality) : ofName? c.name = some c := by cases c <;> decide

end Cardinality

/-- A named number of an enum. -/
structure EnumMember where
  name : String
  number : Int64
  comment : Option String := none
  deriving DecidableEq, Repr

/-- An enum, nested in a message or named by a field.  Members may share names or numbers. -/
structure EnumType where
  name : String
  members : List EnumMember := []
  deriving DecidableEq, Repr

namespace EnumType

/-- The first member of this name. -/
def member? (e : EnumType) (name : String) : Option EnumMember :=
  e.members.find? (·.name == name)

end EnumType

/-- A field whose type is a `τ`. -/
structure FieldOf (τ : Type) where
  name : String
  number : Int32
  cardinality : Cardinality := .singular
  type : τ
  comment : Option String := none

/-- A message whose fields have types in `τ`. -/
structure MessageOf (τ : Type) where
  name : String
  fields : List (FieldOf τ) := []
  enums : List EnumType := []

/-- The type of a field. -/
inductive FieldType where
  | scalar (scalar : Scalar)
  | enum (type : EnumType)
  | message (type : MessageOf FieldType)
  | map (key : Scalar) (value : FieldType)
  /-- A legacy aggregate, which has no place in a tree of fields. -/
  | group

abbrev Field := FieldOf FieldType

abbrev Message := MessageOf FieldType

namespace FieldType

/-- The name of the kind of type.  Maps count as messages, since their entries are. -/
def name : FieldType → String
  | scalar s => s.name
  | enum _ => "enum"
  | message _ | map _ _ => "message"
  | group => "group"

/-- Scalars and enums, which have no fields. -/
def isBasic : FieldType → Bool
  | scalar _ | enum _ => true
  | message _ | map _ _ | group => false

def isMap : FieldType → Bool
  | map _ _ => true
  | _ => false

def scalar? : FieldType → Option Scalar
  | scalar s => some s
  | _ => none

def enum? : FieldType → Option EnumType
  | enum e => some e
  | _ => none

def message? : FieldType → Option Message
  | message m => some m
  | _ => none

end FieldType

namespace MessageOf

/-- The first field of this name. -/
def field? {τ : Type} (m : MessageOf τ) (name : String) : Option (FieldOf τ) :=
  m.fields.find? (·.name == name)

/-- The first nested enum of this name. -/
def enum? {τ : Type} (m : MessageOf τ) (name : String) : Option EnumType :=
  m.enums.find? (·.name == name)

end MessageOf

/-! ## Equality

Decided by one recursion on the first argument, since no instance is derived through a list of
records. -/

mutual
def FieldType.same : FieldType → FieldType → Bool
  | .scalar s, .scalar t => s == t
  | .enum e, .enum f => e == f
  | .message m, .message n => messageSame m n
  | .map k v, .map l w => k == l && v.same w
  | .group, .group => true
  | _, _ => false

def messageSame : MessageOf FieldType → MessageOf FieldType → Bool
  | ⟨name, fields, enums⟩, n => name == n.name && fieldsSame fields n.fields && enums == n.enums

def fieldsSame : List (FieldOf FieldType) → List (FieldOf FieldType) → Bool
  | [], [] => true
  | f :: fs, g :: gs => fieldSame f g && fieldsSame fs gs
  | _, _ => false

def fieldSame : FieldOf FieldType → FieldOf FieldType → Bool
  | ⟨name, number, cardinality, type, comment⟩, g =>
    name == g.name && number == g.number && cardinality == g.cardinality && type.same g.type &&
      comment == g.comment
end

mutual
theorem FieldType.same_iff : ∀ a b : FieldType, a.same b = true ↔ a = b
  | .scalar s, b => by cases b <;> simp [FieldType.same]
  | .enum e, b => by cases b <;> simp [FieldType.same]
  | .message m, b => by
    cases b <;> simp [FieldType.same, messageSame_iff m]
  | .map k v, b => by
    cases b <;> simp [FieldType.same, FieldType.same_iff v]
  | .group, b => by cases b <;> simp [FieldType.same]

theorem messageSame_iff : ∀ m n : MessageOf FieldType, messageSame m n = true ↔ m = n
  | ⟨name, fields, enums⟩, ⟨_, _, _⟩ => by
    simp [messageSame, fieldsSame_iff fields, and_assoc]

theorem fieldsSame_iff : ∀ fs gs : List (FieldOf FieldType), fieldsSame fs gs = true ↔ fs = gs
  | [], gs => by cases gs <;> simp [fieldsSame]
  | f :: fs, gs => by
    cases gs with
    | nil => simp [fieldsSame]
    | cons g gs => simp [fieldsSame, fieldSame_iff f, fieldsSame_iff fs]

theorem fieldSame_iff : ∀ f g : FieldOf FieldType, fieldSame f g = true ↔ f = g
  | ⟨name, number, cardinality, type, comment⟩, ⟨_, _, _, _, _⟩ => by
    simp [fieldSame, FieldType.same_iff type, and_assoc]
end

instance : DecidableEq Message := fun m n => decidable_of_iff _ (messageSame_iff m n)

end FieldAtlas
