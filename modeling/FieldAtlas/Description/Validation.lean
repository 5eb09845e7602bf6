import FieldAtlas.Description.Basic
import FieldAtlas.Text.Decimal

/-!
# `Description.Validation` — descriptions in order

A message is in order if its name is not empty, its fields have nonempty and distinct names
and types in order, and its nested enums have names.  A type is in order if the messages it
leads to are, its enum has a name, and it is no map of maps or groups.

`messageDefect?` finds the first violation depth first: the name, then field by field the
name, a repetition, and the type, and the nested enums last.
-/

namespace FieldAtlas

/-- What is wrong with a description. -/
inductive Defect where
  | namelessMessage
  | namelessField (number : Int32) (message : String)
  | repeatedField (field message : String)
  /-- A map of maps, or of groups. -/
  | mapValue (message field : String)
  | namelessFieldEnum (message field : String)
  | namelessNestedEnum (message : String)
  deriving DecidableEq, Repr

namespace Defect

def message : Defect → String
  | namelessMessage => "message type with empty name"
  | namelessField number message =>
    "field #" ++ Decimal.text number.toInt ++ " of '" ++ message ++ "' has an empty name"
  | repeatedField field message => "duplicate field '" ++ field ++ "' in '" ++ message ++ "'"
  | mapValue message field =>
    "map field '" ++ message ++ "." ++ field ++ "' has an unsupported value type"
  | namelessFieldEnum message field =>
    "enum field '" ++ message ++ "." ++ field ++ "' has no type name"
  | namelessNestedEnum message => "nested enum with empty name in '" ++ message ++ "'"

end Defect

mutual
/-- The first defect of a message. -/
def messageDefect? : MessageOf FieldType → Option Defect
  | ⟨name, fields, enums⟩ =>
    if name = "" then some .namelessMessage
    else fieldsDefect? name [] fields <|>
      if enums.any (·.name == "") then some (.namelessNestedEnum name) else none

/-- The first defect of the fields of a message; `seen` holds the names before them. -/
def fieldsDefect? (message : String) (seen : List String) :
    List (FieldOf FieldType) → Option Defect
  | [] => none
  | ⟨name, number, _, type, _⟩ :: rest =>
    if name = "" then some (.namelessField number message)
    else if name ∈ seen then some (.repeatedField name message)
    else typeDefect? message name type <|> fieldsDefect? message (name :: seen) rest

/-- The first defect of the type of a field. -/
def typeDefect? (message field : String) : FieldType → Option Defect
  | .scalar _ | .group => none
  | .enum e => if e.name = "" then some (.namelessFieldEnum message field) else none
  | .message m => messageDefect? m
  | .map _ value =>
    match value with
    | .map _ _ | .group => some (.mapValue message field)
    | .scalar _ | .enum _ | .message _ => typeDefect? message field value
end

/-- Whether a description is in order, and what is wrong with it first if it is not. -/
def validate (m : Message) : Except Defect Unit :=
  match messageDefect? m with
  | none => .ok ()
  | some defect => .error defect

end FieldAtlas
