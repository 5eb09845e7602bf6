import FieldAtlas.Json.Record
import FieldAtlas.Resolution.Basic

/-!
# `FieldSummary` — one referenced field in brief

The canonical dotted path of a field, the number of the attribute that it is, or 0, and its value
type.  The types are those of tags and of declarations, so the same kind of value goes by
several names.
-/

namespace FieldAtlas

/-- What a reader of logs needs to know of a field. -/
structure FieldSummary where
  path : String := ""
  attributeId : Int := 0
  valueType : String := ""
  deriving DecidableEq, Repr

namespace FieldSummary

/-- The number of an attribute entry: the key given for a placeholder, or else the member's own
number. -/
def attributeIdOf (r : Resolution) : Int :=
  if r.kind = .attributeEntry then
    match r.labelKey with
    | some key => key
    | none => r.target.entry.ordinal
  else 0

/-- The summary of a result that can be rendered. -/
def ofResolution (r : Resolution) : Noted (Except MissingKey FieldSummary) :=
  (·.map fun path => ⟨path, attributeIdOf r, r.declaredType⟩) <$> r.path .dotted

/-- A summary without a path describes no field. -/
def isValid (s : FieldSummary) : Bool := s.path != ""

def isInt64 (s : FieldSummary) : Bool :=
  ["int32_t", "int", "int64", "uint64", "int64_t", "uint64_t"].contains s.valueType

def isInt64List (s : FieldSummary) : Bool := ["int_list", "int64_list"].contains s.valueType

def isFloat (s : FieldSummary) : Bool := ["float", "double"].contains s.valueType

def isFloatList (s : FieldSummary) : Bool := ["float_list", "double_list"].contains s.valueType

def isStr (s : FieldSummary) : Bool :=
  ["str", "string", "std::string", "absl::string_view"].contains s.valueType

def isStrList (s : FieldSummary) : Bool :=
  ["str_list", "string_list", "std::vector<std::string>",
   "std::vector<absl::string_view>"].contains s.valueType

/-- The piece of the path behind the first dot, which says whose field it is. -/
def scope? (s : FieldSummary) : Option String :=
  (s.path.toList.splitOn '.')[1]?.map String.ofList

def isUser (s : FieldSummary) : Bool := s.scope?.any (Text.startsWith "user")

def isContext (s : FieldSummary) : Bool := s.scope?.any (Text.startsWith "context")

def isItem (s : FieldSummary) : Bool := s.scope?.any (Text.startsWith "item")

/-! ## As JSON -/

open Json

def toJson (s : FieldSummary) : Json :=
  .obj [("path", .str s.path), ("attr_id", .int s.attributeId), ("type_str", .str s.valueType)]

def ofJson? (j : Json) : Option FieldSummary := do
  let members ← j.record? ["path", "attr_id", "type_str"]
  some {
    path := ← required? members "path" str?
    attributeId := (← required? members "attr_id" int64?).toInt
    valueType := ← required? members "type_str" str? }

end FieldSummary

end FieldAtlas
