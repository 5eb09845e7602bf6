import FieldAtlas.Text.Search

/-!
# `TypeTag` — the value types that a path may end in

A path may close with `:tag`, and the tag then overrides the declared type of the field.
The list of tags is closed and each has exactly one spelling.  `map_unit64_bool` is a
member of its own beside `map_uint64_bool`, because existing paths are written both ways.
-/

namespace FieldAtlas

/-- A value type that a path may end in. -/
inductive TypeTag where
  | int | int64 | uint | uint64 | float | str | string | bool
  | intList | int64List | uintList | uint64List | floatList | strList | stringList
  | mapInt64Int64 | mapIntInt | mapIntFloat | mapInt64Float | mapIntString | mapInt64String
  | mapIntBool | mapInt64Bool | mapUint64Bool | mapUnit64Bool
  deriving DecidableEq, Repr

namespace TypeTag

def all : List TypeTag :=
  [int, int64, uint, uint64, float, str, string, bool,
   intList, int64List, uintList, uint64List, floatList, strList, stringList,
   mapInt64Int64, mapIntInt, mapIntFloat, mapInt64Float, mapIntString, mapInt64String,
   mapIntBool, mapInt64Bool, mapUint64Bool, mapUnit64Bool]

/-- The tag as a path writes it. -/
def spelling : TypeTag → String
  | int => "int"
  | int64 => "int64"
  | uint => "uint"
  | uint64 => "uint64"
  | float => "float"
  | str => "str"
  | string => "string"
  | bool => "bool"
  | intList => "int_list"
  | int64List => "int64_list"
  | uintList => "uint_list"
  | uint64List => "uint64_list"
  | floatList => "float_list"
  | strList => "str_list"
  | stringList => "string_list"
  | mapInt64Int64 => "map_int64_int64"
  | mapIntInt => "map_int_int"
  | mapIntFloat => "map_int_float"
  | mapInt64Float => "map_int64_float"
  | mapIntString => "map_int_string"
  | mapInt64String => "map_int64_string"
  | mapIntBool => "map_int_bool"
  | mapInt64Bool => "map_int64_bool"
  | mapUint64Bool => "map_uint64_bool"
  | mapUnit64Bool => "map_unit64_bool"

/-- The tag of exactly this spelling. -/
def ofSpelling? (s : String) : Option TypeTag := all.find? (·.spelling == s)

def isInt : TypeTag → Bool
  | int | int64 | uint | uint64 => true
  | _ => false

def isFloat : TypeTag → Bool
  | float => true
  | _ => false

def isStr : TypeTag → Bool
  | str | string => true
  | _ => false

def isList (t : TypeTag) : Bool := Text.endsWith "_list" t.spelling

def isMap (t : TypeTag) : Bool := Text.startsWith "map_" t.spelling

/-- Reading inverts spelling. -/
theorem ofSpelling?_spelling (t : TypeTag) : ofSpelling? t.spelling = some t := by
  cases t <;> decide

/-- Only a spelling is read as a tag. -/
theorem eq_spelling_of_ofSpelling? {s : String} {t : TypeTag} (h : ofSpelling? s = some t) :
    s = t.spelling := by
  have := List.find?_some h
  exact (eq_of_beq this).symm

/-- No tag holds a colon, so a tag is what follows the last colon of a path that has one. -/
theorem colon_not_mem_spelling (t : TypeTag) : ':' ∉ t.spelling.toList := by
  cases t <;> decide

end TypeTag

end FieldAtlas
