import FieldAtlas.Json.Record
import FieldAtlas.Text.Search

/-!
# `Vocabulary` — the names that carry meaning in a family of schemas

The tree is built by name: a field of one name marks an attribute bag, certain types are
keyed records, certain fields are never expanded, and a few render as a fixed text.  All these
names are data, so that another family of schemas brings its own.
-/

namespace FieldAtlas

/-- The names that decide what becomes of a field. -/
structure Vocabulary where
  /-- The field that holds an attribute's number and marks its message as a bag. -/
  selectorField : String := "name_value"
  /-- The field that must stand beside it. -/
  valueField : String := "int_value"
  /-- How the names of those nested enums begin that list the members of a bag. -/
  memberEnumPrefix : String := "Name"
  /-- The bags whose single member stands for every key. -/
  mapFlavorTypes : List String := ["LabelAttr"]
  /-- The types of keyed records. -/
  keyedRecordTypes : List String :=
    ["SimpleAdDspInfos", "SimpleAdDspInfosV2", "SimpleFansTopInfos", "SimpleLiveInfos",
     "AdActionInfoList"]
  /-- The field of a keyed record whose children are indexed by type, where there is one. -/
  recordListField : String := "list"
  /-- The fields that are leaves whatever their type. -/
  passthroughFields : List String := ["serialized_reco_user_info"]
  /-- Fields and the flattened path that each renders as; the fields are distinct. -/
  fixedPaths : List (String × String) :=
    [("tube_item_info", "item_tube_item_info"),
     ("tube_user_info", "user_info_tube_user_info")]
  deriving DecidableEq, Repr

namespace Vocabulary

def isMapFlavor (v : Vocabulary) (type : String) : Bool := v.mapFlavorTypes.contains type

def isKeyedRecord (v : Vocabulary) (type : String) : Bool := v.keyedRecordTypes.contains type

def isMemberEnum (v : Vocabulary) (enum : String) : Bool :=
  Text.startsWith v.memberEnumPrefix enum

def isPassthrough (v : Vocabulary) (field : String) : Bool := v.passthroughFields.contains field

def fixedPath? (v : Vocabulary) (field : String) : Option String := v.fixedPaths.lookup field

def addKeyedRecord (v : Vocabulary) (type : String) : Vocabulary :=
  { v with keyedRecordTypes := v.keyedRecordTypes ++ [type] }

def addMapFlavor (v : Vocabulary) (type : String) : Vocabulary :=
  { v with mapFlavorTypes := v.mapFlavorTypes ++ [type] }

/-! ## As JSON -/

open Json

def toJson (v : Vocabulary) : Json :=
  .obj [
    ("selector_field", .str v.selectorField),
    ("value_field", .str v.valueField),
    ("member_enum_prefix", .str v.memberEnumPrefix),
    ("map_flavor_types", strings v.mapFlavorTypes),
    ("keyed_record_types", strings v.keyedRecordTypes),
    ("record_list_field", .str v.recordListField),
    ("passthrough_fields", strings v.passthroughFields),
    ("flattened_aliases", .obj (v.fixedPaths.map fun (field, path) => (field, .str path)))]

/-- Reads a vocabulary; what is absent has its default. -/
def ofJson? (j : Json) : Option Vocabulary := do
  let members ← j.record? ["selector_field", "value_field", "member_enum_prefix",
    "map_flavor_types", "keyed_record_types", "record_list_field", "passthrough_fields",
    "flattened_aliases"]
  let base : Vocabulary := {}
  some {
    selectorField := ← optional? members "selector_field" str? base.selectorField
    valueField := ← optional? members "value_field" str? base.valueField
    memberEnumPrefix := ← optional? members "member_enum_prefix" str? base.memberEnumPrefix
    mapFlavorTypes := ← optional? members "map_flavor_types" strings? base.mapFlavorTypes
    keyedRecordTypes := ← optional? members "keyed_record_types" strings? base.keyedRecordTypes
    recordListField := ← optional? members "record_list_field" str? base.recordListField
    passthroughFields := ← optional? members "passthrough_fields" strings? base.passthroughFields
    fixedPaths :=
      ← optional? members "flattened_aliases" dictionary? base.fixedPaths }

end Vocabulary

end FieldAtlas
