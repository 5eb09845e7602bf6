/-!
# `Shape` — what a node of the tree is

Most nodes are `plain`.  The other five shapes change how a path is read below the node, how
the node is rendered, or both:

* an `enumMarker` is a leaf that comes from an enum, a member or the bare field itself;
* an attribute bag lists its members (`listBag`), or has one placeholder member that stands
  for every key (`mapBag`);
* a `keyedRecords` node is a collection of records, each behind a key;
* a `labelMap` is a map whose values are attribute bags of the second kind.
-/

namespace FieldAtlas

/-- The shape of a node. -/
inductive Shape where
  | plain | enumMarker | listBag | mapBag | keyedRecords | labelMap
  deriving DecidableEq, Repr

namespace Shape

def all : List Shape := [plain, enumMarker, listBag, mapBag, keyedRecords, labelMap]

def name : Shape → String
  | plain => "Plain"
  | enumMarker => "EnumMarker"
  | listBag => "AttributeBagList"
  | mapBag => "AttributeBagMap"
  | keyedRecords => "KeyedRecordCollection"
  | labelMap => "LabelMap"

def ofName? (s : String) : Option Shape := all.find? (·.name == s)

/-- Both kinds of attribute bag, and nothing else, are bags. -/
def isBag : Shape → Bool
  | listBag | mapBag => true
  | plain | enumMarker | keyedRecords | labelMap => false

/-- Shapes whose one placeholder member stands for a key that the schema does not know. -/
def takesExternalKey : Shape → Bool
  | mapBag | labelMap => true
  | plain | enumMarker | listBag | keyedRecords => false

end Shape

/-- The two kinds of attribute bag. -/
inductive BagFlavor where
  /-- The members are enumerated. -/
  | list
  /-- One placeholder stands for every key. -/
  | map
  deriving DecidableEq, Repr

namespace BagFlavor

def name : BagFlavor → String
  | list => "List"
  | map => "Map"

end BagFlavor

/-- What a message type turns into. -/
inductive MessageClass where
  | structural
  | bag (flavor : BagFlavor)
  | keyedRecords
  deriving DecidableEq, Repr

namespace MessageClass

def name : MessageClass → String
  | structural => "Structural"
  | bag flavor => "AttributeBag(" ++ flavor.name ++ ")"
  | keyedRecords => "KeyedRecords"

def flavor? : MessageClass → Option BagFlavor
  | bag flavor => some flavor
  | structural | keyedRecords => none

end MessageClass

end FieldAtlas
