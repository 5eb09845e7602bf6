import FieldAtlas.Text.Decimal

/-!
# `Failure` — why a path does not resolve

One constructor a cause, carrying what its message quotes.  The last one is different in
kind: `outside` does not name a fault but says that the path speaks of a field known to
live outside the schema, so that whatever went wrong was to be expected.
-/

namespace FieldAtlas

/-- A cause for which a path has no node. -/
inductive Failure where
  /-- No path, or nothing before its type tag. -/
  | emptyPath
  /-- The grammar reads no further than `unread`. -/
  | malformed (path unread : String)
  | manyKeys (path : String) (count : Nat)
  | otherRoot (expected found : String)
  | noField (parent field : String)
  /-- A key where only a field can stand. -/
  | strayKey (parent : String) (key : Nat)
  | badBagRemainder (bag remainder : String)
  | noMember (bag member : String)
  /-- The bag does not list the key, and no entry may be made up for it. -/
  | unlistedKey (bag : String) (key : Nat)
  | badRecordRemainder (collection remainder : String)
  | badLabelRemainder (labels remainder : String)
  /-- The member that stands for every external key is missing. -/
  | noPlaceholder (parent : String)
  | outside (path : String)
  deriving DecidableEq, Repr

namespace Failure

/-- The failure in words. -/
def message : Failure → String
  | emptyPath => "Empty path"
  | malformed path unread =>
    "Malformed path '" ++ path ++ "': unexpected input at '" ++ unread ++ "'"
  | manyKeys path count =>
    "Path '" ++ path ++ "' has " ++ Decimal.text count ++ " key markers, at most one is supported"
  | otherRoot expected found =>
    "Path should start with '" ++ expected ++ "', but is '" ++ found ++ "'"
  | noField parent field => "No field '" ++ field ++ "' under '" ++ parent ++ "'"
  | strayKey parent key => "Unexpected key:" ++ Decimal.text key ++ " under '" ++ parent ++ "'"
  | badBagRemainder bag remainder =>
    "Wrong format under attribute bag '" ++ bag ++
      "', should be enum name or key:<int>, but is '" ++ remainder ++ "'"
  | noMember bag member => "No member '" ++ member ++ "' in attribute bag '" ++ bag ++ "'"
  | unlistedKey bag key =>
    "Attribute bag '" ++ bag ++ "' has no key:" ++ Decimal.text key ++ " and synthesis is disabled"
  | badRecordRemainder collection remainder =>
    "Wrong format for keyed collection '" ++ collection ++
      "', should be key:<int>, but is '" ++ remainder ++ "'"
  | badLabelRemainder labels remainder =>
    "Wrong format for label map '" ++ labels ++
      "', should be key:<int>, but is '" ++ remainder ++ "'"
  | noPlaceholder parent => "Label map '" ++ parent ++ "' has no placeholder member"
  | outside path => "Path '" ++ path ++ "' refers to a field outside the schema"

/-- Failures that are expected, and therefore not reported. -/
def isExpected : Failure → Bool
  | outside _ => true
  | _ => false

end Failure

end FieldAtlas
