import FieldAtlas.Description.Validation
import FieldAtlas.Shape

/-!
# `SchemaError` — why there is no tree

Building is total on fields: what does not fit is skipped with a notice.  Only the root can
stand in the way, by being absent or by having a special shape.  Defects of the description
are a third reason, for callers that ask for descriptions in order.
-/

namespace FieldAtlas

/-- A cause for which a message has no tree. -/
inductive SchemaError where
  | noRoot (root : String)
  | defective (defect : Defect)
  | shapedRoot (message : String) (found : MessageClass)
  deriving DecidableEq, Repr

namespace SchemaError

def message : SchemaError → String
  | noRoot root => "Root descriptor unavailable for '" ++ root ++ "'"
  | defective defect => "Invalid schema description: " ++ defect.message
  | shapedRoot message found =>
    "Invalid schema description: root message '" ++ message ++ "' has special shape " ++ found.name

end SchemaError

end FieldAtlas
