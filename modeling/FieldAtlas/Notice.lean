import FieldAtlas.Failure
import FieldAtlas.SchemaError

/-!
# `Notice` — what the library reports while it works

Nothing here prints.  A function that has something to report returns a `Noted` value, which
pairs its result with its notices in the order in which they arise, and whoever runs it decides
where they go.
-/

namespace FieldAtlas

/-- How serious a notice is. -/
inductive Level where
  | error | warn | info | debug
  deriving DecidableEq, Repr

namespace Level

def name : Level → String
  | error => "ERROR"
  | warn => "WARN"
  | info => "INFO"
  | debug => "DEBUG"

end Level

/-- An occasion for a report, with what its text quotes. -/
inductive Notice where
  | buildStarted (root type : String)
  | treeSized (root : String) (nodes : Nat)
  | buildDone (root : String)
  | buildFailed (root : String) (reason : SchemaError)
  | repeatedKey (key parent : String)
  | skippedMapValue (type field : String)
  | skippedGroup (type field : String)
  | namelessLeaf (type : String)
  | synthesized (key : Nat) (bag : String)
  | skippedPath (path : String)
  | unresolved (path : String) (failure : Failure)
  | logFull (capacity : Nat)
  | noEnumName (path : String)
  | keyMissing (node : String) (shape : Shape)
  deriving DecidableEq, Repr

namespace Notice

def level : Notice → Level
  | buildStarted _ _ | buildDone _ | skippedMapValue _ _ | skippedGroup _ _ | namelessLeaf _
  | noEnumName _ => .info
  | treeSized _ _ | repeatedKey _ _ | synthesized _ _ | skippedPath _ => .debug
  | logFull _ => .warn
  | buildFailed _ _ | unresolved _ _ | keyMissing _ _ => .error

def text : Notice → String
  | buildStarted root type =>
    "Start building schema tree '" ++ root ++ "' from '" ++ type ++ "'"
  | treeSized root nodes =>
    "Schema tree '" ++ root ++ "' built with " ++ Decimal.text nodes ++ " nodes"
  | buildDone root => "Build schema tree '" ++ root ++ "' success"
  | buildFailed root reason =>
    "build schema tree '" ++ root ++ "' failed: " ++ reason.message
  | repeatedKey key parent =>
    "Duplicate child key '" ++ key ++ "' under '" ++ parent ++ "', keeping the first"
  | skippedMapValue type field =>
    "ignore, map value type: " ++ type ++ ", field_name: " ++ field
  | skippedGroup type field => "ignore, field type: " ++ type ++ ", field_name: " ++ field
  | namelessLeaf type => "field name is empty! type_str: " ++ type
  | synthesized key bag =>
    "synthesize attribute entry key:" ++ Decimal.text key ++ " under '" ++ bag ++ "'"
  | skippedPath path => "skip non-schema field: " ++ path
  | unresolved path failure =>
    "cannot resolve field path '" ++ path ++ "': " ++ failure.message
  | logFull capacity =>
    "diagnostic log full (" ++ Decimal.text capacity ++ " entries), evicting oldest entries"
  | noEnumName path => "cannot find attribute enum name, path: " ++ path
  | keyMissing node shape =>
    "node '" ++ node ++ "' (" ++ shape.name ++ ") must be rendered with an explicit key"

end Notice

/-- A result together with what was reported on the way to it. -/
structure Noted (α : Type) where
  value : α
  notices : List Notice := []

namespace Noted

instance : Monad Noted where
  pure a := ⟨a, []⟩
  bind x f := ⟨(f x.value).value, x.notices ++ (f x.value).notices⟩

/-- Reports one notice. -/
def report (n : Notice) : Noted Unit := ⟨(), [n]⟩

@[simp] theorem value_pure {α : Type} (a : α) : (pure a : Noted α).value = a := rfl

@[simp] theorem notices_pure {α : Type} (a : α) : (pure a : Noted α).notices = [] := rfl

@[simp] theorem value_bind {α β : Type} (x : Noted α) (f : α → Noted β) :
    (x >>= f).value = (f x.value).value := rfl

@[simp] theorem notices_bind {α β : Type} (x : Noted α) (f : α → Noted β) :
    (x >>= f).notices = x.notices ++ (f x.value).notices := rfl

@[simp] theorem value_map {α β : Type} (x : Noted α) (f : α → β) :
    (f <$> x).value = f x.value := rfl

@[simp] theorem notices_map {α β : Type} (x : Noted α) (f : α → β) :
    (f <$> x).notices = x.notices := List.append_nil _

end Noted

end FieldAtlas
