import FieldAtlas.Shape
import FieldAtlas.Text.Decimal
import FieldAtlas.Text.Search

/-!
# `Entry` — what a node says of itself

Everything about a node that does not depend on where it stands.  The declared type is kept
as the builder wrote it, with `repeated` in front where that applies; `typeName` is the
declared type without the `_t` of a type alias.

An entry answers to its name.  A numbered entry, which only a member of an enum can be, answers
to its ordinal as well.
-/

namespace FieldAtlas

/-- What a node is, apart from its number and its ancestors. -/
structure Entry where
  name : String
  declaredType : String
  ordinal : Int
  shape : Shape := .plain
  comment : Option String := none
  /-- The flattened path that takes the place of the way from the root. -/
  fixedPath : Option String := none
  /-- Whether the entry is registered under its ordinal too. -/
  numbered : Bool := false
  /-- The type of each leaf of a record, on keyed records; the names are distinct. -/
  leafTypes : List (String × String) := []
  deriving DecidableEq, Repr

namespace Entry

/-- A comment; an empty one counts as none. -/
def keptComment (comment : Option String) : Option String := comment.filter (· ≠ "")

/-- The keys under which the entry is registered at its parent. -/
def keys (e : Entry) : List String :=
  if e.numbered then [e.name, Decimal.text e.ordinal] else [e.name]

/-- The declared type without the ending of a type alias. -/
def typeName (e : Entry) : String := Text.dropEnding "_t" e.declaredType

/-- Read off the text of the declared type, wherever in it the word stands. -/
def isRepeated (e : Entry) : Bool := Text.contains "repeated" e.declaredType

def leafType? (e : Entry) (field : String) : Option String := e.leafTypes.lookup field

/-- Sets the type of one leaf. -/
def setLeafType (e : Entry) (field type : String) : Entry :=
  { e with leafTypes := e.leafTypes.filter (·.1 != field) ++ [(field, type)] }

/-- The entry made up for a key that a bag does not list. -/
def ofKey (key : Int) : Entry :=
  { name := Decimal.text key, declaredType := "int64", ordinal := key, shape := .enumMarker }

end Entry

end FieldAtlas
