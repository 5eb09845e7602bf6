import FieldAtlas.Description.Basic
import FieldAtlas.Shape
import FieldAtlas.Vocabulary

/-!
# `Classification` — which messages have a special shape

A vocabulary stands for a table of two rules, tried in order.  A message that has the selector
field and the value field, of the right kinds, is an attribute bag.  Else, a message whose
name is on the list of keyed records is one.  A message that meets neither rule is structural.

So a bag stays a bag although its name is on the list.  Which kind of bag it is depends on
its name alone.
-/

namespace FieldAtlas

/-- What the type of a required field has to be. -/
inductive FieldKind where
  | any | scalar | integer
  deriving DecidableEq, Repr

namespace FieldKind

def name : FieldKind → String
  | any => "Any"
  | scalar => "Scalar"
  | integer => "Integer"

/-- Cardinality does not matter. -/
def accepts (kind : FieldKind) (f : Field) : Bool :=
  match kind with
  | any => true
  | scalar => f.type.scalar?.isSome
  | integer => f.type.scalar?.any Scalar.isInteger

end FieldKind

/-- A condition on a message. -/
inductive ShapeTest where
  /-- Each field is there, and the first of its name has the kind. -/
  | hasFields (fields : List (String × FieldKind))
  | isNamed (names : List String)
  deriving DecidableEq, Repr

namespace ShapeTest

/-- An empty list of fields accepts nothing. -/
def holds (test : ShapeTest) (m : Message) : Bool :=
  match test with
  | hasFields fields =>
    !fields.isEmpty && fields.all fun (name, kind) => (m.field? name).any kind.accepts
  | isNamed names => names.contains m.name

end ShapeTest

/-- What a rule makes of the messages that pass its test. -/
inductive ShapeVerdict where
  | attributeBag | keyedRecords
  deriving DecidableEq, Repr

namespace ShapeVerdict

def name : ShapeVerdict → String
  | attributeBag => "AttributeBag"
  | keyedRecords => "KeyedRecords"

end ShapeVerdict

/-- A test and the verdict on what passes it. -/
structure ShapeRule where
  test : ShapeTest
  verdict : ShapeVerdict
  deriving DecidableEq, Repr

namespace Vocabulary

/-- The rules in the order in which they are tried. -/
def rules (v : Vocabulary) : List ShapeRule :=
  [⟨.hasFields [(v.selectorField, .integer), (v.valueField, .scalar)], .attributeBag⟩,
   ⟨.isNamed v.keyedRecordTypes, .keyedRecords⟩]

/-- Which kind of bag a message is, if it is one: its name decides. -/
def flavor (v : Vocabulary) (m : Message) : BagFlavor :=
  if v.isMapFlavor m.name then .map else .list

/-- What the first rule that holds makes of the message. -/
def classify (v : Vocabulary) (m : Message) : MessageClass :=
  match v.rules.find? (·.test.holds m) with
  | none => .structural
  | some ⟨_, .attributeBag⟩ => .bag (v.flavor m)
  | some ⟨_, .keyedRecords⟩ => .keyedRecords

end Vocabulary

end FieldAtlas
