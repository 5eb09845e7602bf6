import FieldAtlas.Classification
import FieldAtlas.Notice
import FieldAtlas.Rose
import FieldAtlas.Tree.Entry

/-!
# `Branch` — what a message grows into

Every field of a message offers children to the node of the message, and the node enrols them
in order, a key at a time: the first that asks for a key has it.  An offer whose name is taken
is refused with its whole subtree.  A number that is taken is lost to the member that
asked for it, and the member itself stays.

What a field offers depends on the field, the vocabulary, and whether a repeated message field
lies above it, and on nothing else.  Where the node stands and how it is numbered comes later,
so two fields of the same message type grow the same children.

The offers of a field:

* a passthrough field, a scalar, and a map to scalars or enums offer one leaf;
* an enum offers each of its members, numbered, and then a marker under the field's own name;
* a message, or a map to messages, offers one node with what that message grows into.  Of an
  attribute bag only the nested enums that list members are used;
* groups, and maps to maps or groups, offer nothing and are reported.
-/

namespace FieldAtlas

/-- A subtree that is not numbered yet. -/
abbrev Branch := Rose Entry

/-- A child that a node may enrol, with the notices of its subtree, or only a notice. -/
inductive Offer where
  | child (branch : Branch) (notices : List Notice)
  | remark (notice : Notice)

namespace Branch

/-- The keys that a branch is registered under. -/
def keys (b : Branch) : List String := b.label.keys

/-- The branch, with its number given up if another has it as a key already. -/
def settle (taken : List String) : Branch → Branch
  | .node e ts =>
    .node { e with
      numbered := e.numbered && !(e.name :: taken).contains (Decimal.text e.ordinal) } ts

end Branch

/-- Enrols offers one by one under a node named `parent` that has the keys `taken`. -/
def enrol (parent : String) (taken : List String) : List Offer → Noted (List Branch)
  | [] => ⟨[], []⟩
  | .remark notice :: rest =>
    let more := enrol parent taken rest
    ⟨more.value, notice :: more.notices⟩
  | .child branch notices :: rest =>
    if taken.contains branch.label.name then
      let more := enrol parent taken rest
      ⟨more.value, .repeatedKey branch.label.name parent :: more.notices⟩
    else
      let settled := branch.settle taken
      let more := enrol parent (settled.keys ++ taken) rest
      ⟨settled :: more.value, notices ++ more.notices⟩

/-! ## Leaves and enums -/

/-- A node without children and without anything to report. -/
def leafOffer (e : Entry) : Offer := .child (.node e []) []

/-- The leaf of an enum member, in an enum written as `type`. -/
def memberEntry (type : String) (v : EnumMember) : Entry :=
  { name := v.name, declaredType := type, ordinal := v.number.toInt, shape := .enumMarker,
    comment := Entry.keptComment v.comment, numbered := true }

/-- The leaf that stands for an enum field itself. -/
def markerEntry (field : String) : Entry :=
  { name := field, declaredType := "int64", ordinal := 0, shape := .enumMarker }

/-- The members of an enum, and the marker of the field unless the field has no name. -/
def enumOffers (e : EnumType) (type field : String) : List Offer :=
  e.members.map (leafOffer <| memberEntry type ·) ++
    if field = "" then [] else [leafOffer (markerEntry field)]

/-! ## Keyed records -/

/-- The children whose types a keyed record indexes: those of its list field, or its own if it
has no such field. -/
def leafSource (v : Vocabulary) (children : List Branch) : List Branch :=
  match children.find? (·.keys.contains v.recordListField) with
  | some list => list.children
  | none => children

/-- The names of the children with their types; a child without a name has no place in it. -/
def leafIndex (source : List Branch) : List (String × String) :=
  (source.filter (·.label.name ≠ "")).map fun b => (b.label.name, b.label.typeName)

/-- A child without a name is left out of the index and reported once a key. -/
def leafNotices (source : List Branch) : List Notice :=
  (source.filter (·.label.name = "")).flatMap fun b =>
    b.keys.map fun _ => .namelessLeaf b.label.typeName

/-! ## Fields and messages -/

/-- The part of a field's entry that does not depend on its type. -/
def fieldEntry (v : Vocabulary) (ordinal : Nat) (name : String) (comment : Option String) :
    Entry :=
  { name, declaredType := "", ordinal, comment := Entry.keptComment comment,
    fixedPath := v.fixedPath? name }

/-- How a type is written for a field that may be repeated. -/
def qualified (repeated : Bool) (type : String) : String :=
  if repeated then "repeated " ++ type else type

/-- The shape of a bag, by its flavor and whether it is the value of a map. -/
def bagShape : BagFlavor → (inMap : Bool) → Shape
  | .list, _ => .listBag
  | .map, true => .labelMap
  | .map, false => .mapBag

/-- The node of an attribute bag. -/
def bagOffer (v : Vocabulary) (base : Entry) (flavor : BagFlavor) (inMap : Bool) (type : String)
    (enums : List EnumType) : Offer :=
  let members := (enums.filter (v.isMemberEnum ·.name)).flatMap fun e =>
    enumOffers e e.name base.name
  let children := enrol base.name [] members
  .child
    (.node { base with declaredType := type, shape := bagShape flavor inMap } children.value)
    children.notices

/-- The node of a message that is no bag, once its children are known. -/
def messageNode (v : Vocabulary) (base : Entry) (type : String) (keyed : Bool)
    (children : Noted (List Branch)) : Offer :=
  if keyed then
    let source := leafSource v children.value
    .child
      (.node { base with
        declaredType := type, shape := .keyedRecords, leafTypes := leafIndex source }
        children.value)
      (children.notices ++ leafNotices source)
  else .child (.node { base with declaredType := type } children.value) children.notices

mutual
/-- What a message-typed field offers. -/
def messageOffer (v : Vocabulary) (base : Entry) (repeated inMap : Bool) :
    MessageOf FieldType → Offer
  | ⟨name, fields, enums⟩ =>
    match v.classify ⟨name, fields, enums⟩ with
    | .bag flavor => bagOffer v base flavor inMap name enums
    | .structural =>
      messageNode v base (qualified repeated name) false
        (enrol base.name [] (fieldsOffers v repeated 0 fields))
    | .keyedRecords =>
      messageNode v base (qualified repeated name) true
        (enrol base.name [] (fieldsOffers v repeated 0 fields))

/-- What the fields of a message offer, the first of them at position `ordinal`.  `repeated`
says that the message is repeated, itself or by a field above it. -/
def fieldsOffers (v : Vocabulary) (repeated : Bool) (ordinal : Nat) :
    List (FieldOf FieldType) → List Offer
  | [] => []
  | f :: rest => fieldOffers v repeated ordinal f ++ fieldsOffers v repeated (ordinal + 1) rest

/-- What one field offers; a passthrough field is a leaf of the bare type, whatever it holds. -/
def fieldOffers (v : Vocabulary) (repeated : Bool) (ordinal : Nat) :
    FieldOf FieldType → List Offer
  | ⟨name, _, cardinality, type, comment⟩ =>
    let base := fieldEntry v ordinal name comment
    if v.isPassthrough name then [leafOffer { base with declaredType := type.name }]
    else typeOffers v base repeated (cardinality == .repeated) type

/-- What a field offers by its type: `repeated` comes from above, `own` from the field. -/
def typeOffers (v : Vocabulary) (base : Entry) (repeated own : Bool) : FieldType → List Offer
  | .scalar s => [leafOffer { base with declaredType := qualified own s.name }]
  | .enum e => enumOffers e "enum" base.name
  | .message m => [messageOffer v base (own || repeated) false m]
  | .map key value =>
    match value with
    | .message m => [messageOffer v base repeated true m]
    | .scalar s =>
      [leafOffer { base with declaredType := "map<" ++ key.name ++ ", " ++ s.name ++ ">" }]
    | .enum e =>
      [leafOffer { base with declaredType := "map<" ++ key.name ++ ", " ++ e.name ++ ">" }]
    | .map _ _ | .group => [.remark (.skippedMapValue value.name base.name)]
  | .group => [.remark (.skippedGroup "group" base.name)]
end

end FieldAtlas
