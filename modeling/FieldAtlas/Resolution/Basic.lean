import FieldAtlas.Path.Basic
import FieldAtlas.Policy
import FieldAtlas.Tree.Rendering

/-!
# `Resolution` — from a path to a node

The first segment must name the node from which the path starts.  From there on each segment
picks a child, and the shape of that child decides how the remainder is read:

* a plain node is a step on the way;
* an enum marker ends the walk, and the remainder is ignored;
* an attribute bag is meant as a whole if nothing follows.  A key picks the member of that
  number, or the placeholder with the key kept aside where the bag takes external keys; a name
  picks a member;
* keyed records are meant as a whole if nothing follows.  A key opens a record, in which the
  walk goes on;
* a label map is meant as a whole if nothing follows.  A key picks the placeholder.

Under a bag or a label map, a key may be followed by one accessor, `key` or `value`.

The rules concern children, so the node from which the walk starts is always walked through,
whatever its shape.
-/

namespace FieldAtlas

/-- The node that a path leads to. -/
inductive Target where
  | listed (node : Node)
  /-- The entry made up for a key that the bag does not list. -/
  | synthesized (bag : Node) (key : Nat)

namespace Target

def site : Target → Site
  | listed n => n.site
  | synthesized bag key => bag.siteOfKey key

def entry (t : Target) : Entry := t.site.entry

/-- The label of the node above. -/
def parent? (t : Target) : Option Label := t.site.above.head?

def id? : Target → Option Nat
  | listed n => some n.id
  | synthesized _ _ => none

def isSynthesized : Target → Bool
  | listed _ => false
  | synthesized _ _ => true

/-- Within one tree, the number of the node, or that of the bag with the key, identifies a
target. -/
def mark : Target → Nat × Option Nat
  | listed n => (n.id, none)
  | synthesized bag key => (bag.id, some key)

end Target

/-- What a path refers to. -/
inductive PathKind where
  | normal
  /-- A member of an attribute bag. -/
  | attributeEntry
  /-- A bag or a collection of records as a whole. -/
  | collectionList
  /-- What stands behind the key of keyed records. -/
  | collectionLeaf
  | labelMapWhole
  | labelMapLeaf
  | enum
  deriving DecidableEq, Repr

namespace PathKind

def name : PathKind → String
  | normal => "Normal"
  | attributeEntry => "AttributeEntry"
  | collectionList => "CollectionList"
  | collectionLeaf => "CollectionLeaf"
  | labelMapWhole => "LabelMapWhole"
  | labelMapLeaf => "LabelMapLeaf"
  | enum => "Enum"

end PathKind

/-- What a path resolves to. -/
structure Resolution where
  target : Target
  kind : PathKind
  /-- The tag of the path, which overrides the type of the node. -/
  tag : Option TypeTag := none
  /-- The key that opened a keyed record. -/
  collectionKey : Option Nat := none
  /-- The key given for a placeholder. -/
  labelKey : Option Nat := none

namespace Resolution

/-- The key with which the result is rendered. -/
def key (r : Resolution) : Option Nat := r.collectionKey <|> r.labelKey

/-- The type that the tag says, or else the type of the target. -/
def declaredType (r : Resolution) : String :=
  match r.tag with
  | some tag => tag.spelling
  | none => r.target.entry.typeName

/-- The canonical path of the result. -/
def path (r : Resolution) (style : PathStyle) : Noted (Except MissingKey String) :=
  r.target.site.path style (r.key.map Int.ofNat)

/-- Whether two results of one tree are the same. -/
def same (a b : Resolution) : Bool :=
  a.target.mark == b.target.mark && a.kind == b.kind && a.tag == b.tag &&
    a.collectionKey == b.collectionKey && a.labelKey == b.labelKey

end Resolution

/-! ## Remainders -/

/-- The key of a remainder that is one key with at most one accessor.  The remainder is read as
text, by the rule that reads markers anywhere else. -/
def keyRemainder? (rest : List Segment) : Option Nat :=
  match rest with
  | .key _ :: _ =>
    match KeyMarker.read? (Segment.joinChars rest) with
    | some (k, []) => some k
    | _ => none
  | _ => none

/-- Upper-case letters, digits and underscores, one at least. -/
def isRegularName (name : String) : Bool :=
  name != "" && name.toList.all fun c => c.isUpper || c.isDigit || c == '_'

/-- The placeholder below a node that takes external keys, with the key kept aside. -/
def placeholder (parent : Node) (key : Nat) (kind : PathKind) : Except Failure Resolution :=
  match parent.child? "0" with
  | some n => .ok { target := .listed n, kind, labelKey := some key }
  | none => .error (.noPlaceholder parent.name)

/-- The entry of a bag that lists its members, by number. -/
def entryByKey (p : Policy) (bag : Node) (key : Nat) : Except Failure Resolution :=
  match bag.child? (Decimal.text key) with
  | some n => .ok { target := .listed n, kind := .attributeEntry }
  | none =>
    if p.synthesize then .ok { target := .synthesized bag key, kind := .attributeEntry }
    else .error (.unlistedKey bag.name key)

/-- What is left of the path below a bag. -/
def resolveBag (p : Policy) (bag : Node) (rest : List Segment) : Except Failure Resolution :=
  if rest = [] then .ok { target := .listed bag, kind := .collectionList }
  else
    match keyRemainder? rest with
    | some key =>
      if bag.shape.takesExternalKey then placeholder bag key .attributeEntry
      else entryByKey p bag key
    | none =>
      match rest with
      | [.field member] =>
        if isRegularName member || p.isIrregular member then
          match bag.child? member with
          | some n => .ok { target := .listed n, kind := .attributeEntry }
          | none => .error (.noMember bag.name member)
        else .error (.badBagRemainder bag.name (Segment.join rest))
      | _ => .error (.badBagRemainder bag.name (Segment.join rest))

/-- What is left of the path below a label map. -/
def resolveLabels (labels : Node) (rest : List Segment) : Except Failure Resolution :=
  if rest = [] then .ok { target := .listed labels, kind := .labelMapWhole }
  else
    match keyRemainder? rest with
    | some key => placeholder labels key .labelMapLeaf
    | none => .error (.badLabelRemainder labels.name (Segment.join rest))

/-! ## The walk -/

/-- What stands inside a record, as seen from outside its collection. -/
def insideRecord (key : Nat) (r : Resolution) : Resolution :=
  { r with kind := .collectionLeaf, collectionKey := some key }

/-- Follows the segments down from a node. -/
def descend (p : Policy) (n : Node) : List Segment → Except Failure Resolution
  | [] => .ok { target := .listed n, kind := .normal }
  | .key k :: _ => .error (.strayKey n.name k)
  | .field name :: rest =>
    match n.child? name with
    | none => .error (.noField n.name name)
    | some child =>
      match child.shape with
      | .plain => descend p child rest
      | .enumMarker => .ok { target := .listed child, kind := .enum }
      | .listBag | .mapBag => resolveBag p child rest
      | .labelMap => resolveLabels child rest
      | .keyedRecords =>
        match rest with
        | [] => .ok { target := .listed child, kind := .collectionList }
        | .key key :: inner => (descend p child inner).map (insideRecord key)
        | .field _ :: _ => .error (.badRecordRemainder child.name (Segment.join rest))

/-- Follows a parsed path whose first segment names the start. -/
def walk (p : Policy) (start : Node) (path : Path) : Except Failure Resolution :=
  match path.segments with
  | [] => .error (.otherRoot start.name "")
  | first :: rest =>
    if first = .field start.name then
      (descend p start rest).map fun r => { r with tag := path.tag }
    else .error (.otherRoot start.name first.text)

/-- Resolves a path from a node.  Every failure on a path that mentions a field outside the
schema is reported as that, whatever it was. -/
def resolveFrom (p : Policy) (start : Node) (path : String) : Except Failure Resolution :=
  match (Path.parse path).bind (walk p start) with
  | .ok r => .ok r
  | .error failure =>
    if p.isOutside (Path.splitTag path).1 then .error (.outside path) else .error failure

/-- Resolves, and reports an entry that was made up. -/
def resolveNoted (p : Policy) (start : Node) (path : String) : Noted (Except Failure Resolution) :=
  match resolveFrom p start path with
  | .ok r =>
    match r.target with
    | .listed _ => ⟨.ok r, []⟩
    | .synthesized bag key => ⟨.ok r, [.synthesized key bag.name]⟩
  | .error failure => ⟨.error failure, []⟩

end FieldAtlas
