import FieldAtlas.Notice
import FieldAtlas.Tree.Basic

/-!
# `Rendering` — the canonical path of a node

A node has a dotted path and a flattened one:

    root.user.history.key:2.list.photo_id
    root_user_history_key_2_list_photo_id

A path is what the parent renders to, followed by an ending that depends on the node and
its parent.  Two kinds of node have a runtime key in their ending and cannot be rendered
without one: keyed records, and the placeholder under a bag or map that takes external keys.
Where several nodes of a line lack their key, the one nearest the root is reported.

In the flattened style a fixed path stands for the whole way down to its node, and a key that
would have been needed further up is not asked for.
-/

namespace FieldAtlas

/-- The two ways to write a path. -/
inductive PathStyle where
  | dotted | flattened
  deriving DecidableEq, Repr

namespace PathStyle

def separator : PathStyle → String
  | dotted => "."
  | flattened => "_"

def keyMark : PathStyle → String
  | dotted => ".key:"
  | flattened => "_key_"

/-- The fixed path of an entry, in the style that uses fixed paths. -/
def fixedPath? : PathStyle → Entry → Option String
  | dotted, _ => none
  | flattened, e => e.fixedPath

end PathStyle

/-- A node that needs a key was rendered without one. -/
structure MissingKey where
  node : String
  shape : Shape
  deriving DecidableEq, Repr

namespace MissingKey

def message (m : MissingKey) : String :=
  "Node '" ++ m.node ++ "' (" ++ m.shape.name ++ ") can only be rendered with an explicit key"

def notice (m : MissingKey) : Notice := .keyMissing m.node m.shape

end MissingKey

/-- An entry and the line of its ancestors, nearest first: all that rendering looks at. -/
structure Site where
  entry : Entry
  above : List Label
  deriving DecidableEq, Repr

namespace Site

/-- The key mark and the key, which has to be there. -/
def keyEnding (style : PathStyle) (key : Option Int) (e : Entry) : Except MissingKey String :=
  match key with
  | some k => .ok (style.keyMark ++ Decimal.text k)
  | none => .error ⟨e.name, e.shape⟩

/-- What an entry adds to the path of its parent. -/
def ending (style : PathStyle) (key : Option Int) (parent e : Entry) : Except MissingKey String :=
  match e.shape with
  | .keyedRecords => (keyEnding style key e).map (style.separator ++ e.name ++ ·)
  | .enumMarker =>
    if parent.shape.takesExternalKey then keyEnding style key e
    else if parent.shape.isBag then .ok (style.keyMark ++ Decimal.text e.ordinal)
    else .ok (style.separator ++ e.name)
  | .plain | .listBag | .mapBag | .labelMap => .ok (style.separator ++ e.name)

/-- The path of an entry below its ancestors. -/
def renderFrom (style : PathStyle) (key : Option Int) :
    Entry → List Label → Except MissingKey String
  | e, [] => .ok e.name
  | e, parent :: above =>
    match style.fixedPath? e with
    | some path => .ok path
    | none => do
      let start ← renderFrom style key parent.entry above
      let last ← ending style key parent.entry e
      return start ++ last

/-- The path of a site in a style, with a runtime key if one is at hand. -/
def render (s : Site) (style : PathStyle) (key : Option Int) : Except MissingKey String :=
  renderFrom style key s.entry s.above

/-- Renders, and reports a missing key. -/
def path (s : Site) (style : PathStyle) (key : Option Int) : Noted (Except MissingKey String) :=
  match s.render style key with
  | .ok text => ⟨.ok text, []⟩
  | .error missing => ⟨.error missing, [missing.notice]⟩

/-- Whether an entry under a parent has a runtime key in its ending. -/
def bearsKey (parent : Option Entry) (e : Entry) : Bool :=
  match e.shape with
  | .keyedRecords => true
  | .enumMarker => parent.any (·.shape.takesExternalKey)
  | .plain | .listBag | .mapBag | .labelMap => false

def requiresKeyFrom : Entry → List Label → Bool
  | e, [] => bearsKey none e
  | e, parent :: above => bearsKey (some parent.entry) e || requiresKeyFrom parent.entry above

/-- Whether the site, or one above it, has a runtime key in its ending. -/
def requiresKey (s : Site) : Bool := requiresKeyFrom s.entry s.above

end Site

namespace Place

/-- The site of a node of the tree. -/
def site (n : Node) : Site := ⟨n.entry, n.above⟩

/-- The entry made up for a key, below the node of its bag. -/
def siteOfKey (bag : Node) (key : Int) : Site := ⟨Entry.ofKey key, bag.label :: bag.above⟩

end Place

end FieldAtlas
