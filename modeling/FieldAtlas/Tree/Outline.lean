import FieldAtlas.Json.Basic
import FieldAtlas.Tree.Basic

/-!
# `Outline` — the tree without its enum leaves

A nested dump of names and declared types.  Leaves that come from enums are left out, at every
level; asked for the outline of such a leaf, there is none, and it is written as an empty object.
-/

namespace FieldAtlas

/-- A line of an outline. -/
structure Heading where
  name : String
  declaredType : String
  deriving DecidableEq, Repr

mutual
/-- The headings of a tree whose root is no enum leaf. -/
def outline : Rose Label → Rose Heading
  | .node l ts => .node ⟨l.entry.name, l.entry.declaredType⟩ (outlineForest ts)

/-- The headings of those trees that are no enum leaves. -/
def outlineForest : List (Rose Label) → List (Rose Heading)
  | [] => []
  | t :: ts =>
    if t.label.entry.shape = .enumMarker then outlineForest ts else outline t :: outlineForest ts
end

mutual
def outlineToJson : Rose Heading → Json
  | .node h ts =>
    .obj [("name", .str h.name), ("type_str", .str h.declaredType),
      ("children", .obj (outlineMembers ts))]

/-- The outlines of children, each under its name. -/
def outlineMembers : List (Rose Heading) → List (String × Json)
  | [] => []
  | t :: ts => (t.label.name, outlineToJson t) :: outlineMembers ts
end

namespace Place

/-- The outline of the subtree, unless the node is an enum leaf. -/
def outline? (n : Node) : Option (Rose Heading) :=
  if n.shape = .enumMarker then none else some (outline (.node n.label n.children))

/-- The dump of the subtree of a node. -/
def dump (n : Node) : Json :=
  match n.outline? with
  | none => .obj []
  | some t => outlineToJson t

end Place

end FieldAtlas
