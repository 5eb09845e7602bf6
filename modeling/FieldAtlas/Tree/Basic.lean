import FieldAtlas.Rose
import FieldAtlas.Tree.Entry

/-!
# `Tree` — the numbered tree of a schema

A tree is a rose tree of entries, numbered in preorder from the root, which has number 0.  A
node is a place in it, so it knows the line of its ancestors and can be rendered without the
tree at hand.

Children are found by key.  Siblings never share a key, so at most one child answers.
-/

namespace FieldAtlas

/-- An entry with its number in the tree. -/
structure Label where
  id : Nat
  entry : Entry
  deriving DecidableEq, Repr

/-- A labelled place in a tree. -/
abbrev Node := Place Label

namespace Place

def id (n : Node) : Nat := n.label.id

def entry (n : Node) : Entry := n.label.entry

def name (n : Node) : String := n.entry.name

def shape (n : Node) : Shape := n.entry.shape

/-- The child registered under a key. -/
def child? (n : Node) (key : String) : Option Node :=
  n.below.find? (·.entry.keys.contains key)

/-- Every key with the number of the child it leads to. -/
def childIds (n : Node) : List (String × Nat) :=
  n.below.flatMap fun c => c.entry.keys.map (·, c.id)

/-- The node that a list of keys leads to, one child after the other. -/
def walk? (n : Node) : List String → Option Node
  | [] => some n
  | key :: rest => (n.child? key).bind (·.walk? rest)

/-- Whether the node, or one above it, is repeated. -/
def isFromList (n : Node) : Bool :=
  n.entry.isRepeated || n.above.any (·.entry.isRepeated)

end Place

/-- A tree of entries, each with its number. -/
structure Tree where
  root : Rose Label

namespace Tree

/-- Numbers a tree of entries. -/
def ofEntries (t : Rose Entry) : Tree := ⟨t.number Label.mk 0⟩

/-- The root as a node, with nothing above it. -/
def rootNode (t : Tree) : Node := t.root.place []

/-- The nodes in the order of their numbers. -/
def nodes (t : Tree) : List Node := t.root.places []

def size (t : Tree) : Nat := t.root.size

/-- The node of a number, which is its index in preorder. -/
def node? (t : Tree) (id : Nat) : Option Node := t.nodes[id]?

end Tree

end FieldAtlas
