import FieldAtlas.Tree.Basic
import FieldAtlas.Tree.Branch

/-!
# `Construction` — the tree of a description

The root takes its name from the caller and its type from the message.  It has to be
structural: the other shapes are ways in which a field holds its message, and no field holds
the root.
-/

namespace FieldAtlas.Tree

/-- What the root grows into. -/
def rootBranch (v : Vocabulary) (root : String) (m : Message) : Noted Branch :=
  let children := enrol root [] (fieldsOffers v false 0 m.fields)
  ⟨.node { name := root, declaredType := m.name, ordinal := 0 } children.value,
    children.notices⟩

/-- Builds the tree of a message, if there is one. -/
def build (v : Vocabulary) (root : String) : Option Message → Noted (Except SchemaError Tree)
  | none => ⟨.error (.noRoot root), []⟩
  | some m =>
    match v.classify m with
    | .structural =>
      let branch := rootBranch v root m
      let tree := ofEntries branch.value
      ⟨.ok tree, .buildStarted root m.name ::
        (branch.notices ++ [.treeSized root tree.size, .buildDone root])⟩
    | found => ⟨.error (.shapedRoot m.name found), [.buildStarted root m.name]⟩

end FieldAtlas.Tree
