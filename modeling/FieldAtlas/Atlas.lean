import FieldAtlas.Policy
import FieldAtlas.Tree.Construction

/-!
# `Atlas` — a tree with the policy it is used under

An atlas is built once and never changes.  A process shares at most one, in a slot that is
empty at first: the first build that succeeds fills it for good, and later requests get what is
there without loading a description.  A failed build leaves the slot as it was.
-/

namespace FieldAtlas

/-- A built tree and the policy under which its paths are resolved. -/
structure Atlas where
  tree : Tree
  policy : Policy

namespace Atlas

/-- Builds the tree of a message and keeps the policy beside it. -/
def build (root : String) (m : Option Message) (v : Vocabulary) (p : Policy) :
    Noted (Except SchemaError Atlas) :=
  (·.map fun tree => ⟨tree, p⟩) <$> Tree.build v root m

end Atlas

/-- Why the shared atlas cannot be had; a program is not expected to go on from here. -/
inductive SlotFault where
  | buildFailed (reason : SchemaError)
  | empty
  deriving DecidableEq, Repr

namespace SlotFault

def message : SlotFault → String
  | buildFailed reason => "schema registry initialisation failed: " ++ reason.message
  | empty => "schema registry used before init_global"

end SlotFault

/-- The place of the shared atlas. -/
abbrev AtlasSlot := Option Atlas

/-- Work that may call a loader, with the number of calls so far. -/
abbrev Loading (α : Type) := StateT Nat Noted α

/-- Calls a loader, and counts the call. -/
def Loading.call (load : Unit → Option Message) : Loading (Option Message) := do
  modify (· + 1)
  return load ()

/-- What asking for the shared atlas with a loader at hand comes to. -/
structure SlotAnswer where
  result : Except SlotFault Atlas
  slot : AtlasSlot
  /-- How often the loader was called. -/
  loads : Nat

/-- Whether the loader ran. -/
def SlotAnswer.loaded (answer : SlotAnswer) : Bool := answer.loads != 0

namespace AtlasSlot

/-- Keeps the atlas of a build that has succeeded; otherwise the slot stays empty. -/
def keep (root : String) : Except SchemaError Atlas → Noted (Except SlotFault Atlas × AtlasSlot)
  | .ok atlas => return (.ok atlas, some atlas)
  | .error reason => do
    Noted.report (.buildFailed root reason)
    return (.error (.buildFailed reason), none)

/-- Leaves a filled slot as it is, and fills an empty one from what the loader returns. -/
def fill (slot : AtlasSlot) (root : String) (load : Unit → Option Message) (v : Vocabulary)
    (p : Policy) : Loading (Except SlotFault Atlas × AtlasSlot) := do
  match slot with
  | some atlas => return (.ok atlas, slot)
  | none =>
    let found ← Loading.call load
    keep root (← Atlas.build root found v p)

/-- The shared atlas, built from what `load` returns if the slot is still empty. -/
def init (slot : AtlasSlot) (root : String) (load : Unit → Option Message) (v : Vocabulary)
    (p : Policy) : Noted SlotAnswer := do
  let ((result, slot), loads) ← (slot.fill root load v p).run 0
  return { result, slot, loads }

/-- The shared atlas, which must be there. -/
def get (slot : AtlasSlot) : Except SlotFault Atlas :=
  match slot with
  | some atlas => .ok atlas
  | none => .error .empty

end AtlasSlot

end FieldAtlas
