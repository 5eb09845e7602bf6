/-!
# `Rose` — trees of labels, and the places in them

A rose tree is a label over a list of trees.  A `Place` is a tree seen where it stands: its
label, its children, and the labels above it, nearest first.  Stepping down from a place adds to
what is above, so the line of ancestors is right by construction and never stored in the tree.

`number` gives every label its index in preorder, counted from a start.  Numbers therefore
grow downwards and rightwards, and a tree takes as many of them as it has labels.
-/

namespace FieldAtlas

/-- A label over a list of trees. -/
inductive Rose (α : Type) where
  | node (label : α) (children : List (Rose α))

/-- A tree where it stands. -/
structure Place (α : Type) where
  label : α
  /-- The labels of the ancestors, nearest first. -/
  above : List α
  children : List (Rose α)

namespace Rose

variable {α β : Type}

def label : Rose α → α
  | node a _ => a

def children : Rose α → List (Rose α)
  | node _ ts => ts

/-- The tree, with the given labels above it. -/
def place (above : List α) : Rose α → Place α
  | node a ts => ⟨a, above, ts⟩

mutual
/-- The number of labels. -/
def size : Rose α → Nat
  | node _ ts => forestSize ts + 1

def forestSize : List (Rose α) → Nat
  | [] => 0
  | t :: ts => t.size + forestSize ts
end

mutual
/-- Hands every label its index in preorder, counted from `start`. -/
def number (f : Nat → α → β) (start : Nat) : Rose α → Rose β
  | node a ts => node (f start a) (numberForest f (start + 1) ts)

def numberForest (f : Nat → α → β) (start : Nat) : List (Rose α) → List (Rose β)
  | [] => []
  | t :: ts => t.number f start :: numberForest f (start + t.size) ts
end

mutual
/-- Every place of the tree, in preorder. -/
def places (above : List α) : Rose α → List (Place α)
  | node a ts => ⟨a, above, ts⟩ :: forestPlaces (a :: above) ts

def forestPlaces (above : List α) : List (Rose α) → List (Place α)
  | [] => []
  | t :: ts => t.places above ++ forestPlaces above ts
end

end Rose

namespace Place

variable {α : Type}

/-- The places one step down, in order. -/
def below (p : Place α) : List (Place α) := p.children.map (Rose.place (p.label :: p.above))

/-- The label of the parent. -/
def parent? (p : Place α) : Option α := p.above.head?

end Place

namespace Rose

variable {α β : Type}

mutual
/-- A tree has as many places as labels. -/
theorem length_places (above : List α) : ∀ t : Rose α, (t.places above).length = t.size
  | node a ts => by simp [places, size, length_forestPlaces (a :: above) ts]

theorem length_forestPlaces (above : List α) :
    ∀ ts : List (Rose α), (forestPlaces above ts).length = forestSize ts
  | [] => rfl
  | t :: ts => by
    simp [forestPlaces, forestSize, length_places above t, length_forestPlaces above ts]
end

mutual
/-- Numbering keeps the size. -/
theorem size_number (f : Nat → α → β) :
    ∀ (start : Nat) (t : Rose α), (t.number f start).size = t.size
  | start, node a ts => by simp [number, size, forestSize_numberForest f (start + 1) ts]

theorem forestSize_numberForest (f : Nat → α → β) :
    ∀ (start : Nat) (ts : List (Rose α)), forestSize (numberForest f start ts) = forestSize ts
  | _, [] => rfl
  | start, t :: ts => by
    simp [numberForest, forestSize, size_number f start t,
      forestSize_numberForest f (start + t.size) ts]
end

end Rose

end FieldAtlas
