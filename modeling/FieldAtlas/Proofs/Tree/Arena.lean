import FieldAtlas.Proofs.Tree.Origin

/-!
# `Arena` — the tree as it is grown in place

The builder has one arena for all nodes.  It allocates a node at the end, enters it into the child
map of its parent under its name, and goes on with the fields of its message; so what it does
depends on what is already there.  The tree of a description is defined without an arena, a whole
subtree at a time.  The two agree (`Arena.build_eq`): the arena ends up with one cell for each node
of the tree, in the order of their numbers.

`Arena.plant` says what an arena looks like after a node has been given further children: they and
all that is below them stand at the end, the child map of the node has their keys, and nothing else
has changed.  The induction over a description shows that each function of the builder plants what
its offers enrol (`Sows`); the frame of a single field is then read off (`Arena.growField_frame`).
-/

namespace FieldAtlas

/-- A node of the arena.  Whether it has its number as a key is up to the child map of its parent.
A child map is listed in the order that its keys were entered in. -/
structure Cell where
  entry : Entry
  parent : Option Nat
  children : List (String × Nat) := []

/-- The entry, apart from whether it is registered under its number. -/
def Entry.bare (e : Entry) : Entry := { e with numbered := false }

abbrev Arena := List Cell

namespace Arena

/-! ## The builder -/

def keysAt (a : Arena) (id : Nat) : List String := (a[id]?.elim [] (·.children)).map Prod.fst

/-- Adds to the child map of a node. -/
def link (a : Arena) (id : Nat) (kids : List (String × Nat)) : Arena :=
  a.modify id fun c => { c with children := c.children ++ kids }

/-- Allocates a child, unless its name is taken. -/
def attach? (a : Arena) (parent : Nat) (e : Entry) : Option Arena :=
  if e.name ∈ keysAt a parent then none
  else some (link (a ++ [⟨e.bare, some parent, []⟩]) parent [(e.name, a.length)])

/-- Registers a child under a further key, unless the key is taken. -/
def share (a : Arena) (parent : Nat) (key : String) (child : Nat) : Arena :=
  if key ∈ keysAt a parent then a else link a parent [(key, child)]

def addLeaf (a : Arena) (parent : Nat) (e : Entry) : Arena := (attach? a parent e).getD a

def addMember (a : Arena) (parent : Nat) (e : Entry) : Arena :=
  match attach? a parent e with
  | none => a
  | some grown => share grown parent (Decimal.text e.ordinal) a.length

def addEnum (a : Arena) (parent : Nat) (e : EnumType) (type field : String) : Arena :=
  let grown := (e.members.map (memberEntry type)).foldl (addMember · parent) a
  if field = "" then grown else addLeaf grown parent (markerEntry field)

/-- Sets the type of a leaf that has a name. -/
def indexLeaf (e leaf : Entry) : Entry :=
  if leaf.name = "" then e else e.setLeafType leaf.name leaf.typeName

/-- The entries that the child map of a node leads to, once a key. -/
def entriesBelow (a : Arena) (id : Nat) : List Entry :=
  (a[id]?.elim [] (·.children)).filterMap fun kid => a[kid.2]?.map (·.entry)

/-- Sets the leaf types of a keyed record from what is below its list field, or below itself. -/
def indexLeaves (v : Vocabulary) (a : Arena) (id : Nat) : Arena :=
  let source := (a[id]?.bind (·.children.lookup v.recordListField)).getD id
  a.modify id fun c => { c with entry := (entriesBelow a source).foldl indexLeaf c.entry }

mutual
def growMessage (v : Vocabulary) (a : Arena) (parent : Nat) (base : Entry)
    (repeated inMap : Bool) : MessageOf FieldType → Arena
  | ⟨name, fields, enums⟩ =>
    match v.classify ⟨name, fields, enums⟩ with
    | .bag flavor =>
      match attach? a parent { base with declaredType := name, shape := bagShape flavor inMap } with
      | none => a
      | some grown =>
        (enums.filter (v.isMemberEnum ·.name)).foldl
          (fun g e => addEnum g a.length e e.name base.name) grown
    | .structural =>
      match attach? a parent { base with declaredType := qualified repeated name } with
      | none => a
      | some grown => growFields v grown a.length repeated 0 fields
    | .keyedRecords =>
      match attach? a parent { base with
          declaredType := qualified repeated name, shape := .keyedRecords } with
      | none => a
      | some grown => indexLeaves v (growFields v grown a.length repeated 0 fields) a.length

def growFields (v : Vocabulary) (a : Arena) (parent : Nat) (repeated : Bool) (ordinal : Nat) :
    List (FieldOf FieldType) → Arena
  | [] => a
  | f :: rest =>
    growFields v (growField v a parent repeated ordinal f) parent repeated (ordinal + 1) rest

def growField (v : Vocabulary) (a : Arena) (parent : Nat) (repeated : Bool) (ordinal : Nat) :
    FieldOf FieldType → Arena
  | ⟨name, _, cardinality, type, comment⟩ =>
    let base := fieldEntry v ordinal name comment
    if v.isPassthrough name then addLeaf a parent { base with declaredType := type.name }
    else growType v a parent base repeated (cardinality == .repeated) type

def growType (v : Vocabulary) (a : Arena) (parent : Nat) (base : Entry) (repeated own : Bool) :
    FieldType → Arena
  | .scalar s => addLeaf a parent { base with declaredType := qualified own s.name }
  | .enum e => addEnum a parent e "enum" base.name
  | .message m => growMessage v a parent base (own || repeated) false m
  | .map key value =>
    match value with
    | .message m => growMessage v a parent base repeated true m
    | .scalar s =>
      addLeaf a parent { base with declaredType := "map<" ++ key.name ++ ", " ++ s.name ++ ">" }
    | .enum e =>
      addLeaf a parent { base with declaredType := "map<" ++ key.name ++ ", " ++ e.name ++ ">" }
    | .map _ _ | .group => a
  | .group => a
end

/-- The arena of a description: the root, and what its fields grow. -/
def build (v : Vocabulary) (root : String) (m : Message) : Arena :=
  growFields v [⟨{ name := root, declaredType := m.name, ordinal := 0 }, none, []⟩] 0 false 0
    m.fields

end Arena

/-! ## The cells of a tree -/

/-- The cell of a node. -/
def Place.cell (n : Node) : Cell := ⟨n.entry.bare, n.parent?.map (·.id), n.childIds⟩

/-- The keys of siblings, with the numbers that they lead to if the first sibling has number
`start`. -/
def keyIds (start : Nat) : List Branch → List (String × Nat)
  | [] => []
  | b :: bs => b.keys.map (·, start) ++ keyIds (start + b.size) bs

mutual
/-- The cells of a subtree that is numbered from `start` on. -/
def branchCells (parent start : Nat) : Branch → List Cell
  | .node e ts => ⟨e.bare, some parent, keyIds (start + 1) ts⟩ :: cells start (start + 1) ts

/-- The cells of siblings and of all that is below them. -/
def cells (parent start : Nat) : List Branch → List Cell
  | [] => []
  | b :: bs => branchCells parent start b ++ cells parent (start + b.size) bs
end

theorem childIds_numberForest (l : Label) (above : List Label) (start : Nat) (bs : List Branch) :
    Place.childIds ⟨l, above, Rose.numberForest Label.mk start bs⟩ = keyIds start bs := by
  induction bs generalizing start with
  | nil => rfl
  | cons b bs ih =>
      obtain ⟨e, ts⟩ := b
      have hrest := ih (start + Rose.size (.node e ts))
      rw [keyIds, ← hrest]
      rfl

mutual
/-- The cells are those of the places, in the order of their numbers. -/
theorem map_cell_places (l : Label) (above : List Label) (start : Nat) :
    ∀ b : Branch, ((b.number Label.mk start).places (l :: above)).map Place.cell =
      branchCells l.id start b
  | .node e ts => by
      have hcell : Place.cell ⟨⟨start, e⟩, l :: above, Rose.numberForest Label.mk (start + 1) ts⟩ =
          ⟨e.bare, some l.id, keyIds (start + 1) ts⟩ := by
        rw [Place.cell, childIds_numberForest]
        rfl
      rw [Rose.number, Rose.places, List.map_cons, hcell, map_cell_forestPlaces, branchCells]

theorem map_cell_forestPlaces (l : Label) (above : List Label) (start : Nat) :
    ∀ bs : List Branch,
      (Rose.forestPlaces (l :: above) (Rose.numberForest Label.mk start bs)).map Place.cell =
        cells l.id start bs
  | [] => rfl
  | b :: bs => by
      rw [Rose.numberForest, Rose.forestPlaces, List.map_append, map_cell_places,
        map_cell_forestPlaces, cells]
end

mutual
theorem length_branchCells (parent start : Nat) :
    ∀ b : Branch, (branchCells parent start b).length = b.size
  | .node e ts => by rw [branchCells, List.length_cons, length_cells, Rose.size]

theorem length_cells (parent start : Nat) :
    ∀ bs : List Branch, (cells parent start bs).length = Rose.forestSize bs
  | [] => rfl
  | b :: bs => by
      rw [cells, List.length_append, length_branchCells, length_cells, Rose.forestSize]
end

theorem keyIds_append (start : Nat) (bs cs : List Branch) :
    keyIds start (bs ++ cs) = keyIds start bs ++ keyIds (start + Rose.forestSize bs) cs := by
  induction bs generalizing start with
  | nil => rfl
  | cons b bs ih =>
      rw [List.cons_append, keyIds, keyIds, ih, List.append_assoc, Rose.forestSize, Nat.add_assoc]

theorem cells_append (parent start : Nat) (bs cs : List Branch) :
    cells parent start (bs ++ cs) =
      cells parent start bs ++ cells parent (start + Rose.forestSize bs) cs := by
  induction bs generalizing start with
  | nil => rfl
  | cons b bs ih =>
      rw [List.cons_append, cells, cells, ih, Rose.forestSize, Nat.add_assoc, List.append_assoc]

theorem map_fst_keyIds (start : Nat) (bs : List Branch) :
    (keyIds start bs).map Prod.fst = bs.flatMap Branch.keys := by
  induction bs generalizing start with
  | nil => rfl
  | cons b bs ih =>
      rw [keyIds, List.map_append, ih, List.map_map, List.flatMap_cons]
      simp [Function.comp_def]

/-! ## Enrolling -/

theorem Branch.settle_congr {taken taken' : List String} (h : ∀ key, key ∈ taken ↔ key ∈ taken')
    (b : Branch) : b.settle taken = b.settle taken' := by
  obtain ⟨e, ts⟩ := b
  have hcontains : (e.name :: taken).contains (Decimal.text e.ordinal) =
      (e.name :: taken').contains (Decimal.text e.ordinal) := by
    rw [Bool.eq_iff_iff, List.contains_iff_mem, List.contains_iff_mem, List.mem_cons,
      List.mem_cons, h]
  rw [settle, settle, hcontains]

/-- What is enrolled depends on which keys are taken, and not on the name of the node. -/
theorem enrol_congr {parent parent' : String} (offers : List Offer) {taken taken' : List String}
    (h : ∀ key, key ∈ taken ↔ key ∈ taken') :
    (enrol parent taken offers).value = (enrol parent' taken' offers).value := by
  induction offers generalizing taken taken' with
  | nil => rfl
  | cons o rest ih =>
      cases o with
      | remark n => exact ih h
      | child b notices =>
          rw [enrol, enrol, Branch.settle_congr h b]
          by_cases htaken : b.label.name ∈ taken
          · rw [if_pos (List.contains_iff_mem.mpr htaken),
              if_pos (List.contains_iff_mem.mpr ((h _).mp htaken))]
            exact ih h
          · rw [if_neg (mt List.contains_iff_mem.mp htaken),
              if_neg (mt List.contains_iff_mem.mp (mt (h _).mpr htaken))]
            refine congrArg (_ :: ·) (ih fun key => ?_)
            rw [List.mem_append, List.mem_append, h]

/-- Enrolling goes offer by offer. -/
theorem enrol_append {parent : String} (offers more : List Offer) {taken taken' : List String}
    (h : ∀ key, key ∈ taken' ↔
      key ∈ taken ∨ key ∈ (enrol parent taken offers).value.flatMap Branch.keys) :
    (enrol parent taken (offers ++ more)).value =
      (enrol parent taken offers).value ++ (enrol parent taken' more).value := by
  induction offers generalizing taken with
  | nil => exact enrol_congr more fun key => by rw [h]; simp [enrol]
  | cons o rest ih =>
      cases o with
      | remark n => exact ih h
      | child b notices =>
          rw [List.cons_append, enrol, enrol]
          rw [enrol] at h
          by_cases htaken : taken.contains b.label.name = true
          · rw [if_pos htaken] at h
            rw [if_pos htaken, if_pos htaken]
            exact ih h
          · rw [if_neg htaken] at h
            rw [if_neg htaken, if_neg htaken]
            refine congrArg (_ :: ·) (ih fun key => ?_)
            rw [h, List.flatMap_cons, List.mem_append, List.mem_append, or_left_comm, or_assoc]

theorem Branch.settle_of_not_numbered {e : Entry} (he : e.numbered = false) (ts : List Branch)
    (taken : List String) : Branch.settle taken (.node e ts) = .node e ts := by
  obtain ⟨name, declaredType, ordinal, shape, comment, fixedPath, numbered, leafTypes⟩ := e
  cases he
  rfl

theorem Entry.bare_of_not_numbered {e : Entry} (he : e.numbered = false) : e.bare = e := by
  obtain ⟨name, declaredType, ordinal, shape, comment, fixedPath, numbered, leafTypes⟩ := e
  cases he
  rfl

/-! ## Planting -/

namespace Arena

/-- The arena after a node has been given further children. -/
def plant (a : Arena) (parent : Nat) (bs : List Branch) : Arena :=
  link a parent (keyIds a.length bs) ++ cells parent a.length bs

section

variable {a : Arena} {parent : Nat}

theorem length_link (a : Arena) (id : Nat) (kids : List (String × Nat)) :
    (link a id kids).length = a.length :=
  List.length_modify _ _ _

theorem link_nil (a : Arena) (id : Nat) : link a id [] = a := by
  rw [link]
  simp only [List.append_nil]
  exact List.modify_id _ _

theorem link_link (a : Arena) (id : Nat) (kids more : List (String × Nat)) :
    link (link a id kids) id more = link a id (kids ++ more) := by
  rw [link, link, link, List.modify_modify_eq]
  simp only [Function.comp_def, List.append_assoc]

theorem modify_append_left {id : Nat} (f : Cell → Cell) (more : List Cell) :
    ∀ {a : Arena}, id < a.length → (a ++ more).modify id f = a.modify id f ++ more := by
  intro a h
  induction a generalizing id with
  | nil => exact absurd h (Nat.not_lt_zero id)
  | cons c a ih =>
      cases id with
      | zero => rfl
      | succ id =>
          rw [List.cons_append, List.modify_succ_cons, List.modify_succ_cons,
            ih (Nat.lt_of_succ_lt_succ h), List.cons_append]

theorem modify_append_cons (f : Cell → Cell) (c : Cell) (more : List Cell) (a : Arena) :
    (a ++ c :: more).modify a.length f = a ++ f c :: more := by
  induction a with
  | nil => rfl
  | cons d a ih => rw [List.cons_append, List.length_cons, List.modify_succ_cons, ih]; rfl

theorem link_append_left {id : Nat} (h : id < a.length) (kids : List (String × Nat))
    (more : List Cell) : link (a ++ more) id kids = link a id kids ++ more :=
  modify_append_left _ more h

theorem link_append_cons (a : Arena) (c : Cell) (kids : List (String × Nat)) (more : List Cell) :
    link (a ++ c :: more) a.length kids =
      a ++ { c with children := c.children ++ kids } :: more :=
  modify_append_cons _ c more a

theorem plant_nil (a : Arena) (parent : Nat) : plant a parent [] = a := by
  rw [plant, keyIds, link_nil]
  exact List.append_nil a

theorem length_plant (a : Arena) (parent : Nat) (bs : List Branch) :
    (plant a parent bs).length = a.length + Rose.forestSize bs := by
  rw [plant, List.length_append, length_link, length_cells]

theorem plant_plant (hlt : parent < a.length) (bs cs : List Branch) :
    plant (plant a parent bs) parent cs = plant a parent (bs ++ cs) := by
  have hlink : parent < (link a parent (keyIds a.length bs)).length := by rwa [length_link]
  rw [plant, length_plant, plant, link_append_left hlink, link_link, plant, keyIds_append,
    cells_append, List.append_assoc]

theorem keysAt_append_left {id : Nat} (h : id < a.length) (more : List Cell) :
    keysAt (a ++ more) id = keysAt a id := by
  rw [keysAt, keysAt, List.getElem?_append_left h]

theorem keysAt_link {id : Nat} (h : id < a.length) (kids : List (String × Nat)) :
    keysAt (link a id kids) id = keysAt a id ++ kids.map Prod.fst := by
  rw [keysAt, keysAt, link, List.getElem?_modify_eq, List.getElem?_eq_getElem h]
  exact List.map_append

theorem keysAt_plant (hlt : parent < a.length) (bs : List Branch) :
    keysAt (plant a parent bs) parent = keysAt a parent ++ bs.flatMap Branch.keys := by
  have hlink : parent < (link a parent (keyIds a.length bs)).length := by rwa [length_link]
  rw [plant, keysAt_append_left hlink, keysAt_link hlt, map_fst_keyIds]

/-- A child with nothing below it is one cell at the end. -/
theorem plant_leaf (e : Entry) :
    plant a parent [.node e []] =
      link a parent (e.keys.map (·, a.length)) ++ [⟨e.bare, some parent, []⟩] := by
  rw [plant, cells, branchCells, keyIds]
  simp [keyIds, cells, Branch.keys, Rose.label]

/-- A child and then what is below it. -/
theorem plant_below (e : Entry) (bs : List Branch) :
    plant (plant a parent [.node e []]) a.length bs =
      plant a parent [.node e bs] := by
  have hlength : (plant a parent [.node e []]).length = a.length + 1 := length_plant _ _ _
  have hown := link_append_cons (link a parent (e.keys.map (·, a.length))) ⟨e.bare, some parent, []⟩
    (keyIds (a.length + 1) bs) []
  rw [length_link] at hown
  rw [plant, hlength, plant_leaf, hown, plant, cells, branchCells, List.append_assoc]
  simp [keyIds, cells, Branch.keys, Rose.label]

end

end Arena

end FieldAtlas
