import FieldAtlas.Proofs.Resolution.Descent
import FieldAtlas.Proofs.Tree.Invariant

/-!
# `Representation` — a tree read as a table of numbered nodes

Whoever holds a tree from outside has numbers: the number of a node, of its parent, of the child
under each key.  `Tree.Represents` is what makes such a table safe to follow.  Links up and
down agree, links up go to smaller numbers, keys are names (or, for enum leaves, ordinals), and
every number that is met while a path is resolved or rendered or a subtree is dumped has a node.

The places of a tree know their ancestors by construction, so the points to prove are that these
ancestors are the ones that the table gives (`Tree.Sound.climb_eq`) and that places are never
left (`home_mem_nodes_of_resolveFrom`).
-/

namespace FieldAtlas

/-- The node of the tree that a target stands for or hangs from. -/
def Target.home : Target → Node
  | listed n => n
  | synthesized bag _ => bag

namespace Tree

/-- The numbers met on the way up, one parent looked up after the other, in so many steps. -/
def climb (t : Tree) : (steps : Nat) → Node → List Nat
  | 0, _ => []
  | steps + 1, n =>
    match t.parent? n with
    | none => []
    | some q => q.id :: t.climb steps q

/-- The table of a tree is in order. -/
structure Represents (t : Tree) : Prop where
  root : ∃ r, t.node? 0 = some r ∧ r.parent? = none ∧ r.shape = .plain
  range : ∀ id, (∃ n, t.node? id = some n) ↔ id < t.size
  number : ∀ id n, t.node? id = some n → n.id = id
  /-- Links up lead to smaller numbers. -/
  parent : ∀ id n, t.node? id = some n → id ≠ 0 → ∃ q, t.parent? n = some q ∧ q.id < id
  /-- Links down lead to nodes whose link up leads back, and each is under a key of its own. -/
  child : ∀ id n, t.node? id = some n → ∀ key cid, (key, cid) ∈ n.childIds →
    ∃ c, t.node? cid = some c ∧ t.parent? c = some n ∧
      (key = c.name ∨ c.shape = .enumMarker ∧ key = Decimal.text c.entry.ordinal)
  /-- Every node but the root is under its name. -/
  named : ∀ id n, t.node? id = some n → id ≠ 0 →
    ∃ q, t.parent? n = some q ∧ (n.name, id) ∈ q.childIds
  leaf : ∀ id n, t.node? id = some n → n.shape = .enumMarker → n.childIds = []
  members : ∀ id n, t.node? id = some n → n.shape.isBag = true ∨ n.shape = .labelMap →
    ∀ key cid, (key, cid) ∈ n.childIds → ∃ c, t.node? cid = some c ∧ c.shape = .enumMarker
  leafTypes : ∀ id n, t.node? id = some n → n.shape ≠ .keyedRecords → n.entry.leafTypes = []
  /-- No key occurs twice below a node, and no name does either. -/
  keys_nodup : ∀ id n, t.node? id = some n → (n.childIds.map Prod.fst).Nodup
  name_injective : ∀ id n, t.node? id = some n → ∀ c ∈ n.below, ∀ d ∈ n.below,
    c.name = d.name → c = d
  reachable : ∀ id n, t.node? id = some n → ∃ keys, t.rootNode.walk? keys = some n
  /-- A climb ends at the root, in no more steps than the number it starts from. -/
  climb : ∀ id n, t.node? id = some n → ∀ steps, id ≤ steps →
    t.climb steps n = n.above.map (·.id) ∧ (t.climb steps n).length ≤ id ∧
      (id :: t.climb steps n).getLast? = some 0
  /-- Rendering reads the ancestors, and the table has them. -/
  rendered : ∀ id n, t.node? id = some n → ∀ l ∈ n.above, (t.node? l.id).map (·.label) = some l
  /-- A dump goes down to children, and the table has them. -/
  dumped : ∀ id n, t.node? id = some n → ∀ c ∈ n.below, t.node? c.id = some c
  /-- Resolving picks children by key, and the table has them. -/
  stepped : ∀ id n, t.node? id = some n → ∀ key c, n.child? key = some c → t.node? c.id = some c
  /-- What a path resolves to is in the table, or is made up below a bag in the table. -/
  resolved : ∀ id start, t.node? id = some start → ∀ p path r, resolveFrom p start path = .ok r →
    t.node? r.target.home.id = some r.target.home

/-! ## Links up -/

namespace Sound

variable {t : Tree}

/-- The way up by lookups is the line of ancestors that the place carries. -/
theorem climb_eq (h : t.Sound) : ∀ (steps : Nat) {n : Node}, n ∈ t.nodes → n.id ≤ steps →
    t.climb steps n = n.above.map (·.id) ∧ (t.climb steps n).length ≤ n.id ∧
      (n.id :: t.climb steps n).getLast? = some 0 := by
  have hroot : ∀ (steps : Nat) {n : Node}, n ∈ t.nodes → n.id = 0 →
      t.climb steps n = n.above.map (·.id) ∧ (t.climb steps n).length ≤ n.id ∧
        (n.id :: t.climb steps n).getLast? = some 0 := by
    intro steps n hn hid
    have heq : n = t.rootNode :=
      h.eq_of_id hn t.rootNode_mem_nodes (hid.trans h.id_rootNode.symm)
    have hclimb : t.climb steps t.rootNode = [] := by
      cases steps with
      | zero => rfl
      | succ steps => rw [Tree.climb, parent?_rootNode]
    rw [heq, hclimb, above_rootNode, h.id_rootNode]
    exact ⟨rfl, Nat.le_refl 0, rfl⟩
  intro steps
  induction steps with
  | zero =>
      intro n hn hid
      exact hroot 0 hn (Nat.le_zero.mp hid)
  | succ steps ih =>
      intro n hn hid
      by_cases hzero : n.id = 0
      · exact hroot (steps + 1) hn hzero
      · obtain ⟨q, hq, hc, hparent, hlt⟩ := h.exists_parent hn hzero
        obtain ⟨heq, hlen, hlast⟩ := ih hq (by omega)
        have hclimb : t.climb (steps + 1) n = q.id :: t.climb steps q := by
          rw [Tree.climb, hparent]
        refine ⟨?_, ?_, ?_⟩
        · rw [hclimb, heq, Place.above_of_mem_below hc]
          rfl
        · rw [hclimb, List.length_cons]
          omega
        · rw [hclimb, List.getLast?_cons_cons]
          exact hlast

/-- The ancestors that a place carries are labels of the tree. -/
theorem label_of_mem_above (h : t.Sound) :
    ∀ n ∈ t.nodes, ∀ l ∈ n.above, (t.node? l.id).map (·.label) = some l := by
  refine nodes_induction ?_ fun q hq ih c hc l hl => ?_
  · intro l hl
    rw [above_rootNode] at hl
    exact absurd hl List.not_mem_nil
  · rw [Place.above_of_mem_below hc] at hl
    rcases List.mem_cons.mp hl with rfl | hl
    · show (t.node? q.id).map (·.label) = some q.label
      rw [h.node?_id hq]
      rfl
    · exact ih l hl

end Sound

end Tree

/-! ## Resolving stays in the tree -/

/-- The ways down from a node of the tree stay in the tree. -/
theorem Descent.home_mem_nodes {p : Policy} {n : Node} {segments : List Segment} {r : Resolution}
    (h : Descent p n segments r) {t : Tree} (hn : n ∈ t.nodes) : r.target.home ∈ t.nodes := by
  induction h with
  | here => exact hn
  | plain hc _ _ ih => exact ih (Tree.mem_nodes_of_child? hn hc)
  | record hc _ _ ih => exact ih (Tree.mem_nodes_of_child? hn hc)
  | marker hc _ | bagWhole hc _ | labelsWhole hc _ | collection hc _ | bagMadeUp hc _ _ _ _ =>
      exact Tree.mem_nodes_of_child? hn hc
  | bagPlaceholder hc _ _ hm | bagNumber hc _ _ hm | bagName hc _ _ hm
  | labelsPlaceholder hc _ _ hm =>
      exact Tree.mem_nodes_of_child? (Tree.mem_nodes_of_child? hn hc) hm

theorem home_mem_nodes_of_resolveFrom {t : Tree} {p : Policy} {start : Node} {path : String}
    {r : Resolution} (hstart : start ∈ t.nodes) (h : resolveFrom p start path = .ok r) :
    r.target.home ∈ t.nodes := by
  obtain ⟨_, -, _, -, _, hinner, rfl⟩ := resolveFrom_eq_ok_iff.mp h
  exact hinner.home_mem_nodes hstart

/-! ## The table -/

/-- The table of every built tree is in order. -/
theorem Tree.represents_of_build {v : Vocabulary} {root : String} {m : Option Message} {t : Tree}
    (built : (build v root m).value = .ok t) : t.Represents := by
  have h := sound_of_build built
  have hmem : ∀ {id : Nat} {n : Node}, t.node? id = some n → n ∈ t.nodes ∧ n.id = id :=
    h.node?_eq_some_iff.mp
  constructor
  case root =>
    refine ⟨t.rootNode, ?_, ?_, h.root_plain⟩
    · rw [← h.id_rootNode, h.node?_id t.rootNode_mem_nodes]
    · rw [Place.parent?, above_rootNode]
      rfl
  case range =>
    intro id
    rw [size, ← Rose.length_places [] t.root]
    constructor
    · rintro ⟨n, hn⟩
      exact (List.getElem?_eq_some_iff.mp hn).1
    · intro hid
      exact ⟨_, List.getElem?_eq_getElem hid⟩
  case number => exact fun id n hn => (hmem hn).2
  case parent =>
    intro id n hn hid
    obtain ⟨hin, rfl⟩ := hmem hn
    obtain ⟨q, -, -, hparent, hlt⟩ := h.exists_parent hin hid
    exact ⟨q, hparent, hlt⟩
  case child =>
    intro id n hn key cid hc
    obtain ⟨hin, rfl⟩ := hmem hn
    obtain ⟨c, hbelow, rfl, hkey⟩ := Place.mem_childIds_iff.mp hc
    have hcmem := mem_nodes_of_mem_below hin hbelow
    refine ⟨c, h.node?_id hcmem, h.parent?_of_mem_below hin hbelow, ?_⟩
    rcases Entry.mem_keys_iff.mp hkey with hname | ⟨hnum, hkey⟩
    · exact Or.inl hname
    · exact Or.inr ⟨(h.wellFormed c hcmem).numbered hnum, hkey⟩
  case named =>
    intro id n hn hid
    obtain ⟨hin, rfl⟩ := hmem hn
    obtain ⟨q, -, hc, hparent, -⟩ := h.exists_parent hin hid
    exact ⟨q, hparent, Place.mem_childIds_iff.mpr ⟨n, hc, rfl, n.entry.name_mem_keys⟩⟩
  case leaf =>
    intro id n hn hshape
    have hchildren := (h.wellFormed n (hmem hn).1).leaf hshape
    rw [Place.childIds, Place.below, hchildren]
    rfl
  case members =>
    intro id n hn hshape key cid hc
    obtain ⟨hin, rfl⟩ := hmem hn
    obtain ⟨c, hbelow, rfl, -⟩ := Place.mem_childIds_iff.mp hc
    exact ⟨c, h.node?_id (mem_nodes_of_mem_below hin hbelow),
      (h.wellFormed n hin).members hshape c hbelow⟩
  case leafTypes => exact fun id n hn => (h.wellFormed n (hmem hn).1).leafTypes
  case keys_nodup =>
    intro id n hn
    rw [Place.map_fst_childIds]
    exact (h.wellFormed n (hmem hn).1).keys_nodup
  case name_injective =>
    intro id n hn c hc d hd hname
    have hkey : c.name ∈ d.entry.keys := hname ▸ d.entry.name_mem_keys
    exact eq_of_nodup_flatMap (h.wellFormed n (hmem hn).1).keys_nodup hc hd
      c.entry.name_mem_keys hkey
  case reachable => exact fun id n hn => h.exists_walk? n (hmem hn).1
  case climb =>
    intro id n hn steps hsteps
    obtain ⟨hin, rfl⟩ := hmem hn
    exact h.climb_eq steps hin hsteps
  case rendered => exact fun id n hn => h.label_of_mem_above n (hmem hn).1
  case dumped => exact fun id n hn c hc => h.node?_id (mem_nodes_of_mem_below (hmem hn).1 hc)
  case stepped => exact fun id n hn key c hc => h.node?_id (mem_nodes_of_child? (hmem hn).1 hc)
  case resolved =>
    exact fun id start hstart p path r hr =>
      h.node?_id (home_mem_nodes_of_resolveFrom (hmem hstart).1 hr)

theorem Tree.represents_sampleTree :
    (build {} "log" (some sampleLog)).value = .ok sampleTree ∧ sampleTree.Represents :=
  ⟨build_sampleLog, represents_of_build build_sampleLog⟩

end FieldAtlas
