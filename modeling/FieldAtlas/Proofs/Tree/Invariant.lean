import FieldAtlas.Proofs.Tree.Growth
import FieldAtlas.Proofs.Tree.Preorder

/-!
# `Invariant` — what holds of every node of a built tree

A built tree grows from a source, and the register of a source never grants a key twice and says
which shapes are leaves and which hold members only.  Together this gives `Place.WellFormed` for
every node, and with the numbers of `Preorder` it gives `Tree.Sound`, which is all that later
modules have to know about construction.

The lookups follow.  No two siblings answer to the same key, so the child under one of its keys
is that child (`Place.WellFormed.child?_eq_some_iff`); and the node of a number is the one that
has it (`Tree.Sound.node?_eq_some_iff`).
-/

namespace FieldAtlas

/-! ## Nodes -/

theorem map_fst_keyIndex :
    ∀ (i : Nat) (es : List Entry), (keyIndex i es).map Prod.fst = es.flatMap Entry.keys
  | _, [] => rfl
  | i, e :: es => by
      rw [keyIndex, List.map_append, map_fst_keyIndex (i + 1) es, List.map_map, List.flatMap_cons]
      simp [Function.comp_def]

theorem exists_of_mem_forall₂ {α β : Type} {R : α → β → Prop} {xs : List α} {ys : List β}
    (h : List.Forall₂ R xs ys) {x : α} (hx : x ∈ xs) : ∃ y ∈ ys, R x y := by
  induction h with
  | nil => exact absurd hx List.not_mem_nil
  | cons hR _ ih =>
      rcases List.mem_cons.mp hx with rfl | hx
      · exact ⟨_, List.mem_cons_self, hR⟩
      · obtain ⟨y, hy, hxy⟩ := ih hx
        exact ⟨y, List.mem_cons_of_mem _ hy, hxy⟩

namespace Place

/-- The subtree of the node is grown from the source. -/
def GrownFrom (v : Vocabulary) (n : Node) (s : Source) : Prop :=
  (Rose.node n.label n.children).GrownFrom Label.entry v s

/-- What holds between a node and the nodes right below it. -/
structure WellFormed (n : Node) : Prop where
  keys_nodup : (n.below.flatMap (·.entry.keys)).Nodup
  leaf : n.shape = .enumMarker → n.children = []
  members : n.shape.isBag = true ∨ n.shape = .labelMap → ∀ c ∈ n.below, c.shape = .enumMarker
  numbered : n.entry.numbered = true → n.shape = .enumMarker
  leafTypes : n.shape ≠ .keyedRecords → n.entry.leafTypes = []
  ordinal : n.shape = .enumMarker → n.entry.ordinal ≤ Decimal.maxKey

theorem entry_place {above : List Label} (t : Rose Label) :
    (t.place above).entry = t.label.entry := by
  cases t with
  | node l ts => rfl

theorem entries_below (n : Node) :
    n.below.map (·.entry) = n.children.map (Label.entry ·.label) := by
  simp only [below, List.map_map]
  exact List.map_congr_left fun t _ => entry_place t

/-- A source accounts for a node: the subtree grows from it, and so does the shape. -/
structure Declared (v : Vocabulary) (n : Node) (s : Source) : Prop where
  grown : n.GrownFrom v s
  suits : n.shape.Suits s
  ordinal : n.shape = .enumMarker → n.entry.ordinal ≤ Decimal.maxKey
  numbered : n.entry.numbered = true → n.shape = .enumMarker
  leafTypes : n.shape ≠ .keyedRecords → n.entry.leafTypes = []

namespace Declared

variable {v : Vocabulary} {n : Node} {s : Source}

theorem forall₂_places {above : List Label} :
    ∀ {ts : List (Rose Label)} {seeds : List Seed},
      Rose.ForestGrownFrom Label.entry v ts seeds → (∀ x ∈ seeds, x.Valid) →
        List.Forall₂ (fun c x => c.entry.Fits x ∧ c.Declared v x.source)
          (ts.map (Rose.place above)) seeds
  | [], [], _, _ => .nil
  | .node l us :: ts, x :: seeds, h, hvalid => by
      obtain ⟨hfits, hgrown, hforest⟩ := h
      have hx := hvalid x List.mem_cons_self
      refine .cons ⟨hfits, ⟨hgrown, ?_, ?_, hfits.numbered, hfits.leafTypes⟩⟩
        (forall₂_places hforest fun y hy => hvalid y (List.mem_cons_of_mem _ hy))
      · show l.entry.shape.Suits x.source
        exact hfits.shape ▸ hx.suits
      · intro hmarker
        show l.entry.ordinal ≤ _
        exact hfits.ordinal ▸ hx.ordinal (hfits.shape ▸ hmarker)

/-- The children of a node are the seeds of its source, in order. -/
theorem forall₂_below (h : n.Declared v s) :
    List.Forall₂ (fun c x => c.entry.Fits x ∧ c.Declared v x.source) n.below
      (s.register v).seeds :=
  forall₂_places (Rose.grownFrom_iff.mp h.grown).2 fun _ hx => Seed.valid_of_mem_register hx

/-- The keys of the children are those of the register. -/
theorem keyIndex_below (h : n.Declared v s) :
    keyIndex 0 (n.below.map (·.entry)) = (s.register v).index := by
  rw [entries_below]
  exact (Rose.grownFrom_iff.mp h.grown).1

theorem wellFormed (h : n.Declared v s) : n.WellFormed where
  keys_nodup := by
    have hkeys := s.nodup_keys_register v
    rw [Register.keys, ← h.keyIndex_below, map_fst_keyIndex, List.flatMap_map] at hkeys
    exact hkeys
  leaf := by
    intro hmarker
    have hgrown := h.grown
    rw [h.suits.marker hmarker] at hgrown
    exact Rose.grownFrom_nothing.mp hgrown
  members := by
    intro hmembers c hc
    obtain ⟨field, enums, rfl⟩ := h.suits.members hmembers
    obtain ⟨x, hx, hfits, -⟩ := exists_of_mem_forall₂ h.forall₂_below hc
    exact hfits.shape.trans (Seed.marker_of_mem_members hx)
  numbered := h.numbered
  leafTypes := h.leafTypes
  ordinal := h.ordinal

end Declared

end Place

/-! ## Lookups -/

/-- An element of a list is told by any key of its own, if no key occurs twice. -/
theorem eq_of_nodup_flatMap {α β : Type} {f : α → List β} {k : β} :
    ∀ {xs : List α}, (xs.flatMap f).Nodup → ∀ {x y : α}, x ∈ xs → y ∈ xs → k ∈ f x → k ∈ f y →
      x = y
  | a :: xs, h, x, y, hx, hy, hkx, hky => by
      rw [List.flatMap_cons, List.nodup_append] at h
      obtain ⟨-, hxs, hdisj⟩ := h
      rcases List.mem_cons.mp hx with rfl | hx' <;> rcases List.mem_cons.mp hy with rfl | hy'
      · rfl
      · exact absurd rfl (hdisj k hkx k (List.mem_flatMap_of_mem hy' hky))
      · exact absurd rfl (hdisj k hky k (List.mem_flatMap_of_mem hx' hkx))
      · exact eq_of_nodup_flatMap hxs hx' hy' hkx hky

namespace Entry

theorem name_mem_keys (e : Entry) : e.name ∈ e.keys := by
  rw [keys]
  split <;> exact List.mem_cons_self

/-- An entry answers to its name, and to its ordinal if it is numbered. -/
theorem mem_keys_iff {e : Entry} {key : String} :
    key ∈ e.keys ↔ key = e.name ∨ e.numbered = true ∧ key = Decimal.text e.ordinal := by
  by_cases hn : e.numbered = true <;> simp [keys, hn]

end Entry

namespace Place

theorem mem_below_of_child? {n c : Node} {key : String} (h : n.child? key = some c) :
    c ∈ n.below ∧ key ∈ c.entry.keys :=
  ⟨List.mem_of_find?_eq_some h, by simpa using List.find?_some h⟩

/-- The child under a key is the one that answers to it. -/
theorem WellFormed.child?_eq_some_iff {n : Node} (hn : n.WellFormed) {c : Node} {key : String} :
    n.child? key = some c ↔ c ∈ n.below ∧ key ∈ c.entry.keys := by
  refine ⟨mem_below_of_child?, fun ⟨hc, hkey⟩ => ?_⟩
  cases h : n.child? key with
  | none =>
      have := List.find?_eq_none.mp h c hc
      exact absurd hkey (by simpa using this)
  | some d =>
      obtain ⟨hd, hkey'⟩ := mem_below_of_child? h
      rw [eq_of_nodup_flatMap hn.keys_nodup hd hc hkey' hkey]

/-- Every child is found under its name. -/
theorem WellFormed.child?_name {n : Node} (hn : n.WellFormed) {c : Node} (hc : c ∈ n.below) :
    n.child? c.name = some c :=
  hn.child?_eq_some_iff.mpr ⟨hc, c.entry.name_mem_keys⟩

theorem mem_childIds_iff {n : Node} {key : String} {id : Nat} :
    (key, id) ∈ n.childIds ↔ ∃ c ∈ n.below, c.id = id ∧ key ∈ c.entry.keys := by
  simp only [childIds, List.mem_flatMap, List.mem_map, Prod.mk.injEq]
  constructor
  · rintro ⟨c, hc, k, hk, rfl, rfl⟩
    exact ⟨c, hc, rfl, hk⟩
  · rintro ⟨c, hc, rfl, hk⟩
    exact ⟨c, hc, key, hk, rfl, rfl⟩

theorem above_of_mem_below {n c : Node} (hc : c ∈ n.below) : c.above = n.label :: n.above := by
  obtain ⟨u, -, rfl⟩ := List.mem_map.mp hc
  cases u with
  | node l ts => rfl

theorem map_fst_childIds (n : Node) :
    n.childIds.map Prod.fst = n.below.flatMap (·.entry.keys) := by
  simp [childIds, List.map_flatMap, Function.comp_def]

end Place

namespace Tree

/-- Only a structural message has a tree, and the tree is what its fields grow into. -/
theorem build_eq_ok_iff {v : Vocabulary} {root : String} {m : Option Message} {t : Tree} :
    (build v root m).value = .ok t ↔ ∃ type, m = some type ∧ v.classify type = .structural ∧
      t = ofEntries (rootBranch v root type).value := by
  cases m with
  | none => simp [build]
  | some type =>
      rw [build]
      cases hclass : v.classify type <;> simp [hclass, eq_comm]

/-- The tree of the small log. -/
def sampleTree : Tree := ofEntries (rootBranch {} "log" sampleLog).value

theorem build_sampleLog : (build {} "log" (some sampleLog)).value = .ok sampleTree := rfl

section Built

variable {v : Vocabulary} {root : String} {type : Message} {t : Tree}

/-- Every node of a built tree is accounted for by a source. -/
theorem exists_declared (built : (build v root (some type)).value = .ok t) :
    t.rootNode.Declared v (.fields type) ∧ ∀ n ∈ t.nodes, ∃ s, n.Declared v s := by
  obtain ⟨_, hm, -, rfl⟩ := build_eq_ok_iff.mp built
  cases hm
  have hroot : (ofEntries (rootBranch v root type).value).rootNode.Declared v (.fields type) := by
    refine ⟨?_, ⟨nofun, ?_⟩, nofun, nofun, fun _ => rfl⟩
    swap
    · rintro (h | h) <;> cases h
    exact (rootBranch_grownFrom v root type).number 0
  refine ⟨hroot, Rose.places_induction ⟨_, hroot⟩ fun p _ ⟨s, hs⟩ c hc => ?_⟩
  obtain ⟨x, -, -, hx⟩ := exists_of_mem_forall₂ hs.forall₂_below hc
  exact ⟨_, hx⟩

end Built

/-- What later modules rely on: nodes are numbered by their index, a step down goes to a larger
number, every node is in order, and the root is plain. -/
structure Sound (t : Tree) : Prop where
  ids : t.nodes.map (·.label.id) = List.range t.size
  id_lt : ∀ n ∈ t.nodes, ∀ c ∈ n.below, n.id < c.id
  wellFormed : ∀ n ∈ t.nodes, n.WellFormed
  root_plain : t.rootNode.shape = .plain

theorem sound_of_build {v : Vocabulary} {root : String} {m : Option Message} {t : Tree}
    (built : (build v root m).value = .ok t) : t.Sound := by
  obtain ⟨type, rfl, -, rfl⟩ := build_eq_ok_iff.mp built
  refine ⟨?_, fun n hn c hc => Rose.id_lt_of_mem_below hn hc, fun n hn => ?_, rfl⟩
  · rw [List.range_eq_range', size, ofEntries, Rose.size_number]
    exact Rose.ids_number [] 0 _
  · obtain ⟨s, hs⟩ := (exists_declared built).2 n hn
    exact hs.wellFormed

/-! ## The table of nodes -/

theorem rootNode_mem_nodes (t : Tree) : t.rootNode ∈ t.nodes := Rose.root_mem_places [] t.root

theorem mem_nodes_of_mem_below {t : Tree} {n c : Node} (hn : n ∈ t.nodes) (hc : c ∈ n.below) :
    c ∈ t.nodes :=
  Rose.mem_places_of_mem_below hn hc

theorem mem_nodes_of_child? {t : Tree} {n c : Node} {key : String} (hn : n ∈ t.nodes)
    (hc : n.child? key = some c) : c ∈ t.nodes :=
  mem_nodes_of_mem_below hn (Place.mem_below_of_child? hc).1

theorem mem_nodes_of_node? {t : Tree} {n : Node} {id : Nat} (h : t.node? id = some n) :
    n ∈ t.nodes :=
  List.mem_of_getElem? h

theorem above_rootNode (t : Tree) : t.rootNode.above = [] := by
  rw [rootNode]
  cases t.root with
  | node l ts => rfl

/-- Every node but the root is one step below another. -/
theorem eq_rootNode_or_mem_below {t : Tree} {n : Node} (hn : n ∈ t.nodes) :
    n = t.rootNode ∨ ∃ q ∈ t.nodes, n ∈ q.below :=
  Rose.eq_root_or_mem_below n hn

/-- A property of nodes that holds of the root and is kept by every step down holds of all. -/
theorem nodes_induction {t : Tree} {P : Node → Prop} (root : P t.rootNode)
    (step : ∀ n ∈ t.nodes, P n → ∀ c ∈ n.below, P c) : ∀ n ∈ t.nodes, P n :=
  Rose.places_induction root step

theorem Sound.node?_eq_some_iff {t : Tree} (h : t.Sound) {id : Nat} {n : Node} :
    t.node? id = some n ↔ n ∈ t.nodes ∧ n.id = id := by
  have hid : ∀ {i : Nat} {q : Node}, t.nodes[i]? = some q → q.id = i := by
    intro i q hq
    have hmap : (t.nodes.map (·.label.id))[i]? = some q.id := by
      rw [List.getElem?_map, hq]
      rfl
    rw [h.ids] at hmap
    obtain ⟨_, hi⟩ := List.getElem?_eq_some_iff.mp hmap
    rw [List.getElem_range] at hi
    exact hi.symm
  constructor
  · exact fun hn => ⟨mem_nodes_of_node? hn, hid hn⟩
  · rintro ⟨hn, rfl⟩
    obtain ⟨i, hi⟩ := List.mem_iff_getElem?.mp hn
    rw [hid hi]
    exact hi

theorem Sound.node?_id {t : Tree} (h : t.Sound) {n : Node} (hn : n ∈ t.nodes) :
    t.node? n.id = some n :=
  h.node?_eq_some_iff.mpr ⟨hn, rfl⟩

/-- What has a node below it is no leaf. -/
theorem Sound.shape_ne_marker {t : Tree} (h : t.Sound) {n c : Node} (hn : n ∈ t.nodes)
    (hc : c ∈ n.below) : n.shape ≠ .enumMarker := by
  intro hmarker
  rw [Place.below, (h.wellFormed n hn).leaf hmarker] at hc
  exact absurd hc List.not_mem_nil

/-- Numbers tell nodes apart. -/
theorem Sound.eq_of_id {t : Tree} (h : t.Sound) {n c : Node} (hn : n ∈ t.nodes) (hc : c ∈ t.nodes)
    (hid : n.id = c.id) : n = c := by
  have heq := h.node?_id hn
  rw [hid, h.node?_id hc] at heq
  exact (Option.some.inj heq).symm

theorem Sound.id_rootNode {t : Tree} (h : t.Sound) : t.rootNode.id = 0 := by
  have hroot : t.node? 0 = some t.rootNode := by
    rw [node?, nodes, rootNode]
    cases t.root with
    | node l ts => rfl
  exact (h.node?_eq_some_iff.mp hroot).2

/-- Within a tree, the child under a key is told by its number. -/
theorem Sound.child?_eq_of_id {t : Tree} (h : t.Sound) {q n : Node} (hq : q ∈ t.nodes)
    (hn : n ∈ t.nodes) {key : String} (hid : (q.child? key).map (·.id) = some n.id) :
    q.child? key = some n := by
  obtain ⟨c, hc, hcid⟩ := Option.map_eq_some_iff.mp hid
  rw [hc, h.eq_of_id (mem_nodes_of_child? hq hc) hn hcid]

/-- What is no enum leaf is found under its name only. -/
theorem Sound.name_of_child? {t : Tree} (h : t.Sound) {n c : Node} (hn : n ∈ t.nodes)
    {key : String} (hc : n.child? key = some c) (hmarker : c.shape ≠ .enumMarker) :
    c.name = key := by
  rcases Entry.mem_keys_iff.mp (Place.mem_below_of_child? hc).2 with hname | ⟨hnumbered, -⟩
  · exact hname.symm
  · have hwell := h.wellFormed c (mem_nodes_of_child? hn hc)
    exact absurd (hwell.numbered hnumbered) hmarker

/-! ## Links up -/

/-- The node above a node, looked up by its number. -/
def parent? (t : Tree) (n : Node) : Option Node := n.parent?.bind fun l => t.node? l.id

theorem Sound.parent?_of_mem_below {t : Tree} (h : t.Sound) {q n : Node} (hq : q ∈ t.nodes)
    (hn : n ∈ q.below) : t.parent? n = some q := by
  rw [parent?, Place.parent?, Place.above_of_mem_below hn]
  exact h.node?_id hq

theorem parent?_rootNode (t : Tree) : t.parent? t.rootNode = none := by
  rw [parent?, Place.parent?, above_rootNode]
  rfl

/-- The node that is looked up as the parent of a node has it below. -/
theorem Sound.mem_below_of_parent? {t : Tree} (h : t.Sound) {q n : Node} (hn : n ∈ t.nodes)
    (hparent : t.parent? n = some q) : q ∈ t.nodes ∧ n ∈ q.below := by
  rcases eq_rootNode_or_mem_below hn with rfl | ⟨a, ha, hbelow⟩
  · rw [parent?_rootNode] at hparent
    cases hparent
  · rw [h.parent?_of_mem_below ha hbelow] at hparent
    cases hparent
    exact ⟨ha, hbelow⟩

/-- Every node but the root is one step below the node that is looked up as its parent. -/
theorem Sound.exists_parent {t : Tree} (h : t.Sound) {n : Node} (hn : n ∈ t.nodes)
    (hid : n.id ≠ 0) :
    ∃ q ∈ t.nodes, n ∈ q.below ∧ t.parent? n = some q ∧ q.id < n.id := by
  rcases eq_rootNode_or_mem_below hn with rfl | ⟨q, hq, hc⟩
  · exact absurd h.id_rootNode hid
  · exact ⟨q, hq, hc, h.parent?_of_mem_below hq hc, h.id_lt q hq n hc⟩

/-! ## Ways down -/

theorem walk?_append (n : Node) (keys : List String) (key : String) :
    n.walk? (keys ++ [key]) = (n.walk? keys).bind (·.child? key) := by
  induction keys generalizing n with
  | nil => simp [Place.walk?]
  | cons k rest ih => simp only [List.cons_append, Place.walk?, ih, Option.bind_assoc]

/-- Names lead from the top to every node below it. -/
theorem exists_walk?_of_wellFormed {above : List Label} {u : Rose Label}
    (h : ∀ n ∈ u.places above, n.WellFormed) :
    ∀ n ∈ u.places above, ∃ keys, (u.place above).walk? keys = some n := by
  refine Rose.places_induction ⟨[], rfl⟩ fun q hq ⟨keys, hkeys⟩ c hc => ⟨keys ++ [c.name], ?_⟩
  rw [walk?_append, hkeys]
  exact (h q hq).child?_name hc

/-- Names lead from the root to every node. -/
theorem Sound.exists_walk? {t : Tree} (h : t.Sound) :
    ∀ n ∈ t.nodes, ∃ keys, t.rootNode.walk? keys = some n :=
  exists_walk?_of_wellFormed h.wellFormed

end Tree

end FieldAtlas
