import FieldAtlas.Proofs.Tree.Dump
import FieldAtlas.Proofs.Tree.Origin

/-!
# `LeafTypes` — the types that a collection of records knows

The index of a collection is written while the tree is built, out of branches that have no place
yet.  It is read off the finished tree: it has the children of the list child if the collection has
one, and its own children if it has none (`Tree.leafTypes_eq`).  No two of them have the same name,
so each is in it once, however many keys lead to it.

The index asks for a name and for nothing else.  A child that has children of its own is indexed
like a leaf, and a collection without a list child therefore knows the types of more than its leaves
(`Tree.leafTypes_of_records`).
-/

namespace FieldAtlas

namespace Place

/-- The children that the index of a collection is made of. -/
def indexed (v : Vocabulary) (n : Node) : List Node :=
  match n.child? v.recordListField with
  | some list => list.below
  | none => n.below

/-! ## From branches to nodes -/

theorem entries_of_children {n : Node} {start : Nat} {bs : List Branch}
    (hchildren : n.children = Rose.numberForest Label.mk start bs) :
    n.below.map (·.entry) = bs.map Rose.label := by
  rw [entries_below, hchildren, Rose.entries_numberForest]

/-- No node answers to a key if no branch does. -/
theorem child?_eq_none_of_children {n : Node} {start : Nat} {bs : List Branch} {key : String}
    (hchildren : n.children = Rose.numberForest Label.mk start bs)
    (hnone : bs.find? (·.keys.contains key) = none) : n.child? key = none := by
  have hentries := congrArg (List.find? (·.keys.contains key)) (entries_of_children hchildren)
  rw [List.find?_map, List.find?_map] at hentries
  have hbranches : bs.find? ((·.keys.contains key) ∘ Rose.label) = none := hnone
  rw [hbranches, Option.map_none, Option.map_eq_none_iff] at hentries
  exact hentries

/-- The nodes to be indexed are the branches that were. -/
theorem entries_indexed {v : Vocabulary} {n : Node} {start : Nat} {bs : List Branch}
    (hchildren : n.children = Rose.numberForest Label.mk start bs) :
    (n.indexed v).map (·.entry) = (leafSource v bs).map Rose.label := by
  rw [indexed, leafSource]
  cases hlist : bs.find? (·.keys.contains v.recordListField) with
  | none =>
      rw [child?_eq_none_of_children hchildren hlist]
      exact entries_of_children hchildren
  | some b =>
      obtain ⟨l, start', hl, hnode⟩ := exists_child?_of_find? hchildren hlist
      obtain ⟨e, ts⟩ := b
      rw [hl]
      exact entries_of_children (Rose.node.inj hnode).2

end Place

/-- The index depends on the entries alone. -/
theorem leafIndex_eq {bs : List Branch} {cs : List Node}
    (h : cs.map (·.entry) = bs.map Rose.label) :
    leafIndex bs = (cs.filter (·.name ≠ "")).map fun c => (c.name, c.entry.typeName) := by
  have hentries : ∀ es : List Entry, es = bs.map Rose.label →
      leafIndex bs = (es.filter (·.name ≠ "")).map fun e => (e.name, e.typeName) := by
    rintro _ rfl
    rw [leafIndex, List.filter_map, List.map_map]
    rfl
  rw [hentries _ h, List.filter_map, List.map_map]
  rfl

namespace Tree

variable {v : Vocabulary} {root : String} {type : Message} {t : Tree} {n : Node}

/-- A collection of records knows the types of the children to be indexed, in order. -/
theorem leafTypes_eq (built : (build v root (some type)).value = .ok t) (hn : n ∈ t.nodes)
    (hshape : n.shape = .keyedRecords) :
    n.entry.leafTypes =
      ((n.indexed v).filter (·.name ≠ "")).map fun c => (c.name, c.entry.typeName) := by
  obtain ⟨f, -, m, b, notices, repeated, inMap, position, -, -, hembodies, hoffer⟩ :=
    exists_messageOffer built hn (by rw [hshape]; exact nofun) (by rw [hshape]; exact nofun)
  obtain ⟨start, hchildren⟩ := hembodies.children
  have hlabel := label_of_messageOffer hoffer
  rw [Place.shape, hembodies.entry] at hshape
  rw [hembodies.entry]
  cases hclass : v.classify m with
  | structural =>
      rw [hclass] at hlabel
      rw [hlabel] at hshape
      cases hshape
  | bag flavor =>
      rw [hclass] at hlabel
      rw [hlabel] at hshape
      cases flavor <;> cases inMap <;> cases hshape
  | keyedRecords =>
      rw [hclass] at hlabel
      rw [hlabel]
      exact leafIndex_eq (Place.entries_indexed hchildren)

/-- The nodes to be indexed are the children of one node, so no two have the same name. -/
theorem Sound.nodup_names_indexed (h : t.Sound) (hn : n ∈ t.nodes) :
    ((n.indexed v).map (·.name)).Nodup := by
  rw [Place.indexed]
  split
  · next hlist => exact (h.wellFormed _ (mem_nodes_of_child? hn hlist)).nodup_names
  · exact (h.wellFormed n hn).nodup_names

/-- Under a name a collection knows the type of the child to be indexed that has it. -/
theorem leafType?_eq_some_iff (built : (build v root (some type)).value = .ok t)
    (hn : n ∈ t.nodes) (hshape : n.shape = .keyedRecords) {name declared : String} :
    n.entry.leafType? name = some declared ↔
      name ≠ "" ∧ ∃ c ∈ n.indexed v, c.name = name ∧ c.entry.typeName = declared := by
  have hnames : (((n.indexed v).filter (·.name ≠ "")).map (·.name)).Nodup :=
    ((sound_of_build built).nodup_names_indexed hn).sublist (List.filter_sublist.map _)
  rw [Entry.leafType?, leafTypes_eq built hn hshape, Place.lookup_named, Option.map_eq_some_iff]
  simp only [Place.find?_name_eq_some_iff hnames, List.mem_filter, decide_eq_true_eq]
  constructor
  · rintro ⟨c, ⟨⟨hc, hne⟩, rfl⟩, hdeclared⟩
    exact ⟨hne, c, hc, rfl, hdeclared⟩
  · rintro ⟨hne, c, hc, rfl, hdeclared⟩
    exact ⟨c, ⟨⟨hc, hne⟩, rfl⟩, hdeclared⟩

/-- A collection knows each child to be indexed under its name, once.  With a list child it knows
the children of that one.  Without a list child it knows all its own children that have a name, and
that is its leaves only if all these children are leaves. -/
theorem leafTypes_of_records (built : (build v root (some type)).value = .ok t) (hn : n ∈ t.nodes)
    (hshape : n.shape = .keyedRecords) :
    (n.entry.leafTypes =
        ((n.indexed v).filter (·.name ≠ "")).map fun c => (c.name, c.entry.typeName)) ∧
      (n.entry.leafTypes.map Prod.fst).Nodup ∧
      (∀ l, n.child? v.recordListField = some l → ∀ name declared,
        n.entry.leafType? name = some declared ↔
          name ≠ "" ∧ ∃ c ∈ l.below, c.name = name ∧ c.entry.typeName = declared) ∧
      (n.child? v.recordListField = none →
        (∀ name declared, n.entry.leafType? name = some declared ↔
          name ≠ "" ∧ ∃ c ∈ n.below, c.name = name ∧ c.entry.typeName = declared) ∧
        ((∀ name declared, n.entry.leafType? name = some declared ↔
          name ≠ "" ∧ ∃ c ∈ n.below, c.children = [] ∧ c.name = name ∧
            c.entry.typeName = declared) ↔
          ∀ c ∈ n.below, c.name ≠ "" → c.children = [])) := by
  have hknown : ∀ name declared, n.entry.leafType? name = some declared ↔
      name ≠ "" ∧ ∃ c ∈ n.indexed v, c.name = name ∧ c.entry.typeName = declared :=
    fun _ _ => leafType?_eq_some_iff built hn hshape
  have hsound := sound_of_build built
  refine ⟨leafTypes_eq built hn hshape, ?_, fun l hl => ?_, fun hnone => ?_⟩
  · rw [leafTypes_eq built hn hshape, List.map_map]
    exact (hsound.nodup_names_indexed hn).sublist (List.filter_sublist.map _)
  · rwa [Place.indexed, hl] at hknown
  · rw [Place.indexed, hnone] at hknown
    refine ⟨hknown, fun honly c hc hne => ?_, fun hleaves name declared => ?_⟩
    · -- The child is known under its name, so a leaf of this name is known, and that is the child.
      obtain ⟨-, d, hd, hleaf, hname, -⟩ :=
        (honly c.name c.entry.typeName).mp ((hknown _ _).mpr ⟨hne, c, hc, rfl, rfl⟩)
      rwa [List.inj_on_of_nodup_map (hsound.wellFormed n hn).nodup_names hd hc hname] at hleaf
    · rw [hknown]
      refine and_congr_right fun hne => exists_congr fun c => and_congr_right fun hc => ?_
      exact ⟨fun h => ⟨hleaves c hc (h.1 ▸ hne), h⟩, And.right⟩

end Tree

/-! ## Collections with and without a list -/

def sampleFans : Message where
  name := "SimpleFansTopInfos"
  fields := [
    { name := "list", number := 1, cardinality := .repeated, type := .message sampleItem },
    { name := "total", number := 2, type := .scalar .int32 }]

/-- A collection that has no list child and holds more than leaves, and one with a list child. -/
def sampleRecords : Message where
  name := "RecordLog"
  fields := [
    { name := "history", number := 1, type := .map .int64 (.message sampleHistory) },
    { name := "fans", number := 2, type := .map .int64 (.message sampleFans) }]

def sampleRecordsTree : Tree := .ofEntries (Tree.rootBranch {} "log" sampleRecords).value

theorem build_sampleRecords :
    (Tree.build {} "log" (some sampleRecords)).value = .ok sampleRecordsTree := rfl

namespace Tree

/-- A list child is indexed by its own children and not itself; without one, a leaf is known. -/
theorem leafTypes_of_records_fans :
    (∃ n, sampleRecordsTree.rootNode.child? "fans" = some n ∧
      n.entry.leafType? "id" = some "int64" ∧ n.entry.leafType? "list" = none) ∧
    ∃ n, sampleRecordsTree.rootNode.child? "history" = some n ∧
      n.entry.leafType? "photo_id" = some "int64" ∧ (n.entry.leafTypes.map Prod.fst).Nodup := by
  constructor
  · obtain ⟨n, l, c, hn, hshape, hl, hbelow, hname, htype⟩ : ∃ n l c,
        sampleRecordsTree.rootNode.child? "fans" = some n ∧ n.shape = .keyedRecords ∧
          n.child? "list" = some l ∧ l.below = [c] ∧ c.name = "id" ∧ c.entry.typeName = "int64" :=
      ⟨_, _, _, rfl, rfl, rfl, rfl, rfl, rfl⟩
    obtain ⟨-, -, hlist, -⟩ := leafTypes_of_records build_sampleRecords
      (mem_nodes_of_child? (rootNode_mem_nodes _) hn) hshape
    have hknown := hlist l hl
    rw [hbelow] at hknown
    refine ⟨n, hn, (hknown _ _).mpr ⟨by decide, c, List.mem_cons_self, hname, htype⟩, ?_⟩
    refine Option.eq_none_iff_forall_ne_some.mpr fun declared hsome => ?_
    obtain ⟨-, d, hd, hdname, -⟩ := (hknown _ _).mp hsome
    rw [List.mem_singleton.mp hd, hname] at hdname
    exact absurd hdname (by decide)
  · obtain ⟨n, c, hn, hshape, hnone, hc, hname, htype⟩ : ∃ n c,
        sampleRecordsTree.rootNode.child? "history" = some n ∧ n.shape = .keyedRecords ∧
          n.child? "list" = none ∧ c ∈ n.below ∧ c.name = "photo_id" ∧
          c.entry.typeName = "int64" :=
      ⟨_, _, rfl, rfl, rfl, List.mem_cons_self, rfl, rfl⟩
    obtain ⟨-, hnodup, -, hown⟩ := leafTypes_of_records build_sampleRecords
      (mem_nodes_of_child? (rootNode_mem_nodes _) hn) hshape
    obtain ⟨hknown, -⟩ := hown hnone
    exact ⟨n, hn, (hknown _ _).mpr ⟨by decide, c, hc, hname, htype⟩, hnodup⟩

/-- The child `labels` has a child below, and its type is known like that of a leaf. -/
theorem leafTypes_beyond_leaves :
    (build {} "log" (some sampleRecords)).value = .ok sampleRecordsTree ∧
    ∃ n c, sampleRecordsTree.rootNode.child? "history" = some n ∧ n.shape = .keyedRecords ∧
      n.child? ({} : Vocabulary).recordListField = none ∧
      n.child? "labels" = some c ∧ c.children ≠ [] ∧
      n.entry.leafType? "labels" = some "LabelAttr" :=
  ⟨build_sampleRecords, _, _, rfl, rfl, rfl, rfl, nofun, rfl⟩

end Tree

end FieldAtlas
