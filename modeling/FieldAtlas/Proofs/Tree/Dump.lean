import FieldAtlas.Proofs.Tree.Subtree
import FieldAtlas.Tree.Outline
import Mathlib.Data.List.Induction

/-!
# `Dump` — a dump has every node once

A dump is a value without numbers in it: whoever reads it has names to go by, and takes each object
for a node.  So the question is whether the objects of a dump are the nodes of the subtree, without
the leaves that come from enums.

They are because of two facts about siblings.  Only a leaf from an enum has a key beside its name,
so no node is dumped under two; and no key is granted twice, so no node is dumped in place of
another.  `Json.nodeObjects` lists the objects of a dump from the top, `Json.objectAt?` finds the
one that names lead to, and `Tree.dump_exact` compares the first with the nodes of the subtree and
the second with the walk through the tree.
-/

namespace FieldAtlas

/-! ## The objects of a dump -/

namespace Json

mutual
/-- The objects that stand for nodes, each before those of its children. -/
def nodeObjects : Json → List Json
  | obj members => obj members :: memberObjects members
  | _ => []

/-- The objects that stand below a node with these members. -/
def memberObjects : List (String × Json) → List Json
  | [] => []
  | (key, value) :: rest =>
    (if key = "children" then childObjects value else []) ++ memberObjects rest

/-- The objects among the children of a node. -/
def childObjects : Json → List Json
  | obj children => namedObjects children
  | _ => []

def namedObjects : List (String × Json) → List Json
  | [] => []
  | (_, value) :: rest => nodeObjects value ++ namedObjects rest
end

/-- The value of a member of an object. -/
def member? (key : String) : Json → Option Json
  | obj members => members.lookup key
  | _ => none

/-- The object to which names lead, one child after the other. -/
def objectAt? (j : Json) : List String → Option Json
  | [] => some j
  | name :: rest => ((j.member? "children").bind (member? name)).bind (·.objectAt? rest)

end Json

namespace Place

/-- A dump leaves out what is an enum leaf. -/
def isDumped (n : Node) : Bool := n.shape != .enumMarker

/-- The children that a dump shows. -/
def dumpedBelow (n : Node) : List Node := n.below.filter isDumped

theorem isDumped_iff {n : Node} : n.isDumped = true ↔ n.shape ≠ .enumMarker := bne_iff_ne

theorem not_isDumped_iff {n : Node} : ¬ n.isDumped = true ↔ n.shape = .enumMarker := by
  rw [isDumped_iff, not_not]

/-- The dump of an enum leaf is an empty object. -/
theorem dump_of_marker {n : Node} (h : n.shape = .enumMarker) : n.dump = .obj [] := by
  rw [dump, outline?, if_pos h]

theorem outlineMembers_outlineForest (above : List Label) :
    ∀ ts : List (Rose Label), outlineMembers (outlineForest ts) =
      ((ts.map (Rose.place above)).filter isDumped).map fun c => (c.name, c.dump)
  | [] => rfl
  | .node l us :: ts => by
      have ih := outlineMembers_outlineForest above ts
      rw [outlineForest, List.map_cons]
      by_cases hmarker : l.entry.shape = .enumMarker
      · have hleft : ¬ isDumped (Rose.place above (.node l us)) = true :=
          not_isDumped_iff.mpr hmarker
        rw [List.filter_cons_of_neg hleft, ← ih]
        exact congrArg outlineMembers (if_pos hmarker)
      · have hshown : isDumped (Rose.place above (.node l us)) = true := isDumped_iff.mpr hmarker
        have hdump : (Rose.place above (.node l us)).dump =
            outlineToJson (outline (.node l us)) := by
          rw [dump, outline?, if_neg (isDumped_iff.mp hshown)]
          rfl
        rw [List.filter_cons_of_pos hshown, List.map_cons, ← ih, hdump]
        exact congrArg outlineMembers (if_neg hmarker)

/-- The object of a node says its name and its type, and has those of its children. -/
theorem dump_eq {n : Node} (h : n.shape ≠ .enumMarker) :
    n.dump = .obj [("name", .str n.name), ("type_str", .str n.entry.declaredType),
      ("children", .obj (n.dumpedBelow.map fun c => (c.name, c.dump)))] := by
  rw [dump, outline?, if_neg h]
  show outlineToJson (outline _) = _
  rw [outline, outlineToJson, outlineMembers_outlineForest (n.label :: n.above)]
  rfl

end Place

/-! ## Every object is a node -/

theorem Json.nodeObjects_dump {n : Node} (h : n.shape ≠ .enumMarker) :
    nodeObjects n.dump =
      n.dump :: namedObjects (n.dumpedBelow.map fun c => (c.name, c.dump)) := by
  rw [Place.dump_eq h]
  simp [nodeObjects, memberObjects, childObjects]

mutual
/-- Where enum leaves have nothing below them, the objects of a dump are the nodes of the tree that
are no such leaves, in order. -/
theorem nodeObjects_place (above : List Label) :
    ∀ t : Rose Label, (∀ n ∈ t.places above, n.shape = .enumMarker → n.children = []) →
      (t.place above).isDumped = true →
        (t.place above).dump.nodeObjects = ((t.places above).filter Place.isDumped).map Place.dump
  | .node l ts, hleaves, hshown => by
      have hforest := namedObjects_forest (l :: above) ts fun n hn =>
        hleaves n (List.mem_cons_of_mem _ hn)
      have htop : (⟨l, above, ts⟩ : Node).isDumped = true := hshown
      rw [Json.nodeObjects_dump (Place.isDumped_iff.mp hshown), Rose.places,
        List.filter_cons_of_pos htop, List.map_cons, ← hforest]
      rfl

theorem namedObjects_forest (above : List Label) :
    ∀ ts : List (Rose Label),
      (∀ n ∈ Rose.forestPlaces above ts, n.shape = .enumMarker → n.children = []) →
        Json.namedObjects
            (((ts.map (Rose.place above)).filter Place.isDumped).map fun c => (c.name, c.dump)) =
          ((Rose.forestPlaces above ts).filter Place.isDumped).map Place.dump
  | [], _ => rfl
  | t :: ts, hleaves => by
      have hfirst : ∀ n ∈ t.places above, n.shape = .enumMarker → n.children = [] :=
        fun n hn => hleaves n (List.mem_append_left _ hn)
      have hrest := namedObjects_forest above ts fun n hn =>
        hleaves n (List.mem_append_right _ hn)
      rw [List.map_cons, Rose.forestPlaces, List.filter_append, List.map_append, ← hrest]
      by_cases hshown : (t.place above).isDumped = true
      · rw [List.filter_cons_of_pos hshown, List.map_cons, Json.namedObjects,
          nodeObjects_place above t hfirst hshown]
      · -- An enum leaf is left out, and it has nothing below it that could be missed.
        have hnone : (t.places above).filter Place.isDumped = [] := by
          obtain ⟨l, us⟩ := t
          have hempty : us = [] :=
            hfirst (Rose.place above (.node l us)) List.mem_cons_self
              (Place.not_isDumped_iff.mp hshown)
          rw [hempty]
          exact List.filter_cons_of_neg hshown
        rw [List.filter_cons_of_neg hshown, hnone]
        rfl
end

namespace Tree

variable {t : Tree}

/-- The objects of the dump of a node are the nodes of its subtree that are no enum leaves. -/
theorem Sound.nodeObjects_dump (h : t.Sound) {n : Node} (hn : n ∈ t.nodes)
    (hshape : n.shape ≠ .enumMarker) :
    n.dump.nodeObjects = (n.subtree.filter Place.isDumped).map Place.dump := by
  refine nodeObjects_place n.above (.node n.label n.children) ?_ (Place.isDumped_iff.mpr hshape)
  intro d hd
  exact (h.wellFormed d ((h.within_iff hn).mpr hd).1).leaf

end Tree

/-! ## Names lead to objects -/

namespace Place

theorem lookup_named {β : Type} (f : Node → β) (key : String) (cs : List Node) :
    (cs.map fun c => (c.name, f c)).lookup key = (cs.find? (key == ·.name)).map f := by
  induction cs with
  | nil => rfl
  | cons c rest ih =>
      rw [List.map_cons, List.lookup_cons, List.find?_cons, ih]
      cases key == c.name with
      | true => rfl
      | false => rfl

/-- No two nodes below a node have the same name. -/
theorem WellFormed.nodup_names {n : Node} (hn : n.WellFormed) : (n.below.map (·.name)).Nodup := by
  have hsub : ∀ cs : List Node, (cs.map (·.name)).Sublist (cs.flatMap (·.entry.keys)) := by
    intro cs
    induction cs with
    | nil => exact List.Sublist.slnil
    | cons c rest ih =>
        rw [List.flatMap_cons, List.map_cons, ← List.singleton_append]
        exact (List.singleton_sublist.mpr c.entry.name_mem_keys).append ih
  exact hn.keys_nodup.sublist (hsub n.below)

/-- Among nodes with different names, a name finds the one that has it. -/
theorem find?_name_eq_some_iff {cs : List Node} (hnames : (cs.map (·.name)).Nodup) {key : String}
    {c : Node} : cs.find? (key == ·.name) = some c ↔ c ∈ cs ∧ c.name = key := by
  constructor
  · intro hfind
    have hname : key = c.name := by simpa using List.find?_some hfind
    exact ⟨List.mem_of_find?_eq_some hfind, hname.symm⟩
  · rintro ⟨hc, rfl⟩
    cases hfind : cs.find? (c.name == ·.name) with
    | none => exact absurd (beq_self_eq_true c.name) (List.find?_eq_none.mp hfind c hc)
    | some d =>
        have hd : c.name = d.name := by simpa using List.find?_some hfind
        rw [List.inj_on_of_nodup_map hnames (List.mem_of_find?_eq_some hfind) hc hd.symm]

/-- Under its name a dump shows the child that the tree has under this key, unless that is an enum
leaf. -/
theorem WellFormed.find?_dumpedBelow {n : Node} (hn : n.WellFormed)
    (hbelow : ∀ c ∈ n.below, c.WellFormed) (key : String) :
    n.dumpedBelow.find? (key == ·.name) = (n.child? key).filter isDumped := by
  have hnames : (n.dumpedBelow.map (·.name)).Nodup :=
    hn.nodup_names.sublist (List.filter_sublist.map _)
  ext c
  rw [Option.filter_eq_some_iff, hn.child?_eq_some_iff, find?_name_eq_some_iff hnames, dumpedBelow,
    List.mem_filter]
  constructor
  · rintro ⟨⟨hc, hshown⟩, rfl⟩
    exact ⟨⟨hc, c.entry.name_mem_keys⟩, hshown⟩
  · rintro ⟨⟨hc, hkey⟩, hshown⟩
    rcases Entry.mem_keys_iff.mp hkey with hname | ⟨hnumbered, -⟩
    · exact ⟨⟨hc, hshown⟩, hname.symm⟩
    · exact absurd ((hbelow c hc).numbered hnumbered) (isDumped_iff.mp hshown)

/-- Nothing stands below an enum leaf. -/
theorem walk?_of_leaf {n : Node} (h : n.children = []) (key : String) (rest : List String) :
    n.walk? (key :: rest) = none := by
  rw [walk?, child?, below, h]
  rfl

end Place

namespace Tree

variable {t : Tree}

theorem member?_children_dump {n : Node} (h : n.shape ≠ .enumMarker) :
    n.dump.member? "children" =
      some (.obj (n.dumpedBelow.map fun c => (c.name, c.dump))) := by
  rw [Place.dump_eq h]
  rfl

theorem objectAt?_cons {n : Node} (h : n.shape ≠ .enumMarker) (key : String)
    (rest : List String) :
    n.dump.objectAt? (key :: rest) =
      ((n.dumpedBelow.find? (key == ·.name)).map Place.dump).bind (·.objectAt? rest) := by
  rw [Json.objectAt?, member?_children_dump h, Option.bind_some, Json.member?,
    Place.lookup_named]

/-- Names lead to an object of the dump exactly if they lead to a node that is no enum leaf, and to
the object of this node. -/
theorem Sound.objectAt?_dump (h : t.Sound) :
    ∀ (keys : List String) {n : Node}, n ∈ t.nodes → n.shape ≠ .enumMarker →
      n.dump.objectAt? keys = ((n.walk? keys).filter Place.isDumped).map Place.dump
  | [], n, _, hshape => by
      rw [Place.walk?, Option.filter_some, if_pos (Place.isDumped_iff.mpr hshape)]
      rfl
  | key :: rest, n, hn, hshape => by
      have hbelow : ∀ c ∈ n.below, c.WellFormed := fun c hc =>
        h.wellFormed c (mem_nodes_of_mem_below hn hc)
      rw [objectAt?_cons hshape, (h.wellFormed n hn).find?_dumpedBelow hbelow, Place.walk?]
      cases hc : n.child? key with
      | none => rfl
      | some c =>
          have hmem := mem_nodes_of_child? hn hc
          rw [Option.bind_some, Option.filter_some]
          split
          · next hshown =>
              exact h.objectAt?_dump rest hmem (Place.isDumped_iff.mp hshown)
          · next hleft =>
              cases rest with
              | nil =>
                  rw [Place.walk?, Option.filter_some, if_neg hleft]
                  rfl
              | cons next rest =>
                  have hmarker := Place.not_isDumped_iff.mp hleft
                  rw [Place.walk?_of_leaf ((h.wellFormed c hmem).leaf hmarker)]
                  rfl

/-- The children in a dump are made by one pass over the keys of the node: under each key the
dump of the node it leads to, unless that is an enum leaf. -/
theorem Sound.dumped_eq_childIds (h : t.Sound) {n : Node} (hn : n ∈ t.nodes) :
    (n.dumpedBelow.map fun c => (c.name, c.dump)) =
      n.childIds.filterMap fun (key, id) =>
        ((t.node? id).filter Place.isDumped).map fun c => (key, c.dump) := by
  rw [Place.dumpedBelow, Place.childIds]
  have hbelow : ∀ c ∈ n.below, c ∈ t.nodes := fun c hc => mem_nodes_of_mem_below hn hc
  generalize n.below = cs at hbelow ⊢
  induction cs with
  | nil => rfl
  | cons c rest ih =>
      have hc := hbelow c List.mem_cons_self
      have hrest := ih fun d hd => hbelow d (List.mem_cons_of_mem _ hd)
      rw [List.flatMap_cons, List.filterMap_append, ← hrest, List.filterMap_map]
      have hfound : t.node? c.id = some c := h.node?_id hc
      by_cases hshown : c.isDumped = true
      · have hplain : c.entry.numbered = false := by
          cases hnumbered : c.entry.numbered with
          | false => rfl
          | true =>
              exact absurd ((h.wellFormed c hc).numbered hnumbered) (Place.isDumped_iff.mp hshown)
        have hkeys : c.entry.keys = [c.name] := by
          rw [Entry.keys, hplain]
          rfl
        rw [List.filter_cons_of_pos hshown, hkeys]
        simp [hfound, hshown]
      · rw [List.filter_cons_of_neg hshown]
        simp [hfound, hshown]

/-! ## One way to every object -/

/-- A walk goes to larger numbers, one at least for every key. -/
theorem Sound.id_add_length_le (h : t.Sound) :
    ∀ (keys : List String) {n d : Node}, n ∈ t.nodes → n.walk? keys = some d →
      d ∈ t.nodes ∧ n.id + keys.length ≤ d.id
  | [], n, d, hn, hwalk => by
      cases hwalk
      exact ⟨hn, Nat.le_refl _⟩
  | key :: rest, n, d, hn, hwalk => by
      obtain ⟨c, hc, hrest⟩ := Option.bind_eq_some_iff.mp hwalk
      have hbelow := (Place.mem_below_of_child? hc).1
      have hlt := h.id_lt n hn c hbelow
      obtain ⟨hd, hle⟩ := h.id_add_length_le rest (mem_nodes_of_mem_below hn hbelow) hrest
      refine ⟨hd, ?_⟩
      rw [List.length_cons]
      omega

/-- Two ways down to the same node that is no enum leaf are one. -/
theorem Sound.walk?_injective (h : t.Sound) {n : Node} (hn : n ∈ t.nodes) :
    ∀ (keys keys' : List String) {d : Node}, n.walk? keys = some d → n.walk? keys' = some d →
      d.shape ≠ .enumMarker → keys = keys' := by
  -- From the end of the walk: the parent of a node and the key to it are its own.
  intro keys
  induction keys using List.reverseRecOn with
  | nil =>
      intro keys' d hwalk hwalk' _
      cases hwalk
      have hle := (h.id_add_length_le keys' hn hwalk').2
      exact (List.length_eq_zero_iff.mp (by omega)).symm
  | append_singleton front key ih =>
      intro keys' d hwalk hwalk' hshape
      rcases List.eq_nil_or_concat keys' with rfl | ⟨front', key', rfl⟩
      · cases hwalk'
        have hle := (h.id_add_length_le _ hn hwalk).2
        rw [List.length_append, List.length_singleton] at hle
        omega
      · rw [walk?_append] at hwalk
        rw [List.concat_eq_append, walk?_append] at hwalk'
        obtain ⟨q, hq, hd⟩ := Option.bind_eq_some_iff.mp hwalk
        obtain ⟨q', hq', hd'⟩ := Option.bind_eq_some_iff.mp hwalk'
        have hmem := (h.id_add_length_le _ hn hq).1
        have hmem' := (h.id_add_length_le _ hn hq').1
        have hbelow := (Place.mem_below_of_child? hd).1
        have hparent := h.parent?_of_mem_below hmem hbelow
        have hparent' := h.parent?_of_mem_below hmem' (Place.mem_below_of_child? hd').1
        obtain rfl : q = q' := Option.some.inj (hparent.symm.trans hparent')
        have hkey : key = key' :=
          (h.name_of_child? hmem hd hshape).symm.trans (h.name_of_child? hmem hd' hshape)
        rw [ih front' hq hq' (h.shape_ne_marker hmem hbelow), hkey, List.concat_eq_append]

theorem Sound.nodup_nodes (h : t.Sound) : t.nodes.Nodup := by
  have hids : (t.nodes.map (·.label.id)).Nodup := by
    rw [h.ids]
    exact List.nodup_range
  exact hids.of_map

/-! ## Dumps -/

/-- What makes the dump of a node exact. -/
structure DumpedExactly (t : Tree) (n : Node) : Prop where
  /-- The subtree is the node and what has the node above it, each once. -/
  within : ∀ d, d ∈ n.subtree ↔ t.Within n d
  nodup : n.subtree.Nodup
  /-- The objects are those of the nodes that are no enum leaves, one each. -/
  objects : n.dump.nodeObjects = (n.subtree.filter Place.isDumped).map Place.dump
  /-- Names lead to the object of the node to which they lead in the tree. -/
  reached : ∀ names, n.dump.objectAt? names =
    ((n.walk? names).filter Place.isDumped).map Place.dump
  /-- One list of names leads to each node. -/
  named : ∀ d ∈ n.subtree, d.shape ≠ .enumMarker → ∃! names, n.walk? names = some d
  /-- The object of a node says its name and its type and has its children under their names. -/
  written : ∀ d ∈ n.subtree, d.shape ≠ .enumMarker →
    d.dump = .obj [("name", .str d.name), ("type_str", .str d.entry.declaredType),
      ("children", .obj (d.dumpedBelow.map fun c => (c.name, c.dump)))] ∧
    (d.dumpedBelow.map (·.name)).Nodup
  /-- These are all that the keys of the node lead to, enum leaves apart. -/
  inserted : ∀ d ∈ n.subtree, d.shape ≠ .enumMarker →
    d.dump.member? "children" = some (.obj (d.childIds.filterMap fun (key, id) =>
      ((t.node? id).filter Place.isDumped).map fun c => (key, c.dump)))

theorem Sound.dumpedExactly (h : t.Sound) {n : Node} (hn : n ∈ t.nodes)
    (hshape : n.shape ≠ .enumMarker) : t.DumpedExactly n where
  within := fun d => (h.within_iff hn).symm
  nodup := h.nodup_nodes.sublist (Place.subtree_isInfix hn).sublist
  objects := h.nodeObjects_dump hn hshape
  reached := fun names => h.objectAt?_dump names hn hshape
  named := by
    intro d hd hdshape
    have hwell : ∀ q ∈ n.subtree, q.WellFormed := fun q hq =>
      h.wellFormed q ((h.within_iff hn).mpr hq).1
    obtain ⟨names, hnames⟩ := exists_walk?_of_wellFormed hwell d hd
    exact ⟨names, hnames, fun others hothers => h.walk?_injective hn _ _ hothers hnames hdshape⟩
  written := by
    intro d hd hdshape
    have hwell := h.wellFormed d ((h.within_iff hn).mpr hd).1
    refine ⟨Place.dump_eq hdshape, ?_⟩
    exact hwell.nodup_names.sublist ((List.filter_sublist).map _)
  inserted := by
    intro d hd hdshape
    rw [member?_children_dump hdshape, h.dumped_eq_childIds ((h.within_iff hn).mpr hd).1]

/-- The dump of a node shows the nodes of its subtree that do not come from enums, each once and in
its place.  The dump of the whole tree has as many objects as there are such nodes, and that of an
enum leaf is empty. -/
theorem dump_exact {v : Vocabulary} {root : String} {m : Option Message}
    (built : (build v root m).value = .ok t) :
    (∀ id n, t.node? id = some n →
      (n.shape = .enumMarker → n.dump = .obj []) ∧
      (n.shape ≠ .enumMarker → t.DumpedExactly n)) ∧
    t.rootNode.dump.nodeObjects.length = t.nodes.countP (·.shape ≠ .enumMarker) := by
  have h := sound_of_build built
  constructor
  · intro id n hn
    exact ⟨Place.dump_of_marker, h.dumpedExactly (mem_nodes_of_node? hn)⟩
  · have hroot : t.rootNode.subtree = t.nodes := by
      rw [rootNode, nodes]
      cases t.root with
      | node l ts => rfl
    have hplain : t.rootNode.shape ≠ .enumMarker := by simp [h.root_plain]
    rw [h.nodeObjects_dump t.rootNode_mem_nodes hplain, List.length_map, hroot,
      ← List.countP_eq_length_filter]
    exact List.countP_congr fun n _ => by simp [Place.isDumped_iff]

/-- The dump of the small log has six objects for its sixteen nodes, and that of an enum leaf has
nothing in it. -/
theorem dump_exact_sampleTree :
    (∃ n, sampleTree.node? 8 = some n ∧ n.name = "history" ∧ sampleTree.DumpedExactly n) ∧
      (∃ n, sampleTree.node? 4 = some n ∧ n.name = "os" ∧ n.dump = .obj []) ∧
      sampleTree.rootNode.dump.nodeObjects.length = 6 ∧ sampleTree.size = 16 := by
  obtain ⟨hdump, hcount⟩ := dump_exact build_sampleLog
  refine ⟨⟨_, rfl, rfl, (hdump 8 _ rfl).2 (by decide)⟩, ⟨_, rfl, rfl, (hdump 4 _ rfl).1 rfl⟩, ?_,
    by decide +kernel⟩
  rw [hcount]
  decide +kernel

end Tree

end FieldAtlas
