import FieldAtlas.Proofs.Resolution.Keys
import FieldAtlas.Proofs.Tree.KeyRequirement

/-!
# `Placeholder` — which key a placeholder is rendered with

A label map, and a bag of the kind that takes external keys, do not list their keys.  They have one
placeholder, and whoever asks for it has to supply the key.  A result keeps that key apart from
the key of a record around it, but rendering gets the two as one (`Resolution.key`), so it matters
which of them is there.

A path has one key at most.  If it was supplied for the placeholder, none has opened a record, and
the canonical path ends in the supplied key.  If there is no key at all, there is no canonical
path.  What remains is a placeholder that is called by its name inside a record: it is rendered
with the key of the record, which was never meant for it.
-/

namespace FieldAtlas

namespace Site

/-- The site right above. -/
def parent? (s : Site) : Option Site :=
  match s.above with
  | [] => none
  | l :: above => some ⟨l.entry, above⟩

/-- The site is an enum leaf right below one whose shape takes external keys. -/
structure IsPlaceholderOf (s q : Site) : Prop where
  marker : s.entry.shape = .enumMarker
  parent : s.parent? = some q
  external : q.entry.shape.takesExternalKey = true

end Site

theorem Place.parent?_site {n c : Node} (hc : c ∈ n.below) : c.site.parent? = some n.site := by
  rw [site_of_mem_below hc]
  rfl

/-! ## The path of a placeholder -/

namespace Site.IsPlaceholderOf

variable {s q : Site}

/-- All that a placeholder adds to the path of its parent is a key. -/
theorem render (h : s.IsPlaceholderOf q) (key : Option Int) :
    s.render .dotted key = (q.render .dotted key).bind fun start =>
      (keyEnding .dotted key s.entry).map (start ++ ·) := by
  obtain ⟨e, above⟩ := s
  cases above with
  | nil => cases h.parent
  | cons l above =>
      obtain rfl : (⟨l.entry, above⟩ : Site) = q := Option.some.inj h.parent
      have hending : ending .dotted key l.entry e = keyEnding .dotted key e := by
        have hmarker : e.shape = .enumMarker := h.marker
        rw [ending, hmarker]
        exact if_pos h.external
      rw [← hending]
      rfl

theorem render_some (h : s.IsPlaceholderOf q) {k : Int} {start : String}
    (hstart : q.render .dotted (some k) = .ok start) :
    s.render .dotted (some k) = .ok (start ++ ".key:" ++ Decimal.text k) := by
  rw [h.render, hstart, String.append_assoc]
  rfl

/-- Without a key a placeholder fails, on its own account if its parent needs none. -/
theorem render_none (h : s.IsPlaceholderOf q) {start : String}
    (hstart : q.render .dotted none = .ok start) :
    s.render .dotted none = .error ⟨s.entry.name, .enumMarker⟩ := by
  rw [h.render, hstart, ← h.marker]
  rfl

end Site.IsPlaceholderOf

/-! ## How a placeholder is reached -/

section

variable {t : Tree} {p : Policy} {n : Node} {segments : List Segment} {r : Resolution} {q : Site}

/-- A chain arrives at a placeholder from a child of its last node. -/
theorem Arrival.above_placeholder (h : Arrival p n segments r)
    (hshape : n.shape = .plain ∨ n.shape = .keyedRecords)
    (hplaceholder : r.target.site.IsPlaceholderOf q) : ∃ c ∈ n.below, c.site = q := by
  have hmember : ∀ {c m : Node} {name member : String}, n.child? name = some c →
      c.child? member = some m → m.site.parent? = some q → ∃ c ∈ n.below, c.site = q := by
    intro c m name member hc hm hq
    rw [Place.parent?_site (Place.mem_below_of_child? hm).1] at hq
    exact ⟨c, (Place.mem_below_of_child? hc).1, Option.some.inj hq⟩
  cases h with
  | here =>
      have hmarker : n.shape = .enumMarker := hplaceholder.marker
      simp [hmarker] at hshape
  | marker hc =>
      -- A leaf right below the last node is no placeholder: plain nodes and records take no keys.
      have hparent := hplaceholder.parent
      rw [Target.site, Place.parent?_site (Place.mem_below_of_child? hc).1] at hparent
      obtain rfl := Option.some.inj hparent
      have hexternal : n.shape.takesExternalKey = true := hplaceholder.external
      rcases hshape with hshape | hshape <;> simp [hshape, Shape.takesExternalKey] at hexternal
  | @whole c _ _ _ hkind =>
      have hmarker : c.shape = .enumMarker := hplaceholder.marker
      simp [hmarker, Shape.wholeKind?] at hkind
  | byName hc _ _ hm => exact hmember hc hm hplaceholder.parent
  | byNumber hc _ _ hm => exact hmember hc hm hplaceholder.parent
  | placeholder hc _ _ hm => exact hmember hc hm hplaceholder.parent
  | madeUp hc => exact ⟨_, (Place.mem_below_of_child? hc).1, Option.some.inj hplaceholder.parent⟩

/-- The bag or label map above a placeholder stands within a record exactly if a key has opened one
on the way. -/
theorem SpellsChain.above_placeholder (h : t.Sound) (hspells : SpellsChain p t.rootNode segments r)
    (hplaceholder : r.target.site.IsPlaceholderOf q) :
    ∃ c ∈ t.nodes, c.site = q ∧ c.site.inRecords = r.collectionKey.isSome := by
  obtain ⟨steps, last, ending, found, rfl, hchain, harrival, rfl⟩ := hspells
  rw [Resolution.target_behind] at hplaceholder
  have hshape := hchain.shape_last (Or.inl h.root_plain)
  obtain ⟨c, hc, rfl⟩ := harrival.above_placeholder hshape hplaceholder
  have hlast := hchain.last_mem_nodes t.rootNode_mem_nodes
  refine ⟨c, Tree.mem_nodes_of_mem_below hlast hc, rfl, ?_⟩
  have hrecords : (c.shape == .keyedRecords) = false := by
    show (c.site.entry.shape == .keyedRecords) = false
    rcases Shape.eq_of_takesExternalKey hplaceholder.external with hbag | hlabels
    · rw [hbag]
      rfl
    · rw [hlabels]
      rfl
  rw [Place.inRecords_of_mem_below hc, hrecords, Bool.false_or, hchain.inRecords_last,
    h.inRecords_rootNode, Bool.false_or,
    Resolution.collectionKey_behind steps harrival.collectionKey_eq_none]

end

/-- A placeholder is rendered with the key that was supplied for it, if there is one.  If there is
none it cannot be rendered, unless a record was opened on the way: then the key of the record is
taken in its place. -/
theorem Tree.path_of_placeholder {v : Vocabulary} {root : String} {m : Option Message} {t : Tree}
    (built : (build v root m).value = .ok t) {p : Policy} {raw : String} {r : Resolution}
    (found : resolveFrom p t.rootNode raw = .ok r) {q : Site}
    (hplaceholder : r.target.site.IsPlaceholderOf q) :
    (∀ k, r.labelKey = some k → r.collectionKey = none ∧
      ∃ start, (q.path .dotted none).value = .ok start ∧
        (r.path .dotted).value = .ok (start ++ ".key:" ++ Decimal.text k)) ∧
    (r.labelKey = none → r.collectionKey = none →
      (r.path .dotted).value = .error ⟨r.target.entry.name, .enumMarker⟩) ∧
    (r.labelKey = none → ∀ k, r.collectionKey = some k →
      ∃ start, (q.path .dotted (some k)).value = .ok start ∧
        (r.path .dotted).value = .ok (start ++ ".key:" ++ Decimal.text k)) := by
  have h := sound_of_build built
  obtain ⟨path, hparse, rest, hsegments, inner, hspells, rfl⟩ := exists_chain_of_resolveFrom found
  have hone := hspells.one_key (Path.rest_of_parse hparse hsegments).2
  obtain ⟨c, hc, rfl, hrecords⟩ := hspells.above_placeholder h hplaceholder
  have houtside : inner.collectionKey = none →
      ∃ start, ∀ key, c.site.render .dotted key = .ok start := by
    intro hnone
    rw [hnone] at hrecords
    refine h.exists_render hc (h.requiresKey_of_outside hc (fun hmarker => ?_) hrecords)
    rcases Shape.eq_of_takesExternalKey hplaceholder.external with hbag | hlabels
    · cases hmarker.symm.trans hbag
    · cases hmarker.symm.trans hlabels
  simp only [Resolution.path, Resolution.key, Site.value_path]
  refine ⟨fun k hlabel => ?_, fun hlabel hcollection => ?_, fun _ k hcollection => ?_⟩
  · have hcollection : inner.collectionKey = none := by simpa [hlabel] using hone
    obtain ⟨start, hstart⟩ := houtside hcollection
    refine ⟨hcollection, start, hstart none, ?_⟩
    rw [hcollection, hlabel]
    exact hplaceholder.render_some (hstart (some k))
  · obtain ⟨start, hstart⟩ := houtside hcollection
    rw [hcollection, hlabel]
    exact hplaceholder.render_none (hstart none)
  · have hstart := c.site.render_some .dotted k
    rw [hcollection]
    exact ⟨_, hstart, hplaceholder.render_some hstart⟩

/-! ## A log with labels

A bag with a placeholder, at the top and within a record. -/

def sampleLabelled : Message where
  name := "LabelledLog"
  fields := [
    { name := "labels", number := 1, type := .message sampleLabels },
    { name := "history", number := 2,
      type := .map .int64 (.message { sampleHistory with
        fields := [{ name := "labels", number := 1, type := .message sampleLabels }] }) }]

def sampleLabelledTree : Tree := .ofEntries (Tree.rootBranch {} "log" sampleLabelled).value

theorem build_sampleLabelled :
    (Tree.build {} "log" (some sampleLabelled)).value = .ok sampleLabelledTree := rfl

/-- Called by its name at the top, the placeholder has no path. -/
theorem Tree.path_of_placeholder_by_name :
    ∃ r, resolveFrom {} sampleLabelledTree.rootNode "log.labels.UNKNOWN_NAME" = .ok r ∧
      r.labelKey = none ∧
      (r.path .dotted).value = .error ⟨"UNKNOWN_NAME", .enumMarker⟩ := by
  have hparse : Path.parse "log.labels.UNKNOWN_NAME" = .ok ⟨"log.labels.UNKNOWN_NAME",
      "log.labels.UNKNOWN_NAME", [.field "log", .field "labels", .field "UNKNOWN_NAME"], none⟩ := by
    decide +kernel
  have hdescent : Descent {} sampleLabelledTree.rootNode
      [.field "labels", .field "UNKNOWN_NAME"] _ :=
    .bagName rfl rfl (by decide +kernel) rfl
  have found := resolveFrom_eq_ok_iff.mpr ⟨_, hparse, _, rfl, _, hdescent, rfl⟩
  obtain ⟨-, hnone, -⟩ := path_of_placeholder build_sampleLabelled found ⟨rfl, rfl, rfl⟩
  exact ⟨_, found, rfl, hnone rfl rfl⟩

/-- Called by its name within a record, it is rendered with the key of the record, although no key
was supplied for it. -/
theorem Tree.path_of_placeholder_in_record :
    (build {} "log" (some sampleLabelled)).value = .ok sampleLabelledTree ∧
    ∃ r n q, resolveFrom {} sampleLabelledTree.rootNode "log.history.key:7.labels.UNKNOWN_NAME" =
        .ok r ∧
      r.target = .listed n ∧ n.shape = .enumMarker ∧ sampleLabelledTree.parent? n = some q ∧
      q.shape = .mapBag ∧ r.labelKey = none ∧ r.collectionKey = some 7 ∧
      (r.path .dotted).value = .ok "log.history.key:7.labels.key:7" := by
  have hparse : Path.parse "log.history.key:7.labels.UNKNOWN_NAME" =
      .ok ⟨"log.history.key:7.labels.UNKNOWN_NAME", "log.history.key:7.labels.UNKNOWN_NAME",
        [.field "log", .field "history", .key 7, .field "labels", .field "UNKNOWN_NAME"],
        none⟩ := by
    decide +kernel
  have hdescent : Descent {} sampleLabelledTree.rootNode
      [.field "history", .key 7, .field "labels", .field "UNKNOWN_NAME"] _ :=
    .record rfl rfl (.bagName rfl rfl (by decide +kernel) rfl)
  have found := resolveFrom_eq_ok_iff.mpr ⟨_, hparse, _, rfl, _, hdescent, rfl⟩
  exact ⟨build_sampleLabelled, _, _, _, found, rfl, rfl, rfl, rfl, rfl, rfl, rfl⟩

end FieldAtlas
