import FieldAtlas.Proofs.Resolution.Keys
import FieldAtlas.Proofs.Tree.KeyRequirement

/-!
# `Kind` — what the kind of a result says of its target

A result is put together on the way, and its kind is overwritten where a record was opened.  Seen
from the end there is less to it: outside of records the kind can be read off the shape of the
target and the shape above it (`PathKind.ofShapes`), and within a record it is one and the same.

The same look at the end of the way tells which results have no path.  A walk that has opened no
record has passed plain nodes only, which ask for no key.  So a key is missing exactly if the
target itself asks for it, and `Tree.path_missing_iff` says where that can be: at a collection of
records as a whole, and at a placeholder that was called by its name.
-/

namespace FieldAtlas

/-- The kind of a result outside of records, by the shape of its target and the one above. -/
def PathKind.ofShapes (own : Shape) (above : Option Shape) : PathKind :=
  match own with
  | .plain => .normal
  | .listBag | .mapBag | .keyedRecords => .collectionList
  | .labelMap => .labelMapWhole
  | .enumMarker =>
    match above with
    | some .listBag | some .mapBag => .attributeEntry
    | some .labelMap => .labelMapLeaf
    | some .plain | some .enumMarker | some .keyedRecords | none => .enum

/-- A node that is meant as a whole has the kind that its shape says, wherever it stands. -/
theorem PathKind.ofShapes_whole {own : Shape} {kind : PathKind} (h : own.wholeKind? = some kind)
    (above : Option Shape) : PathKind.ofShapes own above = kind := by
  cases own with
  | plain | enumMarker => cases h
  | listBag | mapBag | keyedRecords | labelMap => exact Option.some.inj h

/-- A member of a bag is an attribute entry. -/
theorem PathKind.ofShapes_member {above : Shape} (h : above.isBag = true) :
    PathKind.ofShapes .enumMarker (some above) = .attributeEntry := by
  cases above with
  | listBag | mapBag => rfl
  | plain | enumMarker | keyedRecords | labelMap => cases h

theorem PathKind.ofShapes_placeholder {above : Shape} (h : above.takesExternalKey = true) :
    PathKind.ofShapes .enumMarker (some above) = above.placeholderKind := by
  cases above with
  | mapBag | labelMap => rfl
  | plain | enumMarker | listBag | keyedRecords => cases h

/-- The shape above a target. -/
def Target.shapeAbove? (t : Target) : Option Shape := t.parent?.map (·.entry.shape)

/-- What holds of a result for which no record was opened. -/
structure Resolution.Outside (r : Resolution) : Prop where
  kind : r.kind = .ofShapes r.target.entry.shape r.target.shapeAbove?
  /-- Nothing above the target asks for a key. -/
  render : ∃ text, r.target.site.render .dotted none =
    if r.target.site.hasKeyEnding then .error r.target.site.missingKey else .ok text
  /-- A key was given for a placeholder only. -/
  placeholder : r.labelKey.isSome = true → r.target.entry.shape = .enumMarker ∧
    r.target.shapeAbove?.any (·.takesExternalKey) = true
  /-- What stands below a label map was given a key. -/
  label : r.target.entry.shape = .enumMarker → r.target.shapeAbove? = some .labelMap →
    r.labelKey.isSome = true

/-! ## One step below a node that asks for no key -/

namespace Tree.Sound

variable {t : Tree} {q c : Node} {key : String} {r : Resolution}

/-- Below a node that asks for no key, a key is missing for an entry exactly if the ending of the
entry has one. -/
theorem render_entry_below (h : t.Sound) (hq : q ∈ t.nodes) (hfree : q.site.requiresKey = false)
    (e : Entry) : ∃ text, Site.render ⟨e, q.label :: q.above⟩ .dotted none =
      if Site.hasKeyEnding ⟨e, q.label :: q.above⟩ then .error ⟨e.name, e.shape⟩ else .ok text := by
  obtain ⟨start, hstart⟩ := h.exists_render hq hfree
  have hstep : Site.render ⟨e, q.label :: q.above⟩ .dotted none =
      (q.site.render .dotted none).bind fun start =>
        (Site.ending .dotted none q.entry e).map (start ++ ·) := rfl
  have hopen : .key ∈ Site.endingTemplate .dotted q.entry e ↔
      Site.hasKeyEnding ⟨e, q.label :: q.above⟩ = true :=
    Site.key_mem_endingTemplate_iff .dotted q.entry e
  refine ⟨start ++ (Site.endingTemplate .dotted q.entry e).fill 0, ?_⟩
  rw [hstep, hstart, Site.ending_none .dotted 0]
  by_cases hkey : Site.hasKeyEnding ⟨e, q.label :: q.above⟩ = true
  · rw [if_pos hkey, if_pos (hopen.mpr hkey)]
    rfl
  · rw [if_neg hkey, if_neg (mt hopen.mp hkey)]
    rfl

/-- The target stands right below a node that asks for no key. -/
theorem outside_of_below (h : t.Sound) (hq : q ∈ t.nodes) (hfree : q.site.requiresKey = false)
    (habove : r.target.site.above = q.label :: q.above)
    (hkind : r.kind = .ofShapes r.target.entry.shape (some q.shape))
    (hplaceholder : r.labelKey.isSome = true →
      r.target.entry.shape = .enumMarker ∧ q.shape.takesExternalKey = true)
    (hlabel : q.shape = .labelMap → r.labelKey.isSome = true) : r.Outside := by
  have hparent : r.target.shapeAbove? = some q.shape := by
    rw [Target.shapeAbove?, Target.parent?, habove]
    rfl
  have hsite : r.target.site = ⟨r.target.entry, q.label :: q.above⟩ := by
    rw [← habove]
    rfl
  constructor
  case kind => rw [hparent, hkind]
  case render =>
    rw [hsite]
    exact h.render_entry_below hq hfree r.target.entry
  case placeholder =>
    rw [hparent]
    exact hplaceholder
  case label =>
    rw [hparent]
    exact fun _ hshape => hlabel (Option.some.inj hshape)

/-- A bag or a label map below a node outside of records asks for no key. -/
theorem holder_of_child? (h : t.Sound) (hq : q ∈ t.nodes) (hin : q.site.inRecords = false)
    (hc : q.child? key = some c) (hholds : c.shape.isBag = true ∨ c.shape = .labelMap) :
    c ∈ t.nodes ∧ c.site.requiresKey = false := by
  have hmem := mem_nodes_of_child? hq hc
  obtain ⟨-, hmarker, hrecords⟩ := Shape.ne_of_holds hholds
  refine ⟨hmem, h.requiresKey_of_outside hmem hmarker ?_⟩
  rw [Place.inRecords_of_mem_below (Place.mem_below_of_child? hc).1, hin, Bool.or_false]
  exact beq_eq_false_iff_ne.mpr hrecords

theorem member_of_child? (h : t.Sound) (hq : q ∈ t.nodes)
    (hholds : q.shape.isBag = true ∨ q.shape = .labelMap) (hc : q.child? key = some c) :
    c.entry.shape = .enumMarker ∧ c.above = q.label :: q.above := by
  have hbelow := (Place.mem_below_of_child? hc).1
  exact ⟨(h.wellFormed q hq).members hholds c hbelow, Place.above_of_mem_below hbelow⟩

end Tree.Sound

/-! ## The end of a chain -/

theorem Site.hasKeyEnding_of_plain {s : Site} (h : s.entry.shape = .plain) :
    s.hasKeyEnding = false := by
  rw [hasKeyEnding, bearsKey, h]

section

variable {t : Tree} {p : Policy} {segments : List Segment} {steps : List Step} {last : Node}
  {r : Resolution}

/-- A chain that opens no record passes plain nodes only. -/
theorem Chain.shape_last_of_no_key {n : Node} (h : Chain n steps last)
    (hnone : steps.findSome? (·.key) = none) (hn : n.shape = .plain) : last.shape = .plain := by
  induction h with
  | nil => exact hn
  | @cons n last s rest hc hgoes _ ih =>
      rw [List.findSome?_cons] at hnone
      rcases hgoes with ⟨hshape, hkey⟩ | ⟨-, hkey⟩
      · rw [hkey] at hnone
        exact ih hnone hshape
      · obtain ⟨k, hk⟩ := Option.isSome_iff_exists.mp hkey
        rw [hk] at hnone
        cases hnone

/-- What a chain from the root comes to, if no record was opened on the way. -/
theorem SpellsChain.outside (h : t.Sound) (hspells : SpellsChain p t.rootNode segments r)
    (hnone : r.collectionKey = none) : r.Outside := by
  obtain ⟨steps, last, ending, found, rfl, hchain, harrival, rfl⟩ := hspells
  rw [Resolution.collectionKey_behind steps harrival.collectionKey_eq_none] at hnone
  rw [Resolution.behind_of_no_key (List.findSome?_eq_none_iff.mp hnone)]
  have hplain := hchain.shape_last_of_no_key hnone h.root_plain
  have hlast := hchain.last_mem_nodes t.rootNode_mem_nodes
  have hin : last.site.inRecords = false := by
    rw [hchain.inRecords_last, h.inRecords_rootNode, hnone]
    rfl
  have hfree : last.site.requiresKey = false :=
    h.requiresKey_of_outside hlast (by simp [hplain]) hin
  have hchild : ∀ {name : String} {c : Node}, last.child? name = some c →
      c.above = last.label :: last.above :=
    fun hc => Place.above_of_mem_below (Place.mem_below_of_child? hc).1
  cases harrival with
  | here =>
      have hentry : last.entry.shape = .plain := hplain
      obtain ⟨text, htext⟩ := h.exists_render hlast hfree
      have hclosed : last.site.hasKeyEnding = false := Site.hasKeyEnding_of_plain hplain
      refine ⟨?_, ⟨text, ?_⟩, nofun, fun hmarker => ?_⟩
      · show PathKind.normal = .ofShapes last.entry.shape _
        rw [hentry]
        rfl
      · show last.site.render .dotted none = if last.site.hasKeyEnding then _ else _
        rw [hclosed]
        exact htext none
      · cases hentry.symm.trans hmarker
  | @marker c _ _ hc hshape =>
      have hentry : c.entry.shape = .enumMarker := hshape
      refine h.outside_of_below hlast hfree (hchild hc) ?_ nofun (by simp [hplain])
      show PathKind.enum = .ofShapes c.entry.shape _
      rw [hentry, hplain]
      rfl
  | whole hc hkind =>
      exact h.outside_of_below hlast hfree (hchild hc) (PathKind.ofShapes_whole hkind _).symm nofun
        (by simp [hplain])
  | @byName c m _ _ hc hisBag _ hm =>
      obtain ⟨hmem, hasks⟩ := h.holder_of_child? hlast hin hc (Or.inl hisBag)
      obtain ⟨hmarker, habove⟩ := h.member_of_child? hmem (Or.inl hisBag) hm
      refine h.outside_of_below hmem hasks habove ?_ nofun fun hlabels => ?_
      · show PathKind.attributeEntry = .ofShapes m.entry.shape _
        rw [hmarker, PathKind.ofShapes_member hisBag]
      · rw [hlabels] at hisBag
        cases hisBag
  | @byNumber c m _ _ _ hc hlist _ hm =>
      have hisBag : c.shape.isBag = true := by rw [hlist]; rfl
      obtain ⟨hmem, hasks⟩ := h.holder_of_child? hlast hin hc (Or.inl hisBag)
      obtain ⟨hmarker, habove⟩ := h.member_of_child? hmem (Or.inl hisBag) hm
      refine h.outside_of_below hmem hasks habove ?_ nofun (by simp [hlist])
      show PathKind.attributeEntry = .ofShapes m.entry.shape _
      rw [hmarker, PathKind.ofShapes_member hisBag]
  | @madeUp c _ _ _ hc hlist =>
      have hisBag : c.shape.isBag = true := by rw [hlist]; rfl
      obtain ⟨hmem, hasks⟩ := h.holder_of_child? hlast hin hc (Or.inl hisBag)
      refine h.outside_of_below hmem hasks rfl ?_ nofun (by simp [hlist])
      exact (PathKind.ofShapes_member hisBag).symm
  | @placeholder c m _ _ _ hc hexternal _ hm =>
      have hholds := Shape.holds_of_takesExternalKey hexternal
      obtain ⟨hmem, hasks⟩ := h.holder_of_child? hlast hin hc hholds
      obtain ⟨hmarker, habove⟩ := h.member_of_child? hmem hholds hm
      refine h.outside_of_below hmem hasks habove ?_ (fun _ => ⟨hmarker, hexternal⟩) fun _ => rfl
      show c.shape.placeholderKind = .ofShapes m.entry.shape _
      rw [hmarker, PathKind.ofShapes_placeholder hexternal]

end

/-! ## Results without a path -/

/-- Outside of records, a result that has no key lacks one at a collection of records, and at a
placeholder of a bag that was called by its name. -/
theorem Resolution.Outside.hasKeyEnding_iff {r : Resolution} (h : r.Outside)
    (hlabel : r.labelKey = none) :
    r.target.site.hasKeyEnding = true ↔
      r.kind = .collectionList ∧ r.target.entry.shape = .keyedRecords ∨
      r.kind = .attributeEntry ∧ r.labelKey = none ∧ r.target.shapeAbove? = some .mapBag := by
  have hending : r.target.site.hasKeyEnding =
      Site.bearsKey (r.target.parent?.map (·.entry)) r.target.entry := rfl
  have hexternal : (r.target.parent?.map (·.entry)).any (·.shape.takesExternalKey) =
      r.target.shapeAbove?.any (·.takesExternalKey) := by
    rw [Target.shapeAbove?]
    cases r.target.parent? <;> rfl
  have hnotLabel := h.label
  rw [hending, Site.bearsKey, hexternal, h.kind, hlabel]
  rw [hlabel] at hnotLabel
  cases hshape : r.target.entry.shape with
  | plain | listBag | mapBag | labelMap | keyedRecords => simp [PathKind.ofShapes]
  | enumMarker =>
      cases habove : r.target.shapeAbove? with
      | none => simp [PathKind.ofShapes]
      | some above =>
          cases above with
          | labelMap => exact absurd (hnotLabel hshape habove) Bool.false_ne_true
          | plain | enumMarker | listBag | mapBag | keyedRecords =>
              simp [PathKind.ofShapes, Shape.takesExternalKey]

/-- A result has no path exactly if it is a collection of records as a whole, or a placeholder of a
bag that was called by its name.  Then it is the target itself whose key is missing. -/
theorem Tree.path_missing_iff {v : Vocabulary} {root : String} {m : Option Message} {t : Tree}
    (built : (build v root m).value = .ok t) {p : Policy} {raw : String} {r : Resolution}
    (found : resolveFrom p t.rootNode raw = .ok r) :
    ((∃ missing, (r.path .dotted).value = .error missing) ↔
      r.kind = .collectionList ∧ r.target.entry.shape = .keyedRecords ∨
      r.kind = .attributeEntry ∧ r.labelKey = none ∧ r.target.shapeAbove? = some .mapBag) ∧
    ∀ missing, (r.path .dotted).value = .error missing →
      missing = ⟨r.target.entry.name, r.target.entry.shape⟩ := by
  have h := sound_of_build built
  obtain ⟨path, -, rest, -, inner, hspells, rfl⟩ := exists_chain_of_resolveFrom found
  -- With a key every site has a path.
  have hwithKey : ∀ {k}, inner.key = some k →
      ∃ text, inner.target.site.render .dotted (inner.key.map Int.ofNat) = .ok text := by
    intro k hk
    rw [hk]
    exact ⟨_, Site.render_some _ .dotted k⟩
  simp only [Resolution.path, Site.value_path]
  show ((∃ missing, inner.target.site.render .dotted (inner.key.map Int.ofNat) = .error missing) ↔
      inner.kind = .collectionList ∧ inner.target.entry.shape = .keyedRecords ∨
      inner.kind = .attributeEntry ∧ inner.labelKey = none ∧
        inner.target.shapeAbove? = some .mapBag) ∧
    ∀ missing, inner.target.site.render .dotted (inner.key.map Int.ofNat) = .error missing →
      missing = inner.target.site.missingKey
  cases hcollection : inner.collectionKey with
  | some k =>
      obtain ⟨text, htext⟩ := hwithKey (by rw [Resolution.key, hcollection]; rfl)
      rw [hspells.kind_of_collectionKey hcollection, htext]
      simp
  | none =>
      have houtside := hspells.outside h hcollection
      cases hlabel : inner.labelKey with
      | some k =>
          obtain ⟨text, htext⟩ := hwithKey (by rw [Resolution.key, hcollection, hlabel]; rfl)
          have hmarker := (houtside.placeholder (by rw [hlabel]; rfl)).1
          rw [htext, hmarker]
          simp
      | none =>
          have hkey : inner.key = none := by rw [Resolution.key, hcollection, hlabel]; rfl
          obtain ⟨text, hrender⟩ := houtside.render
          have hiff := houtside.hasKeyEnding_iff hlabel
          rw [hlabel] at hiff
          rw [hkey, ← hiff]
          show ((∃ missing, inner.target.site.render .dotted none = .error missing) ↔ _) ∧
            ∀ missing, inner.target.site.render .dotted none = .error missing → _
          rw [hrender]
          cases inner.target.site.hasKeyEnding with
          | true => exact ⟨iff_of_true ⟨_, rfl⟩ rfl, fun _ h => (Except.error.inj h).symm⟩
          | false => simp

/-- A collection of records as a whole. -/
theorem Tree.path_missing_iff_collection :
    ∃ r, resolveFrom {} sampleTree.rootNode "log.history" = .ok r ∧
      (r.path .dotted).value = .error ⟨"history", .keyedRecords⟩ := by
  have hparse : Path.parse "log.history" = .ok ⟨"log.history", "log.history",
      [.field "log", .field "history"], none⟩ := by
    decide +kernel
  have hdescent : Descent {} sampleTree.rootNode [.field "history"] _ := .collection rfl rfl
  have found := resolveFrom_eq_ok_iff.mpr ⟨_, hparse, _, rfl, _, hdescent, rfl⟩
  obtain ⟨hiff, hmissing⟩ := path_missing_iff build_sampleLog found
  obtain ⟨missing, hpath⟩ := hiff.mpr (Or.inl ⟨rfl, rfl⟩)
  rw [hmissing missing hpath] at hpath
  exact ⟨_, found, hpath⟩

end FieldAtlas
