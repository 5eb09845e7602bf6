import FieldAtlas.FieldSummary
import FieldAtlas.Proofs.Resolution.CanonicalPath
import FieldAtlas.Proofs.Resolution.Kind
import FieldAtlas.Proofs.Resolution.Placeholder

/-!
# `Summary` — the number in a summary and the number in its path

The path of a member of a bag ends in a number, its own or the key given for it, and the summary of
the member has a number too.  They come from different sources: the path is written by the shapes on
the line of the member, whereas the summary goes by the kind of the result.

Outside of records the kind follows from the shapes, so both say the same.  Within a record every
result has one kind, which hides that it is a member of a bag, and the summary is left with 0.
`Tree.attributeId_of_summary` has both cases.
-/

namespace FieldAtlas

/-! ## The number that a path ends in -/

/-- The path of a site is that of the site right above and an ending. -/
theorem Site.render_below {s q : Site} (hparent : s.parent? = some q) {key : Option Int}
    {text : String} (h : s.render .dotted key = .ok text) :
    ∃ start last, q.render .dotted key = .ok start ∧
      ending .dotted key q.entry s.entry = .ok last ∧ text = start ++ last := by
  obtain ⟨e, above⟩ := s
  cases above with
  | nil => cases hparent
  | cons l above =>
      obtain rfl : (⟨l.entry, above⟩ : Site) = q := Option.some.inj hparent
      exact Place.render_eq_ok (n := ⟨l, above, []⟩) h

/-- The placeholder of a bag ends in the key. -/
theorem Site.ending_of_mapBag {key : Option Int} {parent e : Entry} (hmap : parent.shape = .mapBag)
    (hmarker : e.shape = .enumMarker) : ending .dotted key parent e = keyEnding .dotted key e := by
  rw [ending, hmarker]
  exact if_pos (by rw [hmap]; rfl)

/-- The ending of a member of a bag is a number: that of the member if the bag lists its members,
and otherwise the key that is at hand. -/
theorem Site.exists_number_of_ending {key : Option Int} {parent e : Entry} {last : String}
    (hbag : parent.shape.isBag = true) (hmarker : e.shape = .enumMarker)
    (hlast : ending .dotted key parent e = .ok last) :
    ∃ number : Int, last = ".key:" ++ Decimal.text number ∧
      (parent.shape = .listBag → number = e.ordinal) ∧
      (parent.shape = .mapBag → key = some number) := by
  cases hshape : parent.shape with
  | plain | enumMarker | keyedRecords | labelMap =>
      rw [hshape] at hbag
      cases hbag
  | listBag =>
      rw [ending_member hshape hmarker] at hlast
      exact ⟨e.ordinal, (Except.ok.inj hlast).symm, fun _ => rfl, nofun⟩
  | mapBag =>
      rw [ending_of_mapBag hshape hmarker] at hlast
      cases key with
      | none => cases hlast
      | some k => exact ⟨k, (Except.ok.inj hlast).symm, nofun, fun _ => rfl⟩

theorem Target.shapeAbove?_eq (target : Target) :
    target.shapeAbove? = target.site.parent?.map (·.entry.shape) := by
  rw [shapeAbove?, parent?, Site.parent?]
  cases target.site.above <;> rfl

/-- What stands below a bag is an enum leaf, made up or not. -/
theorem Tree.Sound.shape_of_bag_above {t : Tree} (h : t.Sound) {target : Target} {q : Site}
    (hhome : target.home ∈ t.nodes) (hparent : target.site.parent? = some q)
    (hbag : q.entry.shape.isBag = true) : target.entry.shape = .enumMarker := by
  cases target with
  | synthesized bag key => rfl
  | listed n =>
      have hn : n ∈ t.nodes := hhome
      rcases eq_rootNode_or_mem_below hn with rfl | ⟨b, hb, hbelow⟩
      · rw [Target.site, site_rootNode] at hparent
        cases hparent
      · rw [Target.site, Place.parent?_site hbelow] at hparent
        obtain rfl := Option.some.inj hparent
        exact (h.wellFormed b hb).members (Or.inl hbag) n hbelow

/-! ## The number of a summary -/

/-- Within a record nothing is an attribute entry. -/
theorem SpellsChain.kind_ne_of_collectionKey {p : Policy} {n : Node} {segments : List Segment}
    {r : Resolution} {k : Nat} (h : SpellsChain p n segments r) (hk : r.collectionKey = some k) :
    r.kind ≠ .attributeEntry := by
  rw [h.kind_of_collectionKey hk]
  exact nofun

namespace FieldSummary

theorem ofResolution_eq_ok {r : Resolution} {s : FieldSummary}
    (hs : (ofResolution r).value = .ok s) :
    (r.path .dotted).value = .ok s.path ∧ s.attributeId = attributeIdOf r := by
  have hvalue : (ofResolution r).value =
      (r.path .dotted).value.map fun path => ⟨path, attributeIdOf r, r.declaredType⟩ := rfl
  rw [hvalue] at hs
  obtain ⟨path, hpath, rfl⟩ := map_eq_ok_iff.mp hs
  exact ⟨hpath, rfl⟩

/-- Only an attribute entry has a number. -/
theorem attributeIdOf_of_kind {r : Resolution} (h : r.kind ≠ .attributeEntry) :
    attributeIdOf r = 0 := by
  rw [attributeIdOf, if_neg h]

end FieldSummary

namespace Resolution.Outside

variable {r : Resolution} {above : Shape}

/-- Outside of records, a member of a bag has the number that its path ends in. -/
theorem attributeIdOf_of_member (h : r.Outside) (hnone : r.collectionKey = none)
    (hmarker : r.target.entry.shape = .enumMarker) (habove : r.target.shapeAbove? = some above)
    (hbag : above.isBag = true) {number : Int}
    (hlist : above = .listBag → number = r.target.entry.ordinal)
    (hmap : above = .mapBag → r.key.map Int.ofNat = some number) :
    FieldSummary.attributeIdOf r = number := by
  rw [FieldSummary.attributeIdOf, h.kind, hmarker, habove,
    if_pos (PathKind.ofShapes_member hbag)]
  cases above with
  | plain | enumMarker | keyedRecords | labelMap => cases hbag
  | listBag =>
      -- Keys are given for placeholders only.
      cases hlabel : r.labelKey with
      | none => exact (hlist rfl).symm
      | some k =>
          have hexternal := (h.placeholder (by rw [hlabel]; rfl)).2
          rw [habove] at hexternal
          cases hexternal
  | mapBag =>
      have hkey : r.labelKey.map Int.ofNat = some number := by
        rw [← hmap rfl, Resolution.key, hnone]
        rfl
      obtain ⟨k, hlabel, rfl⟩ := Option.map_eq_some_iff.mp hkey
      rw [hlabel]
      rfl

/-- Outside of records, what is no member of a bag has no number. -/
theorem attributeIdOf_of_no_bag (h : r.Outside)
    (habove : r.target.shapeAbove?.any (·.isBag) = false) : FieldSummary.attributeIdOf r = 0 := by
  refine FieldSummary.attributeIdOf_of_kind ?_
  rw [h.kind]
  cases r.target.entry.shape with
  | plain | listBag | mapBag | keyedRecords | labelMap => exact nofun
  | enumMarker =>
      cases hshape : r.target.shapeAbove? with
      | none => exact nofun
      | some above =>
          rw [hshape] at habove
          cases above with
          | listBag | mapBag => cases habove
          | plain | enumMarker | keyedRecords | labelMap => exact nofun

end Resolution.Outside

/-- The path of a member of a bag ends in a number.  The summary has the same number, unless a
record was opened on the way: then it has 0, as it has for all that is no member of a bag. -/
theorem Tree.attributeId_of_summary {v : Vocabulary} {root : String} {m : Option Message} {t : Tree}
    (built : (build v root m).value = .ok t) {p : Policy} {raw : String} {r : Resolution}
    (found : resolveFrom p t.rootNode raw = .ok r) {s : FieldSummary}
    (hs : (FieldSummary.ofResolution r).value = .ok s) :
    (∀ q, r.target.site.parent? = some q → q.entry.shape.isBag = true →
      ∃ start number, (q.path .dotted (r.key.map Int.ofNat)).value = .ok start ∧
        s.path = start ++ ".key:" ++ Decimal.text number ∧
        (q.entry.shape = .listBag → number = r.target.entry.ordinal) ∧
        (q.entry.shape = .mapBag → r.key.map Int.ofNat = some number) ∧
        s.attributeId = if r.collectionKey.isNone then number else 0) ∧
    ((∀ q, r.target.site.parent? = some q → q.entry.shape.isBag = false) → s.attributeId = 0) := by
  have h := sound_of_build built
  have hhome := home_mem_nodes_of_resolveFrom t.rootNode_mem_nodes found
  obtain ⟨hpath, hid⟩ := FieldSummary.ofResolution_eq_ok hs
  rw [Resolution.path, Site.value_path] at hpath
  obtain ⟨path, -, rest, -, inner, hspells, rfl⟩ := exists_chain_of_resolveFrom found
  have hrecord : ∀ k, inner.collectionKey = some k → s.attributeId = 0 :=
    fun _ hk => hid.trans <|
      FieldSummary.attributeIdOf_of_kind (hspells.kind_ne_of_collectionKey hk)
  constructor
  · intro q hparent hbag
    have hmarker : inner.target.entry.shape = .enumMarker :=
      h.shape_of_bag_above hhome hparent hbag
    have habove : inner.target.shapeAbove? = some q.entry.shape := by
      rw [Target.shapeAbove?_eq]
      exact congrArg (Option.map _) hparent
    obtain ⟨start, last, hstart, hlast, htext⟩ := Site.render_below hparent hpath
    obtain ⟨number, rfl, hlist, hmap⟩ := Site.exists_number_of_ending hbag hmarker hlast
    refine ⟨start, number, ?_, ?_, hlist, hmap, ?_⟩
    · rw [Site.value_path]
      exact hstart
    · rw [htext, String.append_assoc]
    · show s.attributeId = if inner.collectionKey.isNone then number else 0
      cases hcollection : inner.collectionKey with
      | some k => exact hrecord k hcollection
      | none =>
          have houtside := hspells.outside h hcollection
          rw [hid]
          exact houtside.attributeIdOf_of_member hcollection hmarker habove hbag hlist hmap
  · intro hnobag
    cases hcollection : inner.collectionKey with
    | some k => exact hrecord k hcollection
    | none =>
        rw [hid]
        refine (hspells.outside h hcollection).attributeIdOf_of_no_bag ?_
        rw [Target.shapeAbove?_eq]
        cases hparent : inner.target.site.parent? with
        | none => rfl
        | some q => exact hnobag q hparent

/-- A placeholder that was given a key. -/
theorem Tree.attributeId_of_summary_placeholder :
    ∃ r s, resolveFrom {} sampleLabelledTree.rootNode "log.labels.key:9:int64" = .ok r ∧
      (FieldSummary.ofResolution r).value = .ok s ∧ s.path = "log.labels.key:9" ∧
      s.attributeId = 9 := by
  have hparse : Path.parse "log.labels.key:9:int64" = .ok ⟨"log.labels.key:9:int64",
      "log.labels.key:9", [.field "log", .field "labels", .key 9], some .int64⟩ := by
    decide +kernel
  have hdescent : Descent {} sampleLabelledTree.rootNode [.field "labels", .key 9] _ :=
    .bagPlaceholder rfl rfl (keyRemainder?_key (k := 9) (by decide)) rfl
  have found := resolveFrom_eq_ok_iff.mpr ⟨_, hparse, _, rfl, _, hdescent, rfl⟩
  obtain ⟨hmember, -⟩ := attributeId_of_summary build_sampleLabelled found rfl
  obtain ⟨start, number, -, -, -, hkey, hid⟩ := hmember _ rfl rfl
  obtain rfl : (9 : Int) = number := Option.some.inj (hkey rfl)
  exact ⟨_, _, found, rfl, rfl, hid⟩

/-- A member that is called by its name within a record: its path ends in its number, and its
summary has 0. -/
theorem Tree.attributeId_in_record :
    (build {} "log" (some sampleArchive)).value = .ok sampleArchiveTree ∧
    ∃ r q s, resolveFrom {} sampleArchiveTree.rootNode "log.history.key:7.attrs.FIRST" = .ok r ∧
      r.target.site.parent? = some q ∧ q.entry.shape.isBag = true ∧
      (FieldSummary.ofResolution r).value = .ok s ∧ s.path = "log.history.key:7.attrs.key:1" ∧
      s.attributeId = 0 ∧ ∀ start, s.path ≠ start ++ ".key:" ++ Decimal.text s.attributeId := by
  have hparse : Path.parse "log.history.key:7.attrs.FIRST" =
      .ok ⟨"log.history.key:7.attrs.FIRST", "log.history.key:7.attrs.FIRST",
        [.field "log", .field "history", .key 7, .field "attrs", .field "FIRST"], none⟩ := by
    decide +kernel
  have hdescent : Descent {} sampleArchiveTree.rootNode
      [.field "history", .key 7, .field "attrs", .field "FIRST"] _ :=
    .record rfl rfl (.bagName rfl rfl (by decide +kernel) rfl)
  have found := resolveFrom_eq_ok_iff.mpr ⟨_, hparse, _, rfl, _, hdescent, rfl⟩
  refine ⟨build_sampleArchive, _, _, _, found, rfl, rfl, rfl, rfl, rfl, fun start hpath => ?_⟩
  have htext : "log.history.key:7.attrs.key:1" = start ++ ".key:" ++ "0" := hpath
  have hlast : some '1' = (start ++ ".key:" ++ "0").toList.getLast? :=
    congrArg (·.toList.getLast?) htext
  simp at hlast

end FieldAtlas
