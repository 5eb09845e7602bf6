import FieldAtlas.Proofs.Tree.Members
import FieldAtlas.Proofs.Tree.Rendering

/-!
# `Template` — a path with its key left open

Rendered with one key after another, a site changes its path only where the key is written.  Its
template is the path with these places left open, and `Site.renderFrom_some` says that a path
is its template filled in.  Two keys give two paths as soon as there is one open place
(`Template.fill_injective`); without any, no key is asked for (`Site.renderFrom_none`).

So it is the open places that matter, and `Tree.Sound.key_mem_template_iff` says where they are in
a flattened path: below the nearest fixed path only, since a fixed path stands for the whole way
down to its node, keys included.
-/

namespace FieldAtlas

/-! ## Filling in a key -/

/-- A part of a path: a text that is the same for every key, or the key. -/
inductive Piece where
  | fixed (text : String)
  | key
  deriving DecidableEq, Repr

abbrev Template := List Piece

def Piece.fill (k : Int) : Piece → String
  | fixed text => text
  | key => Decimal.text k

namespace Template

/-- The text of a template with the key `k` in its open places. -/
def fill (k : Int) : Template → String
  | [] => ""
  | piece :: rest => piece.fill k ++ fill k rest

theorem fill_append (k : Int) (first last : Template) :
    fill k (first ++ last) = fill k first ++ fill k last := by
  induction first with
  | nil => exact String.empty_append.symm
  | cons piece rest ih => rw [List.cons_append, fill, fill, ih, String.append_assoc]

theorem fill_of_no_key {ps : Template} (h : .key ∉ ps) (j k : Int) : fill j ps = fill k ps := by
  induction ps with
  | nil => rfl
  | cons piece rest ih =>
      obtain ⟨hpiece, hrest⟩ := not_or.mp (mt List.mem_cons.mpr h)
      have hfill : piece.fill j = piece.fill k := by
        cases piece with
        | fixed text => rfl
        | key => exact absurd rfl hpiece
      rw [fill, fill, hfill, ih hrest]

/-- A key makes a text longer by as much in each of the open places. -/
theorem exists_length_fill (ps : Template) :
    ∃ m, ∀ k, (fill k ps).length = m + ps.count .key * (Decimal.text k).length := by
  induction ps with
  | nil => exact ⟨0, fun k => by simp [fill]⟩
  | cons piece rest ih =>
      obtain ⟨m, hm⟩ := ih
      cases piece with
      | fixed text =>
          refine ⟨text.length + m, fun k => ?_⟩
          rw [fill, String.length_append, hm, List.count_cons_of_ne (by simp), Piece.fill]
          omega
      | key =>
          refine ⟨m, fun k => ?_⟩
          rw [fill, String.length_append, hm, List.count_cons_self, Nat.succ_mul, Piece.fill]
          omega

theorem eq_of_fill_eq {ps : Template} (hkey : .key ∈ ps) {j k : Int}
    (hlength : (Decimal.text j).length = (Decimal.text k).length)
    (h : fill j ps = fill k ps) : j = k := by
  induction ps with
  | nil => exact absurd hkey List.not_mem_nil
  | cons piece rest ih =>
      have hchars := congrArg String.toList h
      rw [fill, fill, String.toList_append, String.toList_append] at hchars
      cases piece with
      | fixed text =>
          refine ih (by simpa using hkey) (String.toList_inj.mp ?_)
          exact List.append_cancel_left hchars
      | key =>
          have hsame := (List.append_inj hchars hlength).1
          exact Decimal.text_injective (String.toList_inj.mp hsame)

/-- With an open place, two keys give two texts.  Keys of unequal length give texts of unequal
length, and keys of equal length stand side by side in the first open place. -/
theorem fill_injective {ps : Template} (hkey : .key ∈ ps) {j k : Int}
    (h : fill j ps = fill k ps) : j = k := by
  refine eq_of_fill_eq hkey ?_ h
  obtain ⟨m, hm⟩ := exists_length_fill ps
  have hlength : m + ps.count .key * (Decimal.text j).length =
      m + ps.count .key * (Decimal.text k).length := by rw [← hm, ← hm, h]
  exact Nat.eq_of_mul_eq_mul_left (List.count_pos_iff.mpr hkey) (Nat.add_left_cancel hlength)

end Template

/-! ## The template of a site -/

namespace Site

/-- What an entry adds to the template of its parent. -/
def endingTemplate (style : PathStyle) (parent e : Entry) : Template :=
  match e.shape with
  | .keyedRecords => [.fixed (style.separator ++ e.name), .fixed style.keyMark, .key]
  | .enumMarker =>
    if parent.shape.takesExternalKey then [.fixed style.keyMark, .key]
    else if parent.shape.isBag then [.fixed (style.keyMark ++ Decimal.text e.ordinal)]
    else [.fixed (style.separator ++ e.name)]
  | .plain | .listBag | .mapBag | .labelMap => [.fixed (style.separator ++ e.name)]

def templateFrom (style : PathStyle) : Entry → List Label → Template
  | e, [] => [.fixed e.name]
  | e, parent :: above =>
    match style.fixedPath? e with
    | some path => [.fixed path]
    | none => templateFrom style parent.entry above ++ endingTemplate style parent.entry e

/-- The path of a site, with an open place wherever the key is written. -/
def template (style : PathStyle) (s : Site) : Template := templateFrom style s.entry s.above

theorem ending_some (style : PathStyle) (k : Int) (parent e : Entry) :
    ending style (some k) parent e = .ok (Template.fill k (endingTemplate style parent e)) := by
  unfold ending endingTemplate
  cases e.shape with
  | plain | listBag | mapBag | labelMap => simp [Template.fill, Piece.fill]
  | keyedRecords => simp [keyEnding, Except.map, Template.fill, Piece.fill]
  | enumMarker =>
      dsimp only
      split
      · simp [keyEnding, Template.fill, Piece.fill]
      · split <;> simp [Template.fill, Piece.fill]

/-- Without a key, an ending is as with any key, unless there is an open place in it. -/
theorem ending_none (style : PathStyle) (k : Int) (parent e : Entry) :
    ending style none parent e =
      if .key ∈ endingTemplate style parent e then .error ⟨e.name, e.shape⟩
      else .ok (Template.fill k (endingTemplate style parent e)) := by
  unfold ending endingTemplate
  cases hshape : e.shape with
  | plain | listBag | mapBag | labelMap => simp [Template.fill, Piece.fill]
  | keyedRecords => simp [keyEnding, Except.map, hshape]
  | enumMarker =>
      dsimp only
      split
      · simp [keyEnding, hshape]
      · split <;> simp [Template.fill, Piece.fill]

theorem key_mem_endingTemplate_iff (style : PathStyle) (parent e : Entry) :
    .key ∈ endingTemplate style parent e ↔ bearsKey (some parent) e = true := by
  unfold endingTemplate bearsKey
  cases e.shape with
  | plain | listBag | mapBag | labelMap => simp
  | keyedRecords => simp
  | enumMarker =>
      cases hexternal : parent.shape.takesExternalKey with
      | true => simp [hexternal]
      | false =>
          dsimp only
          simp only [Bool.false_eq_true, if_false, Option.any_some, hexternal, iff_false]
          split <;> simp

/-- With a key, every site has a path: its template filled in. -/
theorem renderFrom_some (style : PathStyle) (k : Int) :
    ∀ (e : Entry) (above : List Label),
      renderFrom style (some k) e above = .ok (Template.fill k (templateFrom style e above))
  | e, [] => by simp [renderFrom, templateFrom, Template.fill, Piece.fill]
  | e, parent :: above => by
      rw [renderFrom, templateFrom]
      cases style.fixedPath? e with
      | some path => simp [Template.fill, Piece.fill]
      | none =>
          dsimp only
          rw [renderFrom_some style k parent.entry above, ending_some, Template.fill_append]
          rfl

/-- Without a key, a site has the same path as with any key, unless there is an open place in it. -/
theorem renderFrom_none (style : PathStyle) (k : Int) :
    ∀ (e : Entry) (above : List Label),
      if .key ∈ templateFrom style e above then
        ∃ missing, renderFrom style none e above = .error missing
      else renderFrom style none e above = .ok (Template.fill k (templateFrom style e above))
  | e, [] => by simp [renderFrom, templateFrom, Template.fill, Piece.fill]
  | e, parent :: above => by
      have habove := renderFrom_none style k parent.entry above
      rw [renderFrom, templateFrom]
      cases style.fixedPath? e with
      | some path => simp [Template.fill, Piece.fill]
      | none =>
          dsimp only
          simp only [List.mem_append]
          by_cases hopen : .key ∈ templateFrom style parent.entry above
          · rw [if_pos hopen] at habove
            obtain ⟨missing, habove⟩ := habove
            rw [if_pos (Or.inl hopen), habove]
            exact ⟨missing, rfl⟩
          · rw [if_neg hopen] at habove
            rw [habove, ending_none style k]
            by_cases hlast : .key ∈ endingTemplate style parent.entry e
            · rw [if_pos (Or.inr hlast), if_pos hlast]
              exact ⟨_, rfl⟩
            · rw [if_neg (not_or.mpr ⟨hopen, hlast⟩), if_neg hlast, Template.fill_append]
              rfl

theorem render_some (s : Site) (style : PathStyle) (k : Int) :
    s.render style (some k) = .ok ((s.template style).fill k) :=
  renderFrom_some style k s.entry s.above

theorem render_none_of_no_key {s : Site} {style : PathStyle} (h : .key ∉ s.template style)
    (k : Int) : s.render style none = .ok ((s.template style).fill k) :=
  (if_neg h).mp (renderFrom_none style k s.entry s.above)

/-- A site cannot be rendered without a key exactly if there is an open place in its template. -/
theorem exists_missing_iff {s : Site} {style : PathStyle} :
    (∃ missing, s.render style none = .error missing) ↔ .key ∈ s.template style := by
  refine ⟨fun ⟨missing, h⟩ => ?_, fun h => (if_pos h).mp (renderFrom_none style 0 s.entry s.above)⟩
  by_contra hclosed
  rw [render_none_of_no_key hclosed 0] at h
  cases h

/-! ## Below a fixed path -/

/-- Whether a site has a runtime key in its ending. -/
def hasKeyEnding (s : Site) : Bool := bearsKey (s.above.head?.map (·.entry)) s.entry

/-- The sites from the site up to the nearest fixed path, which does not belong to them, or up to
the root if there is none. -/
def belowFixed (s : Site) : List Site := s.line.takeWhile (·.entry.fixedPath.isNone)

theorem requiresKeyFrom_eq_any :
    ∀ (e : Entry) (above : List Label),
      requiresKeyFrom e above = (lineFrom e above).any hasKeyEnding
  | e, [] => by simp [requiresKeyFrom, lineFrom, hasKeyEnding]
  | e, parent :: above => by
      rw [requiresKeyFrom, lineFrom, List.any_cons, requiresKeyFrom_eq_any parent.entry above]
      rfl

end Site

namespace Place

theorem belowFixed_of_mem_below {n c : Node} (hc : c ∈ n.below) :
    c.site.belowFixed =
      if c.entry.fixedPath.isNone then c.site :: n.site.belowFixed else [] := by
  rw [Site.belowFixed, line_of_mem_below hc, List.takeWhile_cons]
  rfl

theorem hasKeyEnding_of_mem_below {n c : Node} (hc : c ∈ n.below) :
    c.site.hasKeyEnding = Site.bearsKey (some n.entry) c.entry := by
  rw [Site.hasKeyEnding, site_of_mem_below hc]
  rfl

theorem template_of_mem_below {n c : Node} (hc : c ∈ n.below) :
    c.site.template .flattened =
      match c.entry.fixedPath with
      | some path => [.fixed path]
      | none => n.site.template .flattened ++ Site.endingTemplate .flattened n.entry c.entry := by
  rw [Site.template, site_of_mem_below hc]
  rfl

end Place

/-- The open places of a flattened path are those of the sites below the nearest fixed path. -/
theorem Tree.Sound.key_mem_template_iff {t : Tree} (h : t.Sound) :
    ∀ n ∈ t.nodes, .key ∈ n.site.template .flattened ↔
      ∃ s ∈ n.site.belowFixed, s.hasKeyEnding = true := by
  refine nodes_induction ?_ fun q hq ih c hc => ?_
  · have hplain : t.rootNode.entry.shape = .plain := h.root_plain
    have hroot : Site.hasKeyEnding ⟨t.rootNode.entry, []⟩ = false := by
      simp [Site.hasKeyEnding, Site.bearsKey, hplain]
    rw [site_rootNode]
    refine iff_of_false (by simp [Site.template, Site.templateFrom]) ?_
    rintro ⟨s, hs, hkey⟩
    have hline : s ∈ [(⟨t.rootNode.entry, []⟩ : Site)] := (List.takeWhile_prefix _).subset hs
    rw [List.mem_singleton.mp hline, hroot] at hkey
    cases hkey
  · rw [Place.template_of_mem_below hc, Place.belowFixed_of_mem_below hc]
    cases c.entry.fixedPath with
    | some path => simp
    | none =>
        simp only [List.mem_append, ih, Site.key_mem_endingTemplate_iff, Option.isNone_none,
          if_true, List.mem_cons, exists_eq_or_imp, Place.hasKeyEnding_of_mem_below hc]
        exact Or.comm

/-! ## Rendering with and without a key -/

/-- With an open place, a flattened path cannot be written without a key and tells keys apart;
with none, no key makes a difference to it.  The path of a node that asks for a key has an open
place, unless a fixed path stands for that part of the line. -/
theorem Tree.flattened_of_requiresKey {v : Vocabulary} {root : String} {m : Option Message}
    {t : Tree} (built : (build v root m).value = .ok t) {id : Nat} {n : Node}
    (hid : t.node? id = some n) (hrequires : n.site.requiresKey = true) :
    ((∃ s ∈ n.site.belowFixed, s.hasKeyEnding = true) →
      (∃ missing, (n.site.path .flattened none).value = .error missing) ∧
      ∀ j k : Int, j ≠ k →
        (n.site.path .flattened (some j)).value ≠ (n.site.path .flattened (some k)).value) ∧
    ((¬ ∃ s ∈ n.site.belowFixed, s.hasKeyEnding = true) →
      ∃ text, ∀ key, (n.site.path .flattened key).value = .ok text) ∧
    ((∀ s ∈ n.site.line, s.entry.fixedPath = none) →
      ∃ s ∈ n.site.belowFixed, s.hasKeyEnding = true) := by
  have hopen := (sound_of_build built).key_mem_template_iff n (mem_nodes_of_node? hid)
  simp only [Site.value_path]
  refine ⟨fun hkey => ?_, fun hkey => ?_, fun hfixed => ?_⟩
  · refine ⟨Site.exists_missing_iff.mpr (hopen.mpr hkey), fun j k hjk heq => ?_⟩
    rw [Site.render_some, Site.render_some] at heq
    exact hjk (Template.fill_injective (hopen.mpr hkey) (Except.ok.inj heq))
  · have hclosed := mt hopen.mp hkey
    refine ⟨(n.site.template .flattened).fill 0, fun key => ?_⟩
    cases key with
    | none => exact Site.render_none_of_no_key hclosed 0
    | some k => rw [Site.render_some, Template.fill_of_no_key hclosed k 0]
  · have hall : n.site.belowFixed = n.site.line :=
      List.takeWhile_eq_self_iff.mpr fun s hs => by simp [hfixed s hs]
    rw [Site.requiresKey, Site.requiresKeyFrom_eq_any, List.any_eq_true] at hrequires
    rw [hall]
    exact hrequires

/-! ## A small tube

Live infos below a fixed path, and a field with a fixed path of its own in each record. -/

def sampleTube : Message where
  name := "TubeLog"
  fields := [
    { name := "tube_user_info", number := 1,
      type := .message {
        name := "TubeUserInfo"
        fields := [
          { name := "history", number := 1,
            type := .map .int64 (.message {
              name := "SimpleLiveInfos"
              fields := [
                { name := "amount", number := 1, type := .scalar .int64 },
                { name := "tube_item_info", number := 2, type := .scalar .int64 }] }) }] } }]

def sampleTubeTree : Tree := .ofEntries (Tree.rootBranch {} "log" sampleTube).value

theorem build_sampleTube :
    (Tree.build {} "log" (some sampleTube)).value = .ok sampleTubeTree := rfl

/-- The key of the record is below the fixed path, so it is asked for. -/
theorem Tree.flattened_of_requiresKey_amount :
    ∃ n, sampleTubeTree.node? 3 = some n ∧ n.site.requiresKey = true ∧
      (∃ missing, (n.site.path .flattened none).value = .error missing) ∧
      (n.site.path .flattened (some 1)).value ≠ (n.site.path .flattened (some 2)).value := by
  refine ⟨_, rfl, by decide, ?_⟩
  have hid : sampleTubeTree.node? 3 = some _ := rfl
  obtain ⟨hopen, -, -⟩ := flattened_of_requiresKey build_sampleTube hid (by decide)
  obtain ⟨hnone, hkeys⟩ := hopen (by decide)
  exact ⟨hnone, hkeys 1 2 (by decide)⟩

/-- A fixed path below the record drops its key. -/
theorem Tree.flattened_drops_key :
    (build {} "log" (some sampleTube)).value = .ok sampleTubeTree ∧
    ∃ n, sampleTubeTree.node? 4 = some n ∧ n.site.requiresKey = true ∧
      (n.site.path .flattened none).value = .ok "item_tube_item_info" ∧
      (n.site.path .flattened (some 1)).value = (n.site.path .flattened (some 2)).value :=
  ⟨rfl, _, rfl, by decide, rfl, rfl⟩

end FieldAtlas
