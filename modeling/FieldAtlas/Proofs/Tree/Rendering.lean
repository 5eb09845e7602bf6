import FieldAtlas.Proofs.Path.Printing
import FieldAtlas.Proofs.Tree.Invariant
import FieldAtlas.Tree.Rendering

/-!
# `Rendering` — the dotted path of a node, as segments

Rendering writes text, and the text is the print of a list of segments: the names on the line
from the root, with a key after each collection of records and in place of each member of a bag or
a label map.  `Site.segments` is that list.  `Tree.Sound.render_eq_join` says that the path is its
print, if the key is at hand or if none is asked for.

A step down adds the same to the path and to the segments, so everything here is one step and
an induction down the tree.
-/

namespace FieldAtlas

/-- Keys that the schema does not know are taken by one kind of bag and by label maps. -/
theorem Shape.eq_of_takesExternalKey {s : Shape} (h : s.takesExternalKey = true) :
    s = .mapBag ∨ s = .labelMap := by
  cases s with
  | mapBag => exact Or.inl rfl
  | labelMap => exact Or.inr rfl
  | plain | enumMarker | listBag | keyedRecords => cases h

theorem Shape.holds_of_takesExternalKey {s : Shape} (h : s.takesExternalKey = true) :
    s.isBag = true ∨ s = .labelMap :=
  (eq_of_takesExternalKey h).imp_left fun hbag => by rw [hbag]; rfl

/-- Bags and label maps are nothing else. -/
theorem Shape.ne_of_holds {s : Shape} (h : s.isBag = true ∨ s = .labelMap) :
    s ≠ .plain ∧ s ≠ .enumMarker ∧ s ≠ .keyedRecords := by
  refine ⟨?_, ?_, ?_⟩ <;> rintro rfl <;> rcases h with h | h <;> cases h

namespace Site

/-- The sites from the site up to the root. -/
def lineFrom : Entry → List Label → List Site
  | e, [] => [⟨e, []⟩]
  | e, parent :: above => ⟨e, parent :: above⟩ :: lineFrom parent.entry above

def line (s : Site) : List Site := lineFrom s.entry s.above

/-- Whether a collection of records is on the way to the site, or is the site. -/
def inRecords (s : Site) : Bool := s.line.any (·.entry.shape == .keyedRecords)

/-- Whether a path has a key where it comes to the site: after a collection of records, or in
place of a member of a bag or a label map. -/
def isKeyBearing (s : Site) : Bool :=
  s.entry.shape == .keyedRecords ||
    s.entry.shape == .enumMarker &&
      s.above.head?.any fun l => l.entry.shape.isBag || l.entry.shape == .labelMap

/-- The segments by which a path goes on from a parent to an entry. -/
def lastSegments (k : Nat) (parent e : Entry) : List Segment :=
  match e.shape with
  | .keyedRecords => [.field e.name, .key k]
  | .enumMarker =>
    if parent.shape.takesExternalKey then [.key k]
    else if parent.shape.isBag then [.key e.ordinal.toNat]
    else [.field e.name]
  | .plain | .listBag | .mapBag | .labelMap => [.field e.name]

def segmentsFrom (k : Nat) : Entry → List Label → List Segment
  | e, [] => [.field e.name]
  | e, parent :: above => segmentsFrom k parent.entry above ++ lastSegments k parent.entry e

/-- The segments of the dotted path of a site, with the key `k` wherever one is asked for. -/
def segments (k : Nat) (s : Site) : List Segment := segmentsFrom k s.entry s.above

/-! ## Endings -/

theorem keyEnding_eq_tail {key : Option Int} {k : Nat} (hkey : key = some (k : Int)) (e : Entry) :
    keyEnding .dotted key e = .ok (Segment.tail [.key k]) := by
  rw [hkey, Segment.tail_key]
  rfl

/-- An ending is the print of the last segments, if it has its key or needs none. -/
theorem ending_eq_tail {key : Option Int} {k : Nat} {parent e : Entry}
    (hkey : key = some (k : Int) ∨ bearsKey (some parent) e = false)
    (hordinal : e.shape = .enumMarker → parent.shape = .listBag → 0 ≤ e.ordinal) :
    ending .dotted key parent e = .ok (Segment.tail (lastSegments k parent e)) := by
  unfold ending lastSegments
  unfold bearsKey at hkey
  cases hshape : e.shape with
  | plain | listBag | mapBag | labelMap =>
      simp only [Segment.tail_field]
      rfl
  | keyedRecords =>
      have hk : key = some (k : Int) := by simpa [hshape] using hkey
      have htail := Segment.tail_append [.field e.name] [.key k]
      rw [List.singleton_append] at htail
      simp only [keyEnding_eq_tail hk, htail, Segment.tail_field]
      rfl
  | enumMarker =>
      by_cases hexternal : parent.shape.takesExternalKey = true
      · have hk : key = some (k : Int) := by simpa [hshape, hexternal] using hkey
        simp only [if_pos hexternal, keyEnding_eq_tail hk]
      · by_cases hbag : parent.shape.isBag = true
        · have hlist : parent.shape = .listBag := by
            revert hexternal hbag
            cases parent.shape <;> simp [Shape.takesExternalKey, Shape.isBag]
          have hnat : ((e.ordinal.toNat : Nat) : Int) = e.ordinal :=
            Int.toNat_of_nonneg (hordinal hshape hlist)
          simp only [if_neg hexternal, if_pos hbag, Segment.tail_key, hnat]
          rfl
        · simp only [if_neg hexternal, if_neg hbag, Segment.tail_field]
          rfl

/-- The ending of an entry that is no enum leaf and holds no records is its name. -/
theorem ending_by_name {key : Option Int} {parent e : Entry} (hmarker : e.shape ≠ .enumMarker)
    (hrecords : e.shape ≠ .keyedRecords) :
    ending .dotted key parent e = .ok (Segment.tail [.field e.name]) := by
  rw [Segment.tail_field, ending]
  cases hshape : e.shape with
  | plain | listBag | mapBag | labelMap => rfl
  | enumMarker => exact absurd hshape hmarker
  | keyedRecords => exact absurd hshape hrecords

/-- The ending of a member of a listing bag is its number. -/
theorem ending_member {key : Option Int} {parent e : Entry} (hparent : parent.shape = .listBag)
    (hmarker : e.shape = .enumMarker) :
    ending .dotted key parent e = .ok (".key:" ++ Decimal.text e.ordinal) := by
  rw [ending, hmarker]
  simp only [hparent, Shape.takesExternalKey, Bool.false_eq_true, if_false, Shape.isBag, if_true]
  rfl

/-- Without a key, an ending can be written only if it asks for none. -/
theorem bearsKey_of_ending {parent e : Entry} {last : String}
    (h : ending .dotted none parent e = .ok last) : bearsKey (some parent) e = false := by
  unfold ending at h
  unfold bearsKey
  cases hshape : e.shape with
  | plain | listBag | mapBag | labelMap => rfl
  | keyedRecords =>
      rw [hshape] at h
      cases h
  | enumMarker =>
      rw [hshape] at h
      cases hexternal : parent.shape.takesExternalKey with
      | false => exact hexternal
      | true =>
          simp only [hexternal, if_true] at h
          cases h

/-! ## Segments of a line -/

theorem segmentsFrom_ne_nil (k : Nat) :
    ∀ (e : Entry) (above : List Label), segmentsFrom k e above ≠ []
  | e, [] => List.cons_ne_nil _ _
  | e, parent :: above => by
      rw [segmentsFrom]
      exact List.append_ne_nil_of_left_ne_nil (segmentsFrom_ne_nil k parent.entry above) _

theorem segments_ne_nil (k : Nat) (s : Site) : s.segments k ≠ [] :=
  segmentsFrom_ne_nil k s.entry s.above

theorem countP_lastSegments (k : Nat) (parent : Label) (e : Entry) (above : List Label) :
    (lastSegments k parent.entry e).countP (·.key?.isSome) =
      if isKeyBearing ⟨e, parent :: above⟩ then 1 else 0 := by
  cases hshape : e.shape with
  | plain | listBag | mapBag | labelMap | keyedRecords =>
      simp [lastSegments, isKeyBearing, hshape, Segment.key?]
  | enumMarker =>
      cases hparent : parent.entry.shape <;>
        simp [lastSegments, isKeyBearing, hshape, hparent, Segment.key?, Shape.isBag,
          Shape.takesExternalKey]

/-- There are no more keys among the segments than there are sites that bear one. -/
theorem countP_segmentsFrom (k : Nat) :
    ∀ (e : Entry) (above : List Label),
      (segmentsFrom k e above).countP (·.key?.isSome) ≤ (lineFrom e above).countP isKeyBearing
  | e, [] => Nat.zero_le _
  | e, parent :: above => by
      have habove := countP_segmentsFrom k parent.entry above
      rw [segmentsFrom, lineFrom, List.countP_append, List.countP_cons,
        countP_lastSegments k parent e above]
      omega

theorem printable_of_mem_lastSegments {k : Nat} {parent e : Entry} (hk : k ≤ Decimal.maxKey)
    (hname : IsPlainName e.name)
    (hordinal : e.shape = .enumMarker → e.ordinal ≤ Decimal.maxKey) :
    ∀ x ∈ lastSegments k parent e, x.Printable := by
  intro x hx
  have hfield : (Segment.field e.name).Printable := hname
  have hkey : (Segment.key k).Printable := hk
  unfold lastSegments at hx
  cases hshape : e.shape with
  | plain | listBag | mapBag | labelMap =>
      rw [hshape] at hx
      rw [List.mem_singleton.mp hx]
      exact hfield
  | keyedRecords =>
      rw [hshape] at hx
      rcases List.mem_pair.mp hx with rfl | rfl
      · exact hfield
      · exact hkey
  | enumMarker =>
      rw [hshape] at hx
      simp only at hx
      split at hx
      · rw [List.mem_singleton.mp hx]
        exact hkey
      · split at hx
        · rw [List.mem_singleton.mp hx]
          have hle := hordinal hshape
          show e.ordinal.toNat ≤ Decimal.maxKey
          omega
        · rw [List.mem_singleton.mp hx]
          exact hfield

theorem value_path (s : Site) (style : PathStyle) (key : Option Int) :
    (s.path style key).value = s.render style key := by
  rw [path]
  cases s.render style key <;> rfl

end Site

/-! ## One step down -/

theorem Place.site_of_mem_below {n c : Node} (hc : c ∈ n.below) :
    c.site = ⟨c.entry, n.label :: n.above⟩ := by
  rw [site, above_of_mem_below hc]

theorem Place.render_of_mem_below {n c : Node} (hc : c ∈ n.below) (key : Option Int) :
    c.site.render .dotted key = (n.site.render .dotted key).bind fun start =>
      (Site.ending .dotted key n.entry c.entry).map (start ++ ·) := by
  rw [site_of_mem_below hc]
  rfl

/-- The path of a site below a node is that of the node and an ending. -/
theorem Place.render_eq_ok {n : Node} {e : Entry} {key : Option Int} {text : String}
    (h : Site.render ⟨e, n.label :: n.above⟩ .dotted key = .ok text) :
    ∃ start last, n.site.render .dotted key = .ok start ∧
      Site.ending .dotted key n.entry e = .ok last ∧ text = start ++ last := by
  have hstep : (n.site.render .dotted key).bind (fun start =>
      (Site.ending .dotted key n.entry e).map (start ++ ·)) = .ok text := h
  cases hstart : n.site.render .dotted key with
  | error missing =>
      rw [hstart] at hstep
      cases hstep
  | ok start =>
      cases hlast : Site.ending .dotted key n.entry e with
      | error missing =>
          rw [hstart, hlast] at hstep
          cases hstep
      | ok last =>
          rw [hstart, hlast] at hstep
          exact ⟨start, last, rfl, rfl, (Except.ok.inj hstep).symm⟩

/-- Where the ending is the print of segments, the path goes on with them. -/
theorem Place.render_of_ending {n c : Node} (hc : c ∈ n.below) {key : Option Int}
    {last : List Segment}
    (hending : Site.ending .dotted key n.entry c.entry = .ok (Segment.tail last)) :
    c.site.render .dotted key = (n.site.render .dotted key).map (· ++ Segment.tail last) := by
  rw [render_of_mem_below hc, hending]
  cases n.site.render .dotted key <;> rfl

theorem Place.line_of_mem_below {n c : Node} (hc : c ∈ n.below) :
    c.site.line = c.site :: n.site.line := by
  rw [site_of_mem_below hc]
  rfl

theorem Place.segments_of_mem_below {n c : Node} (hc : c ∈ n.below) (k : Nat) :
    c.site.segments k = n.site.segments k ++ Site.lastSegments k n.entry c.entry := by
  rw [site_of_mem_below hc]
  rfl

theorem Place.requiresKey_of_mem_below {n c : Node} (hc : c ∈ n.below) :
    c.site.requiresKey = (Site.bearsKey (some n.entry) c.entry || n.site.requiresKey) := by
  rw [site_of_mem_below hc]
  rfl

/-- A collection of records asks for a key. -/
theorem Place.requiresKey_of_records {n c : Node} (hc : c ∈ n.below)
    (hrecords : c.shape = .keyedRecords) : c.site.requiresKey = true := by
  have hentry : c.entry.shape = .keyedRecords := hrecords
  simp [requiresKey_of_mem_below hc, Site.bearsKey, hentry]

/-- A member below a shape that takes external keys asks for one. -/
theorem Place.requiresKey_of_external {n c : Node} (hc : c ∈ n.below)
    (hmarker : c.shape = .enumMarker) (hexternal : n.shape.takesExternalKey = true) :
    c.site.requiresKey = true := by
  have hentry : c.entry.shape = .enumMarker := hmarker
  have hparent : n.entry.shape.takesExternalKey = true := hexternal
  simp [requiresKey_of_mem_below hc, Site.bearsKey, hentry, hparent]

theorem Place.inRecords_of_mem_below {n c : Node} (hc : c ∈ n.below) :
    c.site.inRecords = (c.shape == .keyedRecords || n.site.inRecords) := by
  rw [Site.inRecords, line_of_mem_below hc]
  rfl

/-! ## The whole way down -/

namespace Tree

theorem site_rootNode (t : Tree) : t.rootNode.site = ⟨t.rootNode.entry, []⟩ := by
  rw [Place.site, above_rootNode]

/-- A condition on the names of the nodes is met by the names on every line. -/
theorem forall_line {t : Tree} {P : String → Prop} (hP : ∀ n ∈ t.nodes, P n.name) :
    ∀ n ∈ t.nodes, ∀ s ∈ n.site.line, P s.entry.name := by
  refine nodes_induction ?_ fun q hq ih c hc s hs => ?_
  · intro s hs
    rw [site_rootNode] at hs
    rw [List.mem_singleton.mp hs]
    exact hP t.rootNode t.rootNode_mem_nodes
  · rw [Place.line_of_mem_below hc] at hs
    rcases List.mem_cons.mp hs with rfl | hs
    · exact hP c (mem_nodes_of_mem_below hq hc)
    · exact ih s hs

namespace Sound

variable {t : Tree}

theorem requiresKey_rootNode (h : t.Sound) : t.rootNode.site.requiresKey = false := by
  have hplain : t.rootNode.entry.shape = .plain := h.root_plain
  rw [site_rootNode]
  simp [Site.requiresKey, Site.requiresKeyFrom, Site.bearsKey, hplain]

theorem inRecords_rootNode (h : t.Sound) : t.rootNode.site.inRecords = false := by
  have hplain : t.rootNode.entry.shape = .plain := h.root_plain
  rw [site_rootNode]
  simp [Site.inRecords, Site.line, Site.lineFrom, hplain]

/-- A node that is rendered without a key asks for none. -/
theorem requiresKey_of_render (h : t.Sound) :
    ∀ n ∈ t.nodes, ∀ {text : String}, n.site.render .dotted none = .ok text →
      n.site.requiresKey = false := by
  refine nodes_induction (fun _ => h.requiresKey_rootNode) fun q hq ih c hc text htext => ?_
  rw [Place.site_of_mem_below hc] at htext
  obtain ⟨start, last, hstart, hlast, -⟩ := Place.render_eq_ok htext
  rw [Place.requiresKey_of_mem_below hc, Site.bearsKey_of_ending hlast, ih hstart]
  rfl

/-- Within a record, the segments hold its key. -/
theorem one_le_keys (h : t.Sound) (k : Nat) :
    ∀ n ∈ t.nodes, n.site.inRecords = true →
      1 ≤ (n.site.segments k).countP (·.key?.isSome) := by
  refine nodes_induction (fun hin => ?_) fun q hq ih c hc hin => ?_
  · rw [h.inRecords_rootNode] at hin
    cases hin
  · rw [Place.inRecords_of_mem_below hc, Bool.or_eq_true] at hin
    rw [Place.segments_of_mem_below hc, List.countP_append]
    rcases hin with hrecords | hin
    · have hentry : c.entry.shape = .keyedRecords := beq_iff_eq.mp hrecords
      have hlast : (Site.lastSegments k q.entry c.entry).countP (·.key?.isSome) = 1 := by
        rw [Site.lastSegments, hentry]
        rfl
      omega
    · have hq := ih hin
      omega

/-- The dotted path of a node is the print of its segments, if its key is at hand or none
is asked for. -/
theorem render_eq_join (h : t.Sound) {key : Option Int} {k : Nat} :
    ∀ n ∈ t.nodes, (key = some (k : Int) ∨ n.site.requiresKey = false) →
      (∀ q ∈ t.nodes, n ∈ q.below → n.shape = .enumMarker → q.shape = .listBag →
        0 ≤ n.entry.ordinal) →
      n.site.render .dotted key = .ok (Segment.join (n.site.segments k)) := by
  refine nodes_induction ?_ ?_
  · intro _ _
    rw [site_rootNode]
    exact congrArg Except.ok (Segment.join_field t.rootNode.name).symm
  · intro q hq ih c hc hkey hordinal
    rw [Place.requiresKey_of_mem_below hc] at hkey
    have hkeyq : key = some (k : Int) ∨ q.site.requiresKey = false := by
      rcases hkey with hkey | hkey
      · exact Or.inl hkey
      · exact Or.inr (Bool.or_eq_false_iff.mp hkey).2
    have hkeyc : key = some (k : Int) ∨ Site.bearsKey (some q.entry) c.entry = false := by
      rcases hkey with hkey | hkey
      · exact Or.inl hkey
      · exact Or.inr (Bool.or_eq_false_iff.mp hkey).1
    have hstart := ih hkeyq fun _ _ _ hmarker => absurd hmarker (h.shape_ne_marker hq hc)
    have hending := Site.ending_eq_tail hkeyc (hordinal q hq hc)
    rw [Place.render_of_ending hc hending, hstart, Place.segments_of_mem_below hc,
      Segment.join_append (q.site.segments_ne_nil k)]
    rfl

/-- Segments are read as they are printed, if the names on the line are plain. -/
theorem printable_segments (h : t.Sound) {k : Nat} (hk : k ≤ Decimal.maxKey) :
    ∀ n ∈ t.nodes, (∀ s ∈ n.site.line, IsPlainName s.entry.name) →
      ∀ x ∈ n.site.segments k, x.Printable := by
  refine nodes_induction ?_ ?_
  · intro hnames x hx
    rw [site_rootNode] at hnames hx
    rw [List.mem_singleton.mp hx]
    exact hnames _ List.mem_cons_self
  · intro q hq ih c hc hnames x hx
    rw [Place.line_of_mem_below hc] at hnames
    rw [Place.segments_of_mem_below hc, List.mem_append] at hx
    rcases hx with hx | hx
    · exact ih (fun s hs => hnames s (List.mem_cons_of_mem _ hs)) x hx
    · have hordinal := (h.wellFormed c (mem_nodes_of_mem_below hq hc)).ordinal
      exact Site.printable_of_mem_lastSegments hk (hnames c.site List.mem_cons_self) hordinal x hx

/-- A key is asked for after a collection of records, or in place of a placeholder. -/
theorem inRecords_or_external (h : t.Sound) :
    ∀ n ∈ t.nodes, n.site.requiresKey = true → n.site.inRecords = true ∨
      n.shape = .enumMarker ∧ (t.parent? n).any (·.shape.takesExternalKey) = true := by
  refine nodes_induction ?_ ?_
  · intro hrequires
    rw [h.requiresKey_rootNode] at hrequires
    cases hrequires
  · intro q hq ih c hc hrequires
    rw [Place.requiresKey_of_mem_below hc, Bool.or_eq_true] at hrequires
    rw [Place.inRecords_of_mem_below hc]
    rcases hrequires with hrequires | hrequires
    · unfold Site.bearsKey at hrequires
      cases hshape : c.entry.shape with
      | plain | listBag | mapBag | labelMap => simp [hshape] at hrequires
      | keyedRecords =>
          have hc : c.shape = .keyedRecords := hshape
          simp [hc]
      | enumMarker =>
          right
          refine ⟨hshape, ?_⟩
          rw [h.parent?_of_mem_below hq hc]
          show q.entry.shape.takesExternalKey = true
          simpa [hshape] using hrequires
    · left
      rcases ih hrequires with hin | ⟨hmarker, -⟩
      · rw [hin, Bool.or_true]
      · exact absurd hmarker (h.shape_ne_marker hq hc)

/-- Outside of records, what is no leaf of an enum asks for no key. -/
theorem requiresKey_of_outside (h : t.Sound) {n : Node} (hn : n ∈ t.nodes)
    (hmarker : n.shape ≠ .enumMarker) (hin : n.site.inRecords = false) :
    n.site.requiresKey = false := by
  cases hrequires : n.site.requiresKey with
  | false => rfl
  | true =>
      rcases h.inRecords_or_external n hn hrequires with hrecords | ⟨hshape, -⟩
      · rw [hin] at hrecords
        cases hrecords
      · exact absurd hshape hmarker

end Sound

end Tree

end FieldAtlas
