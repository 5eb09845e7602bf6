import FieldAtlas.Proofs.Resolution.Chain
import FieldAtlas.Proofs.Tree.Rendering

/-!
# `NodeRoundTrip` — a rendered node is found again

Rendering climbs from a node to the root, reading and resolving go the other way.  They meet in
the segments of the line: the path is their print, and they lead back to the node.

The way down goes through plain nodes and records, which only hand on what is found below
(`Tree.Sound.exists_way`), and ends in one of six ways.  A line with a name that cannot be
spelt, or with two keys, is left out: its path is not read at all.
-/

namespace FieldAtlas

/-- The segments of a node lead from the root to it.  `label` is the key that they give for a
placeholder. -/
def Tree.Finds (t : Tree) (p : Policy) (k : Nat) (n : Node) (label : Option Nat) : Prop :=
  ∃ way kind, n.site.segments k = .field t.rootNode.name :: way ∧
    Descent p t.rootNode way
      { target := .listed n, kind, labelKey := label,
        collectionKey := if n.site.inRecords then some k else none }

namespace Tree.Sound

variable {t : Tree} {p : Policy} {k : Nat}

/-- Below nodes other than plain ones and records there are members only. -/
theorem walked_or_member (h : t.Sound) {q c : Node} (hq : q ∈ t.nodes) (hc : c ∈ q.below) :
    (q.shape = .plain ∨ q.shape = .keyedRecords) ∨
      (q.shape.isBag = true ∨ q.shape = .labelMap) ∧ c.shape = .enumMarker := by
  have hmembers := (h.wellFormed q hq).members
  cases hshape : q.shape with
  | plain => exact Or.inl (Or.inl rfl)
  | keyedRecords => exact Or.inl (Or.inr rfl)
  | enumMarker => exact absurd hshape (h.shape_ne_marker hq hc)
  | listBag | mapBag =>
      have hbag : q.shape.isBag = true := by rw [hshape]; rfl
      exact Or.inr ⟨Or.inl rfl, hmembers (Or.inl hbag) c hc⟩
  | labelMap => exact Or.inr ⟨Or.inr rfl, hmembers (Or.inr hshape) c hc⟩

/-- What a plain node or a record leads to, the root leads to by the segments of the node. -/
theorem exists_way (h : t.Sound) :
    ∀ n ∈ t.nodes, (n.shape = .plain ∨ n.shape = .keyedRecords) →
      ∃ way, n.site.segments k = .field t.rootNode.name :: way ∧
        ∀ rest r, Descent p n rest r → Descent p t.rootNode (way ++ rest)
          (if n.site.inRecords then insideRecord k r else r) := by
  refine nodes_induction ?_ ?_
  · intro _
    refine ⟨[], by rw [site_rootNode]; rfl, fun rest r hr => ?_⟩
    rw [h.inRecords_rootNode]
    exact hr
  · intro q hq ih c hc hshape
    have hqshape : q.shape = .plain ∨ q.shape = .keyedRecords := by
      rcases h.walked_or_member hq hc with hq | ⟨-, hmarker⟩
      · exact hq
      · rcases hshape with hshape | hshape <;> rw [hmarker] at hshape <;> cases hshape
    obtain ⟨way, hsegments, hway⟩ := ih hqshape
    have hchild := (h.wellFormed q hq).child?_name hc
    rw [Place.segments_of_mem_below hc, hsegments]
    refine ⟨way ++ Site.lastSegments k q.entry c.entry, rfl, fun rest r hr => ?_⟩
    rw [Place.inRecords_of_mem_below hc, List.append_assoc]
    rcases hshape with hshape | hshape
    · have hlast : Site.lastSegments k q.entry c.entry = [.field c.name] := by
        have hentry : c.entry.shape = .plain := hshape
        rw [Site.lastSegments, hentry]
        rfl
      rw [hlast, hshape]
      exact hway _ r (.plain hchild hshape hr)
    · have hlast : Site.lastSegments k q.entry c.entry = [.field c.name, .key k] := by
        have hentry : c.entry.shape = .keyedRecords := hshape
        rw [Site.lastSegments, hentry]
        rfl
      have hrecord := hway _ _ (.record (k := k) hchild hshape hr)
      rw [hlast, hshape]
      have hsame : (if q.site.inRecords = true then insideRecord k (insideRecord k r)
          else insideRecord k r) = insideRecord k r := ite_self _
      rw [hsame] at hrecord
      exact hrecord

/-- A node to which a plain node or a record leads is found. -/
theorem finds_of_last (h : t.Sound) {a n : Node} {last : List Segment} {kind : PathKind}
    {label : Option Nat} (ha : a ∈ t.nodes) (hshape : a.shape = .plain ∨ a.shape = .keyedRecords)
    (hsegments : n.site.segments k = a.site.segments k ++ last)
    (hin : n.site.inRecords = a.site.inRecords)
    (hlast : Descent p a last { target := .listed n, kind, labelKey := label }) :
    t.Finds p k n label := by
  obtain ⟨way, hway, hdescent⟩ := h.exists_way a ha hshape
  have hfound := hdescent last _ hlast
  rw [hway] at hsegments
  rw [Finds, hin]
  by_cases hrecords : a.site.inRecords = true
  · rw [if_pos hrecords] at hfound ⊢
    exact ⟨way ++ last, _, hsegments, hfound⟩
  · rw [if_neg hrecords] at hfound ⊢
    exact ⟨way ++ last, _, hsegments, hfound⟩

/-- The last segment of a node below a plain node or a record is its name, unless a key follows. -/
theorem segments_eq_of_walked {q n : Node} (hn : n ∈ q.below)
    (hqshape : q.shape = .plain ∨ q.shape = .keyedRecords) (hnshape : n.shape ≠ .keyedRecords) :
    n.site.segments k = q.site.segments k ++ [.field n.name] ∧
      n.site.inRecords = q.site.inRecords := by
  constructor
  · rw [Place.segments_of_mem_below hn]
    congr 1
    have hqentry : q.entry.shape = .plain ∨ q.entry.shape = .keyedRecords := hqshape
    unfold Site.lastSegments
    cases hshape : n.entry.shape with
    | keyedRecords => exact absurd hshape hnshape
    | plain | listBag | mapBag | labelMap => rfl
    | enumMarker =>
        rcases hqentry with hqentry | hqentry <;>
          simp only [hqentry, Shape.takesExternalKey, Shape.isBag] <;> rfl
  · have hnot : (n.shape == .keyedRecords) = false := beq_eq_false_iff_ne.mpr hnshape
    rw [Place.inRecords_of_mem_below hn, hnot, Bool.false_or]

theorem finds_of_walked (h : t.Sound) {q n : Node} (hq : q ∈ t.nodes) (hn : n ∈ q.below)
    (hqshape : q.shape = .plain ∨ q.shape = .keyedRecords) : t.Finds p k n none := by
  have hchild := (h.wellFormed q hq).child?_name hn
  have hfinds : ∀ {kind : PathKind}, n.shape ≠ .keyedRecords →
      Descent p q [.field n.name] { target := .listed n, kind } → t.Finds p k n none := by
    intro kind hnshape hlast
    obtain ⟨hsegments, hin⟩ := segments_eq_of_walked hn hqshape hnshape
    exact h.finds_of_last hq hqshape hsegments hin hlast
  cases hshape : n.shape with
  | keyedRecords =>
      have hnmem := mem_nodes_of_mem_below hq hn
      exact h.finds_of_last hnmem (Or.inr hshape) (List.append_nil _).symm rfl .here
  | plain => exact hfinds (by simp [hshape]) (.plain hchild hshape .here)
  | enumMarker => exact hfinds (by simp [hshape]) (.marker hchild hshape)
  | listBag | mapBag =>
      have hbag : n.shape.isBag = true := by rw [hshape]; rfl
      exact hfinds (by simp [hshape]) (.bagWhole hchild hbag)
  | labelMap => exact hfinds (by simp [hshape]) (.labelsWhole hchild hshape)

/-- What holds members stands below a plain node or a record. -/
theorem exists_walked_above (h : t.Sound) {q n : Node} (hq : q ∈ t.nodes) (hn : n ∈ q.below)
    (hqshape : q.shape.isBag = true ∨ q.shape = .labelMap) :
    ∃ g ∈ t.nodes, q ∈ g.below ∧ (g.shape = .plain ∨ g.shape = .keyedRecords) ∧
      q.shape ≠ .keyedRecords := by
  have hplain : q.shape ≠ .plain := by
    intro hshape
    rw [hshape] at hqshape
    rcases hqshape with hqshape | hqshape <;> cases hqshape
  have hrecords : q.shape ≠ .keyedRecords := by
    intro hshape
    rw [hshape] at hqshape
    rcases hqshape with hqshape | hqshape <;> cases hqshape
  rcases eq_rootNode_or_mem_below hq with rfl | ⟨g, hg, hqg⟩
  · exact absurd h.root_plain hplain
  · refine ⟨g, hg, hqg, ?_, hrecords⟩
    rcases h.walked_or_member hg hqg with hgshape | ⟨-, hqmarker⟩
    · exact hgshape
    · exact absurd hqmarker (h.shape_ne_marker hq hn)

/-- A member of a bag or a label map, where the key that stands for it leads back to it. -/
theorem finds_of_member (h : t.Sound) (hk : k ≤ Decimal.maxKey) {q n : Node} (hq : q ∈ t.nodes)
    (hn : n ∈ q.below) (hqshape : q.shape.isBag = true ∨ q.shape = .labelMap)
    (hmarker : n.shape = .enumMarker)
    (hnumber : q.shape = .listBag →
      0 ≤ n.entry.ordinal ∧ q.child? (Decimal.text n.entry.ordinal) = some n)
    (hplaceholder : q.shape.takesExternalKey = true → q.child? "0" = some n) :
    t.Finds p k n (if q.shape.takesExternalKey then some k else none) := by
  obtain ⟨g, hg, hqg, hgshape, hqrecords⟩ := h.exists_walked_above hq hn hqshape
  obtain ⟨hsegments, hin⟩ := segments_eq_of_walked (k := k) hqg hgshape hqrecords
  have hchild := (h.wellFormed g hg).child?_name hqg
  have hnin : n.site.inRecords = g.site.inRecords := by
    rw [Place.inRecords_of_mem_below hn, hmarker, hin]
    rfl
  -- The key in place of the member comes right behind the name of what holds it.
  have hfinds : ∀ {last : Segment} {kind : PathKind} {label : Option Nat},
      Site.lastSegments k q.entry n.entry = [last] →
      Descent p g [.field q.name, last] { target := .listed n, kind, labelKey := label } →
      t.Finds p k n label := by
    intro last kind label hlast hdescent
    refine h.finds_of_last hg hgshape ?_ hnin hdescent
    rw [Place.segments_of_mem_below hn, hlast, hsegments, List.append_assoc]
    rfl
  have hentry : n.entry.shape = .enumMarker := hmarker
  cases hshape : q.shape with
  | plain | enumMarker | keyedRecords => simp [hshape, Shape.isBag] at hqshape
  | listBag =>
      obtain ⟨hordinal, hlisted⟩ := hnumber hshape
      have hle := (h.wellFormed n (mem_nodes_of_mem_below hq hn)).ordinal hmarker
      have hnat : ((n.entry.ordinal.toNat : Nat) : Int) = n.entry.ordinal :=
        Int.toNat_of_nonneg hordinal
      have hkey : keyRemainder? [.key n.entry.ordinal.toNat] = some n.entry.ordinal.toNat :=
        keyRemainder?_key (by omega)
      have hqentry : q.entry.shape = .listBag := hshape
      refine hfinds ?_ (.bagNumber hchild hshape hkey (hnat.symm ▸ hlisted))
      simp only [Site.lastSegments, hentry, hqentry]
      rfl
  | mapBag =>
      have hqentry : q.entry.shape = .mapBag := hshape
      have hzero := hplaceholder (by rw [hshape]; rfl)
      refine hfinds ?_ (.bagPlaceholder hchild hshape (keyRemainder?_key hk) hzero)
      simp only [Site.lastSegments, hentry, hqentry]
      rfl
  | labelMap =>
      have hqentry : q.entry.shape = .labelMap := hshape
      have hzero := hplaceholder (by rw [hshape]; rfl)
      refine hfinds ?_ (.labelsPlaceholder hchild hshape (keyRemainder?_key hk) hzero)
      simp only [Site.lastSegments, hentry, hqentry]
      rfl

end Tree.Sound

/-- Every node whose names can be spelt, with one key on its line at most, is found again by
its own dotted path, and the path of what is found is the same.  A member of a bag or a label
map has to be the one that its key stands for. -/
theorem Tree.resolve_of_render {v : Vocabulary} {root : String} {m : Option Message} {t : Tree}
    (built : (build v root m).value = .ok t) (p : Policy) {id : Nat} {n : Node}
    (hid : t.node? id = some n) {k : Nat} (hk : k ≤ Decimal.maxKey)
    (hnames : ∀ s ∈ n.site.line, IsPlainName s.entry.name)
    (hkeys : n.site.line.countP Site.isKeyBearing ≤ 1)
    (hnumber : ∀ q, t.parent? n = some q → n.shape = .enumMarker → q.shape = .listBag →
      0 ≤ n.entry.ordinal ∧ (q.child? (Decimal.text n.entry.ordinal)).map (·.id) = some id)
    (hplaceholder : ∀ q, t.parent? n = some q → n.shape = .enumMarker →
      q.shape.takesExternalKey = true → (q.child? "0").map (·.id) = some id) :
    ∃ text r, (n.site.path .dotted (some k)).value = .ok text ∧
      resolveFrom p t.rootNode text = .ok r ∧ r.target.id? = some id ∧ r.tag = none ∧
      r.collectionKey = (if n.site.inRecords then some k else none) ∧
      r.labelKey = (if (t.parent? n).any (·.shape.takesExternalKey) then some k else none) ∧
      (r.path .dotted).value = .ok text := by
  have h := sound_of_build built
  obtain ⟨hn, rfl⟩ := h.node?_eq_some_iff.mp hid
  have hfinds : t.Finds p k n
      (if (t.parent? n).any (·.shape.takesExternalKey) then some k else none) := by
    rcases eq_rootNode_or_mem_below hn with rfl | ⟨q, hq, hc⟩
    · rw [parent?_rootNode]
      exact h.finds_of_last t.rootNode_mem_nodes (Or.inl h.root_plain) (List.append_nil _).symm rfl
        .here
    · have hparent := h.parent?_of_mem_below hq hc
      rw [hparent, Option.any_some]
      rcases h.walked_or_member hq hc with hqshape | ⟨hqshape, hmarker⟩
      · have hnone : q.shape.takesExternalKey = false := by
          rcases hqshape with hqshape | hqshape <;> rw [hqshape] <;> rfl
        rw [hnone]
        exact h.finds_of_walked hq hc hqshape
      · refine h.finds_of_member hk hq hc hqshape hmarker (fun hlist => ?_) fun hexternal => ?_
        · obtain ⟨hordinal, hlisted⟩ := hnumber q hparent hmarker hlist
          exact ⟨hordinal, h.child?_eq_of_id hq hn hlisted⟩
        · exact h.child?_eq_of_id hq hn (hplaceholder q hparent hmarker hexternal)
  obtain ⟨way, kind, hsegments, hdescent⟩ := hfinds
  have hordinal : ∀ q ∈ t.nodes, n ∈ q.below → n.shape = .enumMarker → q.shape = .listBag →
      0 ≤ n.entry.ordinal := fun q hq hc hmarker hlist =>
    (hnumber q (h.parent?_of_mem_below hq hc) hmarker hlist).1
  have hrender := h.render_eq_join (k := k) n hn (Or.inl rfl) hordinal
  have hparse := Path.parse_join (n.site.segments_ne_nil k) (h.printable_segments hk n hn hnames)
    (Nat.le_trans (Site.countP_segmentsFrom k _ _) hkeys)
  refine ⟨Segment.join (n.site.segments k), _, (Site.value_path _ _ _).trans hrender,
    resolveFrom_eq_ok_iff.mpr ⟨_, hparse, way, hsegments, _, hdescent, rfl⟩, rfl, rfl, rfl, rfl, ?_⟩
  rw [Resolution.path, Site.value_path]
  refine h.render_eq_join n hn ?_ hordinal
  -- Where the result has no key, the path of the node asks for none.
  by_cases hin : n.site.inRecords = true
  · left
    simp [Resolution.key, hin]
  · by_cases hexternal : (t.parent? n).any (·.shape.takesExternalKey) = true
    · left
      simp [Resolution.key, hin, hexternal]
    · right
      cases hrequires : n.site.requiresKey with
      | false => rfl
      | true =>
          rcases h.inRecords_or_external n hn hrequires with hin' | ⟨-, hexternal'⟩
          · exact absurd hin' hin
          · exact absurd hexternal' hexternal

/-- The placeholder of the small log's label map, at key 7. -/
theorem Tree.resolve_of_render_placeholder :
    ∃ n, sampleTree.node? 14 = some n ∧ ∃ r,
      (n.site.path .dotted (some 7)).value = .ok "log.labels.key:7" ∧
        resolveFrom {} sampleTree.rootNode "log.labels.key:7" = .ok r ∧
        r.target.id? = some 14 ∧ r.tag = none ∧ r.collectionKey = none ∧ r.labelKey = some 7 ∧
        (r.path .dotted).value = .ok "log.labels.key:7" := by
  refine ⟨_, rfl, ?_⟩
  have hid : sampleTree.node? 14 = some _ := rfl
  obtain ⟨text, r, htext, h⟩ := resolve_of_render (k := 7) build_sampleLog {} hid (by decide)
    (by decide) (by decide)
    (by
      intro q hq _ hlist
      cases hq
      cases hlist)
    (by
      intro q hq _ _
      cases hq
      rfl)
  have heq : text = "log.labels.key:7" := Except.ok.inj (htext.symm.trans rfl)
  subst heq
  exact ⟨r, htext, h⟩

end FieldAtlas
