import FieldAtlas.Proofs.Resolution.Descent
import FieldAtlas.Proofs.Tree.Rendering

/-!
# `PathRoundTrip` — what a path resolves to is rendered as that path

A path that resolves is the canonical path of what it resolves to, but for the zeros in front of
its key.  Names may be anything here: the path has been read, and each of its names has been the
key of a child.

Enum leaves are left out, since they answer to numbers too, and a path may go on behind them.  Left
out as well are records within records, which would need two keys.  What remains is found in one
of the three ways that `Landing` lists.
-/

namespace FieldAtlas

/-- How the path of what is found continues the path of the node where the descent started. -/
inductive Landing (n : Node) (segments : List Segment) (r : Resolution) : Prop
  /-- No key was met and none is asked for. -/
  | free (collectionKey : r.collectionKey = none) (labelKey : r.labelKey = none)
      (shape : r.target.entry.shape = .keyedRecords → r.target.site = n.site)
      (render : ∀ key, r.target.site.render .dotted key =
        (n.site.render .dotted key).map (· ++ Segment.tail segments))
  /-- A collection of records further down is meant as a whole. -/
  | whole (collectionKey : r.collectionKey = none) (labelKey : r.labelKey = none)
      (shape : r.target.entry.shape = .keyedRecords)
      (above : n.label :: n.above <:+ r.target.site.above)
      (render : ∀ start, n.site.render .dotted none = .ok start →
        r.target.site.render .dotted none = .error ⟨r.target.entry.name, .keyedRecords⟩)
  /-- One key was met, and it opened a record. -/
  | inside (k : Nat) (collectionKey : r.collectionKey = some k)
      (keys : 1 ≤ segments.countP (·.key?.isSome))
      (render : r.target.site.render .dotted (some k) =
        (n.site.render .dotted (some k)).map (· ++ Segment.tail segments))

namespace Landing

theorem map_tail_tail (x : Except MissingKey String) (first last : List Segment) :
    (x.map (· ++ Segment.tail first)).map (· ++ Segment.tail last) =
      x.map (· ++ Segment.tail (first ++ last)) := by
  cases x with
  | error missing => rfl
  | ok text =>
      show Except.ok (text ++ Segment.tail first ++ Segment.tail last) = _
      rw [Segment.tail_append, String.append_assoc]
      rfl

/-- The start itself is found where the descent ends. -/
theorem here {n : Node} {r : Resolution} (htarget : r.target = .listed n)
    (hcollection : r.collectionKey = none) (hlabel : r.labelKey = none) : Landing n [] r := by
  have hsite : r.target.site = n.site := by rw [htarget]; rfl
  refine free hcollection hlabel (fun _ => hsite) fun key => ?_
  rw [hsite]
  cases n.site.render .dotted key with
  | error missing => rfl
  | ok text => exact congrArg Except.ok (String.append_empty).symm

/-- A step by name goes on to what is found behind it. -/
theorem by_name {n c : Node} (hc : c ∈ n.below) {rest : List Segment} {r : Resolution}
    (hmarker : c.shape ≠ .enumMarker) (hrecords : c.shape ≠ .keyedRecords)
    (hlanding : Landing c rest r) : Landing n (.field c.name :: rest) r := by
  have hstep : ∀ key, c.site.render .dotted key =
      (n.site.render .dotted key).map (· ++ Segment.tail [.field c.name]) := fun key =>
    Place.render_of_ending hc (Site.ending_by_name hmarker hrecords)
  cases hlanding with
  | free hcollection hlabel hshape hrender =>
      refine free hcollection hlabel (fun hkeyed => ?_) fun key => ?_
      · have hsite := hshape hkeyed
        have hentry : r.target.entry = c.entry := congrArg Site.entry hsite
        rw [hentry] at hkeyed
        exact absurd hkeyed hrecords
      · rw [hrender, hstep, map_tail_tail]
        rfl
  | whole hcollection hlabel hshape habove hrender =>
      refine whole hcollection hlabel hshape ?_ fun start hstart => ?_
      · rw [Place.above_of_mem_below hc] at habove
        exact (List.suffix_cons _ _).trans habove
      · refine hrender (start ++ Segment.tail [.field c.name]) ?_
        rw [hstep, hstart]
        rfl
  | inside k hcollection hkeys hrender =>
      refine inside k hcollection ?_ ?_
      · rw [List.countP_cons]
        omega
      · rw [hrender, hstep, map_tail_tail]
        rfl

/-- Opening a record gives its key to what is found in it, which has met none before. -/
theorem in_record {n c : Node} (hc : c ∈ n.below) {k : Nat} {inner : List Segment} {r : Resolution}
    (hrecords : c.shape = .keyedRecords)
    (hkeys : inner.countP (·.key?.isSome) = 0)
    (hnested : r.target.entry.shape = .keyedRecords →
      ∀ l ∈ r.target.site.above, l.entry.shape ≠ .keyedRecords)
    (hlanding : Landing c inner r) :
    Landing n (.field c.name :: .key k :: inner) (insideRecord k r) := by
  cases hlanding with
  | free _ _ _ hrender =>
      refine inside k rfl ?_ ?_
      · rw [List.countP_cons, List.countP_cons]
        simp [Segment.key?]
      · have hentry : c.entry.shape = .keyedRecords := hrecords
        have hending : Site.ending .dotted (some (k : Int)) n.entry c.entry =
            .ok (Segment.tail [.field c.name, .key k]) := by
          rw [Site.ending_eq_tail (k := k) (Or.inl rfl) (by simp [hentry]), Site.lastSegments,
            hentry]
          rfl
        show r.target.site.render .dotted (some k) = _
        rw [hrender, Place.render_of_ending hc hending, map_tail_tail]
        rfl
  | whole _ _ hshape habove _ =>
      have hmem : c.label ∈ r.target.site.above := habove.subset List.mem_cons_self
      exact absurd hrecords (hnested hshape _ hmem)
  | inside _ _ hmore _ => omega

/-- A collection that is meant as a whole has nothing to be rendered with. -/
theorem of_collection {n c : Node} (hc : c ∈ n.below) (hrecords : c.shape = .keyedRecords)
    {kind : PathKind} : Landing n [.field c.name] { target := .listed c, kind } := by
  have hentry : c.entry.shape = .keyedRecords := hrecords
  refine whole rfl rfl hentry ?_ fun start hstart => ?_
  · show n.label :: n.above <:+ c.above
    exact ⟨[], (Place.above_of_mem_below hc).symm⟩
  · show c.site.render .dotted none = .error ⟨c.entry.name, .keyedRecords⟩
    have hending : Site.ending .dotted none n.entry c.entry =
        .error ⟨c.entry.name, .keyedRecords⟩ := by
      simp [Site.ending, hentry, Site.keyEnding, Except.map]
    simp only [Place.render_of_mem_below hc, hstart, hending, Except.bind, Except.map]

end Landing

/-- Every descent lands in one of the three ways, if it ends at no enum leaf and at no
collection of records within a record. -/
theorem Descent.landing {t : Tree} (h : t.Sound) {p : Policy} {n : Node} {segments : List Segment}
    {r : Resolution} (hdescent : Descent p n segments r) (hn : n ∈ t.nodes)
    (hkeys : segments.countP (·.key?.isSome) ≤ 1)
    (hmarker : r.target.entry.shape ≠ .enumMarker)
    (hnested : r.target.entry.shape = .keyedRecords →
      ∀ l ∈ r.target.site.above, l.entry.shape ≠ .keyedRecords) : Landing n segments r := by
  have hmember : ∀ {c m : Node} {key : String}, c ∈ t.nodes →
      c.shape.isBag = true ∨ c.shape = .labelMap → c.child? key = some m →
      m.shape = .enumMarker := fun hc hshape hm =>
    (h.wellFormed _ hc).members hshape _ (Place.mem_below_of_child? hm).1
  have hnamed : ∀ {n c : Node} {name : String}, n ∈ t.nodes → n.child? name = some c →
      c.shape ≠ .enumMarker → c ∈ n.below ∧ c.name = name := fun hn hc hmarker =>
    ⟨(Place.mem_below_of_child? hc).1, h.name_of_child? hn hc hmarker⟩
  induction hdescent with
  | here => exact .here rfl rfl rfl
  | plain hc hshape _ ih =>
      obtain ⟨hbelow, rfl⟩ := hnamed hn hc (by simp [hshape])
      rw [List.countP_cons_of_neg (by simp [Segment.key?])] at hkeys
      have hlanding := ih (Tree.mem_nodes_of_child? hn hc) hkeys hmarker hnested
      exact hlanding.by_name hbelow (by simp [hshape]) (by simp [hshape])
  | marker hc hshape => exact absurd hshape hmarker
  | @bagWhole n c _ hc hbag =>
      obtain ⟨hbelow, rfl⟩ := hnamed hn hc hmarker
      have hrecords : c.shape ≠ .keyedRecords := by
        intro hshape
        rw [hshape] at hbag
        cases hbag
      exact (Landing.here rfl rfl rfl).by_name hbelow hmarker hrecords
  | labelsWhole hc hshape =>
      obtain ⟨hbelow, rfl⟩ := hnamed hn hc hmarker
      exact (Landing.here rfl rfl rfl).by_name hbelow hmarker (by simp [hshape])
  | collection hc hshape =>
      obtain ⟨hbelow, rfl⟩ := hnamed hn hc hmarker
      exact .of_collection hbelow hshape
  | record hc hshape _ ih =>
      obtain ⟨hbelow, rfl⟩ := hnamed hn hc (by simp [hshape])
      rw [List.countP_cons_of_neg (by simp [Segment.key?]),
        List.countP_cons_of_pos (by simp [Segment.key?])] at hkeys
      have hlanding := ih (Tree.mem_nodes_of_child? hn hc) (by omega) hmarker hnested
      exact hlanding.in_record hbelow hshape (by omega) hnested
  | bagMadeUp => exact absurd rfl hmarker
  | bagPlaceholder hc hshape _ hm | bagNumber hc hshape _ hm =>
      have hc' := Tree.mem_nodes_of_child? hn hc
      exact absurd (hmember hc' (Or.inl (by rw [hshape]; rfl)) hm) hmarker
  | bagName hc hbag _ hm =>
      exact absurd (hmember (Tree.mem_nodes_of_child? hn hc) (Or.inl hbag) hm) hmarker
  | labelsPlaceholder hc hshape _ hm =>
      exact absurd (hmember (Tree.mem_nodes_of_child? hn hc) (Or.inr hshape) hm) hmarker

/-- An ordinary result is the start or a plain node, and no key leads to it. -/
theorem Descent.of_normal {p : Policy} {n : Node} {segments : List Segment} {r : Resolution}
    (hdescent : Descent p n segments r) (hkind : r.kind = .normal) :
    (r.target.entry.shape = .plain ∨ r.target = .listed n) ∧
      ∀ s ∈ segments, s.key? = none := by
  induction hdescent with
  | here => exact ⟨Or.inr rfl, nofun⟩
  | @plain n c name rest r hc hshape _ ih =>
      obtain ⟨htarget, hkeys⟩ := ih hkind
      constructor
      · rcases htarget with htarget | htarget
        · exact Or.inl htarget
        · rw [htarget]
          exact Or.inl hshape
      · intro s hs
        rcases List.mem_cons.mp hs with rfl | hs
        · rfl
        · exact hkeys s hs
  | marker | bagWhole | bagPlaceholder | bagNumber | bagMadeUp | bagName | labelsWhole
  | labelsPlaceholder | collection | record => cases hkind

/-! ## From the root -/

/-- The path of what is found is the path that was read, with its key without zeros in front.
Only a collection of records that is meant as a whole has no path, and an ordinary result has the
very path that was given. -/
theorem Tree.render_of_resolve {v : Vocabulary} {root : String} {m : Option Message} {t : Tree}
    (built : (build v root m).value = .ok t) {p : Policy} {raw : String} {r : Resolution}
    (found : resolveFrom p t.rootNode raw = .ok r) :
    ∃ path, Path.parse raw = .ok path ∧
      Segment.join path.segments = Path.trimmed path.body ∧
      (r.target.entry.shape ≠ .enumMarker →
        (r.target.entry.shape = .keyedRecords →
          ∀ l ∈ r.target.site.above, l.entry.shape ≠ .keyedRecords) →
        (r.path .dotted).value =
          if r.target.entry.shape = .keyedRecords ∧ r.collectionKey = none then
            .error ⟨r.target.entry.name, .keyedRecords⟩
          else .ok (Segment.join path.segments)) ∧
      (r.kind = .normal → (r.path .dotted).value = .ok path.body) := by
  have h := sound_of_build built
  obtain ⟨path, hparse, rest, hsegments, inner, hdescent, rfl⟩ := resolveFrom_eq_ok_iff.mp found
  have hplain : t.rootNode.entry.shape = .plain := h.root_plain
  have hstart : ∀ key, t.rootNode.site.render .dotted key = .ok t.rootNode.name := by
    intro key
    rw [site_rootNode]
    rfl
  have hjoin : Segment.join path.segments = t.rootNode.name ++ Segment.tail rest := by
    rw [hsegments, ← List.singleton_append, Segment.join_append (List.cons_ne_nil _ _),
      Segment.join_field]
  have hkeys := (Path.rest_of_parse hparse hsegments).2
  have hrender : inner.target.entry.shape ≠ .enumMarker →
      (inner.target.entry.shape = .keyedRecords →
        ∀ l ∈ inner.target.site.above, l.entry.shape ≠ .keyedRecords) →
      inner.target.site.render .dotted (inner.key.map Int.ofNat) =
        if inner.target.entry.shape = .keyedRecords ∧ inner.collectionKey = none then
          .error ⟨inner.target.entry.name, .keyedRecords⟩
        else .ok (Segment.join path.segments) := by
    intro hmarker hnested
    rw [hjoin]
    cases hdescent.landing h t.rootNode_mem_nodes hkeys hmarker hnested with
    | free _ _ hshape hrender =>
        have hrecords : ¬ (inner.target.entry.shape = .keyedRecords ∧
            inner.collectionKey = none) := by
          rintro ⟨hkeyed, -⟩
          have hentry : inner.target.entry = t.rootNode.entry :=
            congrArg Site.entry (hshape hkeyed)
          rw [hentry, hplain] at hkeyed
          cases hkeyed
        rw [if_neg hrecords, hrender, hstart]
        rfl
    | whole hcollection hlabel hshape _ hrender =>
        have hkey : inner.key = none := by rw [Resolution.key, hcollection, hlabel]; rfl
        rw [if_pos ⟨hshape, hcollection⟩, hkey]
        exact hrender t.rootNode.name (hstart none)
    | inside k hcollection _ hrender =>
        have hkey : inner.key = some k := by rw [Resolution.key, hcollection]; rfl
        have hrecords : ¬ (inner.target.entry.shape = .keyedRecords ∧
            inner.collectionKey = none) := by simp [hcollection]
        rw [if_neg hrecords, hkey]
        show inner.target.site.render .dotted (some k) = _
        rw [hrender, hstart]
        rfl
  refine ⟨path, hparse, Path.join_segments hparse, ?_, fun hkind => ?_⟩
  · intro hmarker hnested
    rw [Resolution.path, Site.value_path]
    exact hrender hmarker hnested
  · obtain ⟨htarget, hnokeys⟩ := hdescent.of_normal hkind
    have hshape : inner.target.entry.shape = .plain := by
      rcases htarget with htarget | htarget
      · exact htarget
      · rw [htarget]
        exact hplain
    have hbody : Segment.join path.segments = path.body := by
      refine Path.join_segments_of_no_key hparse fun s hs => ?_
      rw [hsegments] at hs
      rcases List.mem_cons.mp hs with rfl | hs
      · rfl
      · exact hnokeys s hs
    have hvalue := hrender (by simp [hshape]) (by simp [hshape])
    rw [if_neg (by simp [hshape]), hbody] at hvalue
    rw [Resolution.path, Site.value_path]
    exact hvalue

/-- A leaf in a record of the small log, its key written with zeros and its type behind it. -/
theorem Tree.render_of_resolve_record :
    ∃ r, resolveFrom {} sampleTree.rootNode "log.history.key:007.photo_id:int64" = .ok r ∧
      (r.path .dotted).value = .ok "log.history.key:7.photo_id" := by
  have hparse : Path.parse "log.history.key:007.photo_id:int64" = .ok
      { raw := "log.history.key:007.photo_id:int64"
        body := "log.history.key:007.photo_id"
        segments := [.field "log", .field "history", .key 7, .field "photo_id"]
        tag := some .int64 } := by
    decide +kernel
  have hdescent : Descent {} sampleTree.rootNode [.field "history", .key 7, .field "photo_id"] _ :=
    .record rfl rfl (.plain rfl rfl .here)
  have found := resolveFrom_eq_ok_iff.mpr ⟨_, hparse, _, rfl, _, hdescent, rfl⟩
  obtain ⟨path, hpath, -, hrender, -⟩ := render_of_resolve build_sampleLog found
  rw [hparse] at hpath
  cases hpath
  refine ⟨_, found, (hrender (by decide) nofun).trans ?_⟩
  decide +kernel

end FieldAtlas
