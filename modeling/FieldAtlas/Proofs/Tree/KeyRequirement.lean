import FieldAtlas.Proofs.Tree.Template

/-!
# `KeyRequirement` — which nodes cannot be rendered without a key, and what they answer

Whether a node asks for a key is one test on its line, and rendering it is a recursion down the
same line that fails part-way.  The two agree: `Tree.Sound.render_none_eq` reads the outcome of
rendering without a key off the line, by induction down the tree.  The parent is rendered first,
so that a failure further up wins, and the error names the first site from the root that has a
key in its ending.

With a key nothing fails, and the open places of the template tell keys apart.
-/

namespace FieldAtlas

namespace Site

/-- The site nearest the root, on the line of a site, that has a runtime key in its ending. -/
def outermostKey? (s : Site) : Option Site := s.line.reverse.find? (·.hasKeyEnding)

/-- What a site answers that is rendered without its key. -/
def missingKey (s : Site) : MissingKey := ⟨s.entry.name, s.entry.shape⟩

theorem isSome_outermostKey? (s : Site) : s.outermostKey?.isSome = s.requiresKey := by
  rw [outermostKey?, List.isSome_find?, List.any_reverse, requiresKey, requiresKeyFrom_eq_any]
  rfl

/-- The outermost site with a key splits the line, and no site above it has one. -/
theorem outermostKey?_eq_some {s x : Site} (h : s.outermostKey? = some x) :
    ∃ below above, s.line = below ++ x :: above ∧ x.hasKeyEnding = true ∧
      ∀ y ∈ above, y.hasKeyEnding = false := by
  obtain ⟨hkey, front, back, hline, hfront⟩ := List.find?_eq_some_iff_append.mp h
  refine ⟨back.reverse, front.reverse, ?_, hkey, fun y hy => ?_⟩
  · have hreverse := congrArg List.reverse hline
    simpa using hreverse
  · simpa using hfront y (List.mem_reverse.mp hy)

theorem path_of_error {s : Site} {style : PathStyle} {key : Option Int} {missing : MissingKey}
    (h : s.render style key = .error missing) :
    s.path style key = ⟨.error missing, [missing.notice]⟩ := by
  rw [path, h]

theorem path_of_ok {s : Site} {style : PathStyle} {key : Option Int} {text : String}
    (h : s.render style key = .ok text) : s.path style key = ⟨.ok text, []⟩ := by
  rw [path, h]

end Site

/-- No entry stands for the way down to it in a dotted path. -/
theorem Place.template_dotted_of_mem_below {n c : Node} (hc : c ∈ n.below) :
    c.site.template .dotted =
      n.site.template .dotted ++ Site.endingTemplate .dotted n.entry c.entry := by
  rw [Site.template, site_of_mem_below hc]
  rfl

theorem Place.outermostKey?_of_mem_below {n c : Node} (hc : c ∈ n.below) :
    c.site.outermostKey? =
      n.site.outermostKey?.or (if c.site.hasKeyEnding then some c.site else none) := by
  rw [Site.outermostKey?, line_of_mem_below hc, List.reverse_cons, List.find?_append,
    List.find?_singleton]
  rfl

namespace Tree

/-- The sites on the line of a node are those of nodes. -/
theorem exists_node_of_mem_line {t : Tree} :
    ∀ n ∈ t.nodes, ∀ s ∈ n.site.line, ∃ q ∈ t.nodes, q.site = s := by
  refine nodes_induction (fun s hs => ?_) fun q hq ih c hc s hs => ?_
  · rw [site_rootNode] at hs
    rw [List.mem_singleton.mp hs]
    exact ⟨t.rootNode, t.rootNode_mem_nodes, site_rootNode t⟩
  · rw [Place.line_of_mem_below hc] at hs
    rcases List.mem_cons.mp hs with rfl | hs
    · exact ⟨c, mem_nodes_of_mem_below hq hc, rfl⟩
    · exact ih s hs

/-- Without a key, a node has the path that it has with any key, unless there is a site with a key
on its line: then the outermost of these is reported. -/
theorem Sound.render_none_eq {t : Tree} (h : t.Sound) :
    ∀ n ∈ t.nodes, n.site.render .dotted none =
      match n.site.outermostKey? with
      | none => .ok ((n.site.template .dotted).fill 0)
      | some s => .error s.missingKey := by
  refine nodes_induction ?_ fun q hq ih c hc => ?_
  · have hclosed : t.rootNode.site.outermostKey? = none := by
      rw [← Option.isNone_iff_eq_none, ← Option.not_isSome, Site.isSome_outermostKey?,
        h.requiresKey_rootNode]
      rfl
    rw [hclosed, site_rootNode]
    exact Site.render_none_of_no_key (by simp [Site.template, Site.templateFrom]) 0
  · rw [Place.render_of_mem_below hc, Place.outermostKey?_of_mem_below hc, ih]
    cases q.site.outermostKey? with
    | some s => rfl
    | none =>
        rw [Site.ending_none .dotted 0]
        by_cases hkey : Site.bearsKey (some q.entry) c.entry = true
        · have hopen := (Site.key_mem_endingTemplate_iff .dotted q.entry c.entry).mpr hkey
          rw [if_pos hopen, Place.hasKeyEnding_of_mem_below hc, if_pos hkey]
          rfl
        · have hclosed := mt (Site.key_mem_endingTemplate_iff .dotted q.entry c.entry).mp hkey
          rw [if_neg hclosed, Place.hasKeyEnding_of_mem_below hc, if_neg hkey,
            Place.template_dotted_of_mem_below hc, Template.fill_append]
          rfl

/-- The open places of a dotted path are those of the sites with a key on the line. -/
theorem Sound.key_mem_template_dotted_iff {t : Tree} (h : t.Sound) :
    ∀ n ∈ t.nodes, .key ∈ n.site.template .dotted ↔ n.site.requiresKey = true := by
  intro n hn
  rw [← Site.exists_missing_iff, h.render_none_eq n hn, ← Site.isSome_outermostKey?]
  cases n.site.outermostKey? <;> simp

/-- A node that asks for no key has one path, whatever the key. -/
theorem Sound.exists_render {t : Tree} (h : t.Sound) {n : Node} (hn : n ∈ t.nodes)
    (hfree : n.site.requiresKey = false) : ∃ text, ∀ key, n.site.render .dotted key = .ok text := by
  have hclosed : Piece.key ∉ n.site.template .dotted := by
    rw [h.key_mem_template_dotted_iff n hn, hfree]
    exact Bool.false_ne_true
  refine ⟨(n.site.template .dotted).fill 0, fun key => ?_⟩
  cases key with
  | none => exact Site.render_none_of_no_key hclosed 0
  | some k => rw [Site.render_some, Template.fill_of_no_key hclosed k 0]

/-- A node that asks for a key has a path for every key, and a different one for each, but none
without: then the outermost site with a key is reported, once.  A node that asks for no key has
the same path with any key and without. -/
theorem dotted_of_requiresKey {v : Vocabulary} {root : String} {m : Option Message} {t : Tree}
    (built : (build v root m).value = .ok t) {id : Nat} {n : Node} (hid : t.node? id = some n) :
    ((∃ missing, (n.site.path .dotted none).value = .error missing) ↔
      n.site.requiresKey = true) ∧
    (n.site.requiresKey = true → ∃ q ∈ t.nodes, ∃ below above,
      n.site.line = below ++ q.site :: above ∧ q.site.hasKeyEnding = true ∧
      (∀ s ∈ above, s.hasKeyEnding = false) ∧
      n.site.path .dotted none = ⟨.error ⟨q.name, q.shape⟩, [.keyMissing q.name q.shape]⟩ ∧
      (Notice.keyMissing q.name q.shape).level = .error) ∧
    (∀ k, ∃ text, n.site.path .dotted (some k) = ⟨.ok text, []⟩) ∧
    (n.site.requiresKey = false →
      ∀ k, n.site.path .dotted (some k) = n.site.path .dotted none) ∧
    (n.site.requiresKey = true → ∀ j k : Int, j ≠ k →
      (n.site.path .dotted (some j)).value ≠ (n.site.path .dotted (some k)).value) := by
  have hn := mem_nodes_of_node? hid
  have hsound := sound_of_build built
  have hopen := hsound.key_mem_template_dotted_iff n hn
  have hsome : ∀ k, n.site.path .dotted (some k) = ⟨.ok ((n.site.template .dotted).fill k), []⟩ :=
    fun k => Site.path_of_ok (n.site.render_some .dotted k)
  refine ⟨?_, fun hrequires => ?_, fun k => ⟨_, hsome k⟩, fun hfree k => ?_,
    fun hrequires j k hjk heq => ?_⟩
  · rw [Site.value_path, Site.exists_missing_iff, hopen]
  · rw [← Site.isSome_outermostKey?] at hrequires
    obtain ⟨s, hs⟩ := Option.isSome_iff_exists.mp hrequires
    obtain ⟨below, above, hline, hkey, habove⟩ := Site.outermostKey?_eq_some hs
    obtain ⟨q, hq, rfl⟩ := exists_node_of_mem_line n hn s (by simp [hline])
    have hrender := hsound.render_none_eq n hn
    rw [hs] at hrender
    exact ⟨q, hq, below, above, hline, hkey, habove, Site.path_of_error hrender, rfl⟩
  · obtain ⟨text, htext⟩ := hsound.exists_render hn hfree
    rw [Site.path_of_ok (htext (some k)), Site.path_of_ok (htext none)]
  · rw [hsome, hsome] at heq
    exact hjk (Template.fill_injective (hopen.mpr hrequires) (Except.ok.inj heq))

/-- A member of a label map within a record: both ask for a key, and the record is reported. -/
theorem dotted_of_requiresKey_member :
    ∃ n, sampleTree.node? 11 = some n ∧ n.name = "UNKNOWN_NAME" ∧
      (∃ missing, (n.site.path .dotted none).value = .error missing) ∧
      n.site.path .dotted none =
        ⟨.error ⟨"history", .keyedRecords⟩, [.keyMissing "history" .keyedRecords]⟩ ∧
      (n.site.path .dotted (some 1)).value ≠ (n.site.path .dotted (some 2)).value := by
  have hid : sampleTree.node? 11 = some _ := rfl
  obtain ⟨hmissing, -, -, -, hkeys⟩ := dotted_of_requiresKey build_sampleLog hid
  exact ⟨_, hid, rfl, hmissing.mpr (by decide), rfl, hkeys (by decide) 1 2 (by decide)⟩

end Tree

end FieldAtlas
