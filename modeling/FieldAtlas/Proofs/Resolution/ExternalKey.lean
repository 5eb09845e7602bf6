import FieldAtlas.Proofs.Resolution.BagPath
import FieldAtlas.Proofs.Resolution.Placeholder
import FieldAtlas.Proofs.Tree.Members
import FieldAtlas.Proofs.Tree.Representation

/-!
# `ExternalKey` — keys that the schema does not know

Behind a listing bag a key is the number of a member.  Behind a label map, and behind a bag of the
other kind, it is not: the one placeholder answers to every key, and the key is kept aside.  The
placeholder stands under the key 0, but that is how the tree has it and not what a path says, so it
makes no difference whether some member has the number that is given.

`Tree.resolve_external_key` says this for every key that a path can hold, of every path of names to
such a node.
-/

namespace FieldAtlas

section

variable {t : Tree} {p : Policy} {q bag c : Node} {name dotted : String} {names : List String}
  {whole : Resolution} {k : Nat}

/-- A key behind a node that takes external keys asks for the placeholder. -/
theorem descend_external (hc : q.child? name = some c) (hexternal : c.shape.takesExternalKey = true)
    (hk : k ≤ Decimal.maxKey) :
    descend p q [.field name, .key k] = placeholder c k c.shape.placeholderKind := by
  have hholds := Shape.holds_of_takesExternalKey hexternal
  rw [descend_of_keyRemainder? hc hholds (keyRemainder?_key hk), underKey, if_pos hexternal]

/-- Names that lead to a node that takes external keys, with a key behind them. -/
theorem Tree.Sound.resolve_external (h : t.Sound) (hdotted : Path.IsDotted dotted names)
    (hmarkers : KeyMarker.count dotted = 0) (found : resolveFrom p t.rootNode dotted = .ok whole)
    (htarget : whole.target = .listed bag) (hexternal : bag.shape.takesExternalKey = true)
    (hk : k ≤ Decimal.maxKey) :
    resolveFrom p t.rootNode (dotted ++ ".key:" ++ Decimal.text k) =
      match bag.child? "0" with
      | some c => .ok { target := .listed c, kind := bag.shape.placeholderKind, labelKey := some k }
      | none =>
        .error (if p.isOutside (dotted ++ ".key:" ++ Decimal.text k) then
          .outside (dotted ++ ".key:" ++ Decimal.text k) else .noPlaceholder bag.name) := by
  have hholds := Shape.holds_of_takesExternalKey hexternal
  have htext : dotted ++ ".key:" ++ Decimal.text k = dotted ++ Segment.tail [.key k] := by
    rw [Segment.tail_key, String.append_assoc]
  rw [htext]
  have hnames := hdotted.isPlainName hmarkers
  obtain ⟨others, q, name, rfl, hc, hrest⟩ :=
    hdotted.exists_descend_eq h hnames found htarget hholds
  have hread := hdotted.parse_append (s := .key k) (List.cons_ne_nil _ _) hnames hk
  have hdescend : descend p t.rootNode (others.map .field ++ [.key k]) =
      placeholder bag k bag.shape.placeholderKind :=
    (hrest _).trans (descend_external hc hexternal hk)
  have hbody : (Path.splitTag (dotted ++ Segment.tail [.key k])).1 =
      dotted ++ Segment.tail [.key k] := (Path.body_of_parse hread).symm
  rw [resolveFrom, hread, hbody]
  simp only [Except.bind, walk, List.map_cons, List.cons_append, if_true, hdescend, placeholder]
  cases bag.child? "0" with
  | some c => rfl
  | none =>
      show (if _ then _ else _) = _
      split <;> rfl

/-- The placeholder is rendered with the key behind the text of the names. -/
theorem Tree.Sound.render_external (h : t.Sound) (hdotted : Path.IsDotted dotted names)
    (found : resolveFrom p t.rootNode dotted = .ok whole) (htarget : whole.target = .listed bag)
    (hexternal : bag.shape.takesExternalKey = true) (hc : bag.child? "0" = some c) :
    c.site.render .dotted (some (k : Int)) = .ok (dotted ++ ".key:" ++ Decimal.text k) := by
  have hholds := Shape.holds_of_takesExternalKey hexternal
  have hbag : bag ∈ t.nodes := by
    have hhome := home_mem_nodes_of_resolveFrom t.rootNode_mem_nodes found
    rwa [htarget] at hhome
  obtain ⟨rest, inner, rfl, hdescent, hinner⟩ := hdotted.exists_descent found
  rw [htarget] at hinner
  have hstart := hdescent.render_holder h (by rw [hinner]; exact hholds) (some (k : Int))
  rw [hinner, ← hdotted.eq_join] at hstart
  have hbelow := (Place.mem_below_of_child? hc).1
  have hplaceholder : c.site.IsPlaceholderOf bag.site :=
    ⟨(h.wellFormed bag hbag).members hholds c hbelow, Place.parent?_site hbelow, hexternal⟩
  exact hplaceholder.render_some hstart

end

/-- A path of names to a bag that takes external keys, or to a label map, goes on with any key.
Without a placeholder there this fails.  Otherwise every key comes to the placeholder, and is kept
aside and rendered as it was given, so that no two keys come to the same. -/
theorem Tree.resolve_external_key {v : Vocabulary} {root : String} {m : Option Message} {t : Tree}
    (built : (build v root m).value = .ok t) (p : Policy) {dotted : String} {names : List String}
    (hdotted : Path.IsDotted dotted names) (hmarkers : KeyMarker.count dotted = 0)
    {whole : Resolution} {bag : Node} (found : resolveFrom p t.rootNode dotted = .ok whole)
    (htarget : whole.target = .listed bag) (hexternal : bag.shape.takesExternalKey = true) :
    (bag.child? "0" = none → ∀ k ≤ Decimal.maxKey,
      resolveFrom p t.rootNode (dotted ++ ".key:" ++ Decimal.text k) =
        .error (if p.isOutside (dotted ++ ".key:" ++ Decimal.text k) then
          .outside (dotted ++ ".key:" ++ Decimal.text k) else .noPlaceholder bag.name)) ∧
    ∀ c, bag.child? "0" = some c →
      (∀ k ≤ Decimal.maxKey, ∃ r,
        resolveFrom p t.rootNode (dotted ++ ".key:" ++ Decimal.text k) = .ok r ∧
        r.target = .listed c ∧ r.labelKey = some k ∧ r.collectionKey = none ∧
        (bag.shape = .labelMap → r.kind = .labelMapLeaf) ∧
        (bag.shape = .mapBag → r.kind = .attributeEntry) ∧
        (r.path .dotted).value = .ok (dotted ++ ".key:" ++ Decimal.text k)) ∧
      ∀ j ≤ Decimal.maxKey, ∀ k ≤ Decimal.maxKey, j ≠ k → ∀ r s,
        resolveFrom p t.rootNode (dotted ++ ".key:" ++ Decimal.text j) = .ok r →
        resolveFrom p t.rootNode (dotted ++ ".key:" ++ Decimal.text k) = .ok s →
        r.same s = false ∧ (r.path .dotted).value ≠ (s.path .dotted).value := by
  have h := sound_of_build built
  have hresolve : ∀ {k : Nat}, k ≤ Decimal.maxKey → _ := fun hk =>
    h.resolve_external hdotted hmarkers found htarget hexternal hk
  refine ⟨fun hnone k hk => ?_, fun c hc => ?_⟩
  · rw [hresolve hk, hnone]
  · have hplaceholder : ∀ {k : Nat}, k ≤ Decimal.maxKey →
        resolveFrom p t.rootNode (dotted ++ ".key:" ++ Decimal.text k) = .ok
          { target := .listed c, kind := bag.shape.placeholderKind, labelKey := some k } := by
      intro k hk
      rw [hresolve hk, hc]
    have hpath : ∀ k : Nat, (Resolution.path
        { target := .listed c, kind := bag.shape.placeholderKind, labelKey := some k }
        .dotted).value = .ok (dotted ++ ".key:" ++ Decimal.text k) := by
      intro k
      rw [Resolution.path, Site.value_path]
      exact h.render_external hdotted found htarget hexternal hc
    refine ⟨fun k hk => ⟨_, hplaceholder hk, rfl, rfl, rfl, ?_, ?_, hpath k⟩, ?_⟩
    · intro hshape
      rw [hshape]
      rfl
    · intro hshape
      rw [hshape]
      rfl
    · intro j hj k hk hjk r s hr hs
      obtain rfl := Except.ok.inj ((hplaceholder hj).symm.trans hr)
      obtain rfl := Except.ok.inj ((hplaceholder hk).symm.trans hs)
      constructor
      · simp [Resolution.same, hjk]
      · rw [hpath, hpath]
        intro hsame
        have htext := (String.append_right_inj _).mp (Except.ok.inj hsame)
        exact hjk (Int.ofNat.inj (Decimal.text_injective htext))

/-! ## A placeholder and a member beside it -/

def sampleTags : Message where
  name := "TagLog"
  fields := [{ name := "labels", number := 1, type := .message { sampleLabels with
    enums := [⟨"Name", [⟨"UNKNOWN_NAME", 0, none⟩, ⟨"OTHER", 5, none⟩]⟩] } }]

def sampleTagsTree : Tree := .ofEntries (Tree.rootBranch {} "log" sampleTags).value

theorem build_sampleTags : (Tree.build {} "log" (some sampleTags)).value = .ok sampleTagsTree :=
  rfl

/-- The number of the other member is a key like any other. -/
theorem Tree.resolve_external_key_number :
    ∃ r s, resolveFrom .synthesizing sampleTagsTree.rootNode "log.labels.key:5" = .ok r ∧
      resolveFrom .synthesizing sampleTagsTree.rootNode "log.labels.key:6" = .ok s ∧
      r.target.entry.name = "UNKNOWN_NAME" ∧ r.labelKey = some 5 ∧ r.kind = .attributeEntry ∧
      (r.path .dotted).value = .ok "log.labels.key:5" ∧ r.same s = false := by
  have hdotted : Path.IsDotted "log.labels" ["log", "labels"] := by
    rw [Path.IsDotted]
    decide +kernel
  have hdescent : Descent .synthesizing sampleTagsTree.rootNode [.field "labels"] _ :=
    .bagWhole rfl rfl
  have found := resolveFrom_eq_ok_iff.mpr ⟨_, hdotted, _, rfl, _, hdescent, rfl⟩
  obtain ⟨-, hplaceholder⟩ := resolve_external_key build_sampleTags _ hdotted (by decide +kernel)
    found rfl rfl
  obtain ⟨hresolve, hdiffer⟩ := hplaceholder _ rfl
  obtain ⟨r, hr, htarget, hlabel, -, -, hkind, hpath⟩ := hresolve 5 (by decide)
  obtain ⟨s, hs, -⟩ := hresolve 6 (by decide)
  obtain ⟨hsame, -⟩ := hdiffer 5 (by decide) 6 (by decide) (by decide) r s hr hs
  refine ⟨r, s, hr, hs, ?_, hlabel, hkind rfl, hpath, hsame⟩
  rw [htarget]
  rfl

end FieldAtlas
