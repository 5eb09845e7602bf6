import FieldAtlas.Proofs.Resolution.BagPath
import FieldAtlas.Proofs.Resolution.DualIndex
import FieldAtlas.Proofs.Resolution.OutsideFields

/-!
# `Accessor` — what may follow the key of an entry

What a path says behind a bag is printed again and read a second time, as text, by the rule for
markers.  That rule knows a key with at most one accessor and puts up with underscores, so it could
make more of a remainder than the grammar did, of `key:7.values` or `key:7.key_x` for one.  It does
not: of segments that were read from a path it takes the key alone, the key with `key` or the key
with `value`, and in each case it takes the number that the grammar has read
(`keyRemainder?_eq_some_iff`).

Hence an accessor makes no difference, and any other names behind the key make the path fail.  They
may do so before it comes to the bag: a name with a marker is one marker too many.
-/

namespace FieldAtlas

/-! ## Reading names behind a key -/

/-- Names bring no marker if none of them holds one. -/
theorem KeyMarker.countPieces_names {names : List String} :
    countPieces ((names.map Segment.field).map Segment.chars) = 0 ↔
      ∀ name ∈ names, count name = 0 := by
  induction names with
  | nil => simp [countPieces]
  | cons name rest ih =>
      rw [List.forall_mem_cons, ← ih]
      exact Nat.add_eq_zero_iff

namespace Path.IsDotted

variable {dotted : String} {names behind : List String} {k : Nat}

/-- The text of names with a key behind them and further names behind the key. -/
theorem keyed_eq_join (h : IsDotted dotted names) (k : Nat) (rest : List Segment) :
    dotted ++ ".key:" ++ Decimal.text k ++ Segment.tail rest =
      Segment.join (names.map .field ++ .key k :: rest) := by
  have hne : names.map Segment.field ≠ [] := segments_ne_nil h
  have hkey : Segment.tail (.key k :: rest) = ".key:" ++ Decimal.text k ++ Segment.tail rest := by
    rw [← List.singleton_append, Segment.tail_append, Segment.tail_key]
  rw [Segment.join_append hne, ← h.eq_join, hkey, String.append_assoc, String.append_assoc,
    String.append_assoc]

/-- Behind names without markers, the key is one marker and the names behind it bring theirs. -/
theorem count_keyed (h : IsDotted dotted names) (hmarkers : KeyMarker.count dotted = 0)
    (hk : k ≤ Decimal.maxKey) (rest : List Segment) :
    KeyMarker.count (Segment.join (names.map .field ++ .key k :: rest)) =
      1 + KeyMarker.countPieces (rest.map Segment.chars) := by
  have hfront : KeyMarker.countPieces ((names.map Segment.field).map Segment.chars) = 0 := by
    rwa [h.eq_join, Segment.count_join_eq] at hmarkers
  have hkey := (Segment.spells_chars (s := .key k) hk).countFrom_key
  rw [Segment.count_join_eq, List.map_append, List.map_cons, KeyMarker.countPieces_append, hfront,
    KeyMarker.countPieces, hkey, Nat.zero_add]

section

variable (h : IsDotted dotted names) (hk : k ≤ Decimal.maxKey)
  (hbehind : ∀ name ∈ behind, (Segment.field name).Readable)

include h hk hbehind

theorem readable_keyed :
    ∀ s ∈ names.map Segment.field ++ .key k :: behind.map .field, s.Readable := by
  intro s hs
  rcases List.mem_append.mp hs with hs | hs
  · exact readable_segments h s hs
  · rcases List.mem_cons.mp hs with rfl | hs
    · exact hk
    · obtain ⟨name, hname, rfl⟩ := List.mem_map.mp hs
      exact hbehind name hname

/-- Names without markers may stand behind the key. -/
theorem parse_keyed (hmarkers : KeyMarker.count dotted = 0)
    (hfew : ∀ name ∈ behind, KeyMarker.count name = 0) :
    parse (Segment.join (names.map .field ++ .key k :: behind.map .field)) = .ok
      { raw := Segment.join (names.map .field ++ .key k :: behind.map .field)
        body := Segment.join (names.map .field ++ .key k :: behind.map .field)
        segments := names.map .field ++ .key k :: behind.map .field
        tag := none } := by
  have hcount := h.count_keyed hmarkers hk (behind.map .field)
  rw [KeyMarker.countPieces_names.mpr hfew] at hcount
  have hread := h.readable_keyed hk hbehind
  have hne := List.append_ne_nil_of_right_ne_nil (names.map Segment.field)
    (List.cons_ne_nil (Segment.key k) (behind.map .field))
  exact parse_of_print hne hread (Nat.le_of_eq hcount) none

/-- A name with a marker behind the key is one marker too many. -/
theorem parse_crowded (hmarkers : KeyMarker.count dotted = 0)
    (hmany : ∃ name ∈ behind, KeyMarker.count name ≠ 0) :
    parse (Segment.join (names.map .field ++ .key k :: behind.map .field)) =
      .error (.manyKeys (Segment.join (names.map .field ++ .key k :: behind.map .field))
        (KeyMarker.count (Segment.join (names.map .field ++ .key k :: behind.map .field)))) := by
  have hread := h.readable_keyed hk hbehind
  have hne := List.append_ne_nil_of_right_ne_nil (names.map Segment.field)
    (List.cons_ne_nil (Segment.key k) (behind.map .field))
  have hcount := h.count_keyed hmarkers hk (behind.map .field)
  have hmore : KeyMarker.countPieces ((behind.map Segment.field).map Segment.chars) ≠ 0 := by
    intro hzero
    obtain ⟨name, hname, hmarker⟩ := hmany
    exact hmarker (KeyMarker.countPieces_names.mp hzero name hname)
  exact parse_of_markers (splitTag_eq (.join hread)) (Segment.join_ne_empty hne hread) (by omega)

end

end Path.IsDotted

/-! ## Following names behind a key -/

/-- The names that may follow a key. -/
def accessorNames : List (List String) := [[], ["key"], ["value"]]

theorem map_field_mem_accessors {names : List String} :
    names.map Segment.field ∈ accessors ↔ names ∈ accessorNames := by
  have hfields : Function.Injective (List.map Segment.field) :=
    List.map_injective_iff.mpr fun _ _ => Segment.field.inj
  exact List.mem_map_of_injective hfields (a := names) (l := accessorNames)

theorem isPlainName_of_accessorNames :
    ∀ names ∈ accessorNames, ∀ name ∈ names, IsPlainName name := by
  decide +kernel

/-- A key leads to something that has no tag. -/
theorem map_tag_underKey (p : Policy) (bag : Node) (k : Nat) :
    (underKey p bag k).map (fun r => { r with tag := none }) = underKey p bag k := by
  unfold underKey placeholder entryByKey
  split
  · cases bag.child? "0" with
    | some c => rfl
    | none => rfl
  · cases bag.child? (Decimal.text k) with
    | some c => rfl
    | none =>
        dsimp only
        split
        · rfl
        · rfl

section

variable {t : Tree} {p : Policy} {bag : Node} {dotted : String} {names behind : List String}
  {whole : Resolution} {k : Nat}

/-- Behind a bag, a key with names behind it is what its remainder is read as. -/
theorem Tree.Sound.follow_keyed (h : t.Sound) (hdotted : Path.IsDotted dotted names)
    (hmarkers : KeyMarker.count dotted = 0) (found : resolveFrom p t.rootNode dotted = .ok whole)
    (htarget : whole.target = .listed bag) (hholds : bag.shape.isBag = true ∨ bag.shape = .labelMap)
    (hk : k ≤ Decimal.maxKey) (hbehind : ∀ name ∈ behind, (Segment.field name).Readable)
    (hfew : ∀ name ∈ behind, KeyMarker.count name = 0) :
    follow p t.rootNode (Segment.join (names.map .field ++ .key k :: behind.map .field)) =
      if behind.map .field ∈ accessors then underKey p bag k
      else .error (badRemainder bag (.key k :: behind.map .field)) := by
  have hparse := hdotted.parse_keyed hk hbehind hmarkers hfew
  obtain ⟨others, q, name, rfl, hc, hrest⟩ :=
    hdotted.exists_descend_eq h (hdotted.isPlainName hmarkers) found htarget hholds
  have hread : ∀ s ∈ Segment.key k :: behind.map .field, s.Readable := fun s hs =>
    hdotted.readable_keyed hk hbehind s (List.mem_append_right _ hs)
  rw [follow, hparse]
  simp only [Except.bind, walk, List.map_cons, List.cons_append, if_true, hrest]
  split
  · next haccessor =>
      have hkey := (keyRemainder?_eq_some_iff hread).mpr ⟨_, haccessor, rfl⟩
      rw [descend_of_keyRemainder? hc hholds hkey]
      exact map_tag_underKey p bag k
  · next hother =>
      have hkey : keyRemainder? (.key k :: behind.map .field) = none := by
        refine Option.eq_none_iff_forall_ne_some.mpr fun j hj => hother ?_
        obtain ⟨accessor, haccessor, hsame⟩ := (keyRemainder?_eq_some_iff hread).mp hj
        rwa [(List.cons.inj hsame).2]
      rw [descend_of_keyRemainder?_eq_none hc hholds hkey]
      rfl

end

/-- Behind the key of an entry, an accessor makes no difference.  Any other names make the path
fail: it holds too many markers if one of the names holds one, and it has a remainder that cannot be
read otherwise. -/
theorem Tree.resolve_with_accessor {v : Vocabulary} {root : String} {m : Option Message} {t : Tree}
    (built : (build v root m).value = .ok t) (p : Policy) {dotted : String} {names : List String}
    (hdotted : Path.IsDotted dotted names) (hmarkers : KeyMarker.count dotted = 0)
    {whole : Resolution} {bag : Node} (found : resolveFrom p t.rootNode dotted = .ok whole)
    (htarget : whole.target = .listed bag) (hholds : bag.shape.isBag = true ∨ bag.shape = .labelMap)
    {k : Nat} (hk : k ≤ Decimal.maxKey) :
    (∀ accessor ∈ ["", ".key", ".value"],
      resolveFrom p t.rootNode (dotted ++ ".key:" ++ Decimal.text k ++ accessor) =
        (underKey p bag k).mapError
          (p.reported (dotted ++ ".key:" ++ Decimal.text k ++ accessor))) ∧
    ∀ behind : List String, behind ≠ [] → behind ≠ ["key"] → behind ≠ ["value"] →
      (∀ name ∈ behind, name ≠ "" ∧ '.' ∉ name.toList ∧ ':' ∉ name.toList) →
      ∀ path, path = dotted ++ ".key:" ++ Decimal.text k ++ Segment.tail (behind.map .field) →
        ((∃ name ∈ behind, KeyMarker.count name ≠ 0) →
          resolveFrom p t.rootNode path =
            .error (p.reported path (.manyKeys path (KeyMarker.count path)))) ∧
        ((∀ name ∈ behind, KeyMarker.count name = 0) →
          resolveFrom p t.rootNode path =
            .error (p.reported path (badRemainder bag (.key k :: behind.map .field)))) := by
  have h := sound_of_build built
  have hfollow : ∀ behind : List String, (∀ name ∈ behind, (Segment.field name).Readable) →
      (∀ name ∈ behind, KeyMarker.count name = 0) →
      follow p t.rootNode
        (dotted ++ ".key:" ++ Decimal.text k ++ Segment.tail (behind.map .field)) =
          if behind.map .field ∈ accessors then underKey p bag k
          else .error (badRemainder bag (.key k :: behind.map .field)) := by
    intro behind hbehind hfew
    rw [hdotted.keyed_eq_join]
    exact h.follow_keyed hdotted hmarkers found htarget hholds hk hbehind hfew
  constructor
  · intro accessor haccessor
    obtain ⟨behind, hmem, rfl⟩ : ∃ behind ∈ accessorNames,
        Segment.tail (behind.map .field) = accessor := by
      simp only [List.mem_cons, List.not_mem_nil, or_false] at haccessor
      rcases haccessor with rfl | rfl | rfl
      · exact ⟨[], by decide, rfl⟩
      · exact ⟨["key"], by decide, Segment.tail_field "key"⟩
      · exact ⟨["value"], by decide, Segment.tail_field "value"⟩
    have hplain := isPlainName_of_accessorNames behind hmem
    have hbehind : ∀ name ∈ behind, (Segment.field name).Readable := fun name hname =>
      Segment.Printable.readable (s := .field name) (hplain name hname)
    have hfew : ∀ name ∈ behind, KeyMarker.count name = 0 := fun name hname =>
      (hplain name hname).no_marker
    rw [resolveFrom_eq, hfollow behind hbehind hfew, if_pos (map_field_mem_accessors.mpr hmem)]
  · intro behind hne hkey hvalue hbehind path hpath
    constructor
    · intro hmany
      rw [resolveFrom_eq, follow, hpath, hdotted.keyed_eq_join,
        hdotted.parse_crowded hk hbehind hmarkers hmany]
      rfl
    · intro hfew
      have hother : behind.map Segment.field ∉ accessors := by
        intro hmem
        have hnames := map_field_mem_accessors.mp hmem
        simp only [accessorNames, List.mem_cons, List.not_mem_nil, or_false] at hnames
        rcases hnames with hnil | hword | hword
        · exact hne hnil
        · exact hkey hword
        · exact hvalue hword
      rw [resolveFrom_eq, hpath, hfollow behind hbehind hfew, if_neg hother]
      rfl

/-- An entry with an accessor, with a name that is almost one, and with one that holds a marker. -/
theorem Tree.resolve_with_accessor_value :
    (∃ r, resolveFrom {} sampleShelfTree.rootNode "log.attrs.key:2" = .ok r ∧
      resolveFrom {} sampleShelfTree.rootNode "log.attrs.key:2.value" = .ok r) ∧
    resolveFrom {} sampleShelfTree.rootNode "log.attrs.key:2.values" =
      .error (.badBagRemainder "attrs" "key:2.values") ∧
    resolveFrom {} sampleShelfTree.rootNode "log.attrs.key:2.key_7" =
      .error (.manyKeys "log.attrs.key:2.key_7" 2) := by
  have hdescent : Descent {} sampleShelfTree.rootNode [.field "attrs"] _ := .bagWhole rfl rfl
  have found := resolveFrom_eq_ok_iff.mpr ⟨_, isDotted_sampleShelf, _, rfl, _, hdescent, rfl⟩
  have hkey : 2 ≤ Decimal.maxKey := by decide
  obtain ⟨haccessor, hother⟩ := resolve_with_accessor build_sampleShelf {} isDotted_sampleShelf
    (by decide +kernel) found rfl (Or.inl rfl) hkey
  refine ⟨⟨_, haccessor "" (by decide), haccessor ".value" (by decide)⟩, ?_, ?_⟩
  · have hvalues := (hother ["values"] (by decide) (by decide) (by decide) (by decide +kernel)
      "log.attrs.key:2.values" (by decide +kernel)).2 (by decide +kernel)
    rw [hvalues]
    exact congrArg Except.error (by decide +kernel)
  · have hmarker := (hother ["key_7"] (by decide) (by decide) (by decide) (by decide +kernel)
      "log.attrs.key:2.key_7" (by decide +kernel)).1 (by decide +kernel)
    rw [hmarker]
    exact congrArg Except.error (by decide +kernel)

end FieldAtlas
