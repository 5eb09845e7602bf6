import FieldAtlas.Description.Validation
import FieldAtlas.Proofs.Resolution.Synthesis
import FieldAtlas.Proofs.Tree.Names
import FieldAtlas.Proofs.Tree.Representation

/-!
# `CanonicalPath` — when a canonical path leads back

What a path resolves to may have a canonical path, and that need not resolve to the same.  Two
things are in the way.  Its one key is written wherever a key is asked for, and a path with two
keys is not read.  And a member of a listing bag is written by its number, which may be negative,
may belong to another member, or to none.

`Tree.resolve_canonical_iff` says that nothing else is.  The path is the print of the segments of
the node, so if it is read, it is read as these; and they lead back to the node with the keys with
which it was found, because those are just the keys that its line asks for.
-/

namespace FieldAtlas

/-! ## Down again -/

/-- A listed member of a listing bag is the one that its number leads to. -/
def Tree.NumberLeadsBack (t : Tree) : Target → Prop
  | .listed n => ∀ q, t.parent? n = some q → q.shape = .listBag →
      0 ≤ n.entry.ordinal ∧ q.child? (Decimal.text n.entry.ordinal) = some n
  | .synthesized _ _ => True

/-- The key with which a node is rendered is `k`, or there is none and the node asks for none. -/
def Place.HasKey (n : Node) (key : Option Nat) (k : Nat) : Prop :=
  key = some k ∨ key = none ∧ n.site.requiresKey = false

namespace Tree.Sound

variable {t : Tree} {p : Policy} {q c n : Node} {k : Nat}

/-- What a bag or a label map holds is in a record exactly if the node above the holder is. -/
theorem member_below (h : t.Sound) (hq : q ∈ t.nodes) (hc : c ∈ q.below) (hn : n ∈ c.below)
    (hcshape : c.shape.isBag = true ∨ c.shape = .labelMap) :
    n.shape = .enumMarker ∧ n.site.inRecords = q.site.inRecords := by
  have hmarker := (h.wellFormed c (mem_nodes_of_mem_below hq hc)).members hcshape n hn
  have hcrecords : (c.shape == .keyedRecords) = false :=
    beq_eq_false_iff_ne.mpr (Shape.ne_of_holds hcshape).2.2
  refine ⟨hmarker, ?_⟩
  rw [Place.inRecords_of_mem_below hn, Place.inRecords_of_mem_below hc, hmarker, hcrecords]
  rfl

/-- A member in place of which a key is written has the key of its record before that. -/
theorem two_le_keys (h : t.Sound) (hc : c ∈ t.nodes) (hn : n ∈ c.below)
    (hmarker : n.shape = .enumMarker) (hexternal : c.shape.takesExternalKey = true)
    (hin : n.site.inRecords = true) : 2 ≤ (n.site.segments k).countP (·.key?.isSome) := by
  rw [Place.inRecords_of_mem_below hn, hmarker] at hin
  have habove := h.one_le_keys k c hc hin
  have hnentry : n.entry.shape = .enumMarker := hmarker
  have hcentry : c.entry.shape.takesExternalKey = true := hexternal
  have hlast : Site.lastSegments k c.entry n.entry = [.key k] := by
    simp [Site.lastSegments, hnentry, hcentry]
  rw [Place.segments_of_mem_below hn, hlast, List.countP_append]
  have hone : [Segment.key k].countP (·.key?.isSome) = 1 := rfl
  omega

/-- A member of a listing bag is found, if its number leads back. -/
theorem finds_by_number (h : t.Sound) (hk : k ≤ Decimal.maxKey) (hq : q ∈ t.nodes)
    (hc : c ∈ q.below) (hlist : c.shape = .listBag) (hn : n ∈ c.below)
    (hnumber : t.NumberLeadsBack (.listed n)) :
    t.Finds p k n none ∧ n.site.inRecords = q.site.inRecords := by
  have hbag : c.shape.isBag = true := by rw [hlist]; rfl
  have hcmem := mem_nodes_of_mem_below hq hc
  obtain ⟨hmarker, hin⟩ := h.member_below hq hc hn (Or.inl hbag)
  have hfinds := h.finds_of_member (p := p) hk hcmem hn (Or.inl hbag) hmarker
    (fun _ => hnumber c (h.parent?_of_mem_below hcmem hn) hlist)
    (by simp [hlist, Shape.takesExternalKey])
  rw [hlist] at hfinds
  exact ⟨hfinds, hin⟩

/-- The placeholder is found, and the key given for it is the key of the path. -/
theorem finds_placeholder (h : t.Sound) (hk : k ≤ Decimal.maxKey) (hq : q ∈ t.nodes)
    (hc : c ∈ q.below) (hexternal : c.shape.takesExternalKey = true) (hn : c.child? "0" = some n) :
    t.Finds p k n (some k) ∧ n.site.inRecords = q.site.inRecords := by
  have hcshape := Shape.holds_of_takesExternalKey hexternal
  have hbelow := (Place.mem_below_of_child? hn).1
  obtain ⟨hmarker, hin⟩ := h.member_below hq hc hbelow hcshape
  have hfinds := h.finds_of_member (p := p) hk (mem_nodes_of_mem_below hq hc) hbelow hcshape hmarker
    (fun hlist => by simp [hlist, Shape.takesExternalKey] at hexternal) fun _ => hn
  rw [if_pos hexternal] at hfinds
  exact ⟨hfinds, hin⟩

end Tree.Sound

section

variable {t : Tree} {p : Policy} {last n bag : Node} {k : Nat} {ending rest : List Segment}
  {found r : Resolution} {text : String}

/-- What a chain arrives at, the segments of its node lead to again, with the same keys.  `opened`
is the key of the steps before the arrival. -/
theorem Arrival.finds (h : t.Sound) (hlast : last ∈ t.nodes)
    (hshape : last.shape = .plain ∨ last.shape = .keyedRecords)
    (harrival : Arrival p last ending found) (htarget : found.target = .listed n)
    {opened : Option Nat} (hin : last.site.inRecords = opened.isSome)
    (honce : ∀ {j}, Segment.key j ∈ ending → opened = none) (hk : k ≤ Decimal.maxKey)
    (hkey : n.HasKey (opened <|> found.labelKey) k)
    (hkeys : (n.site.segments k).countP (·.key?.isSome) ≤ 1)
    (hnumber : t.NumberLeadsBack (.listed n)) :
    t.Finds p k n found.labelKey ∧ opened = if n.site.inRecords then some k else none := by
  have hsame : n.site.inRecords = last.site.inRecords →
      opened = if n.site.inRecords then some k else none := by
    intro heq
    rw [heq, hin]
    cases opened with
    | none => rfl
    | some j =>
        rcases hkey with hkey | ⟨hkey, -⟩
        · exact hkey
        · cases hkey
  cases harrival with
  | here =>
      cases htarget
      exact ⟨h.finds_of_last hlast hshape (List.append_nil _).symm rfl .here, hsame rfl⟩
  | marker hc hmarker =>
      cases htarget
      have hn := (Place.mem_below_of_child? hc).1
      have hnin := (Tree.Sound.segments_eq_of_walked (k := k) hn hshape (by simp [hmarker])).2
      exact ⟨h.finds_of_walked hlast hn hshape, hsame hnin⟩
  | whole hc _ =>
      cases htarget
      have hn := (Place.mem_below_of_child? hc).1
      refine ⟨h.finds_of_walked hlast hn hshape, ?_⟩
      by_cases hrecords : n.shape = .keyedRecords
      · -- A collection has a path only if a key has opened a record above it.
        rcases hkey with hkey | ⟨-, hnone⟩
        · rw [Place.inRecords_of_mem_below hn, hrecords]
          simpa using hkey
        · rw [Place.requiresKey_of_records hn hrecords] at hnone
          cases hnone
      · exact hsame (Tree.Sound.segments_eq_of_walked (k := k) hn hshape hrecords).2
  | @byName c _ _ _ hc hbag _ hm =>
      cases htarget
      have hcbelow := (Place.mem_below_of_child? hc).1
      have hn := (Place.mem_below_of_child? hm).1
      cases hcshape : c.shape with
      | plain | enumMarker | keyedRecords | labelMap => simp [hcshape, Shape.isBag] at hbag
      | listBag =>
          obtain ⟨hfinds, hnin⟩ := h.finds_by_number (p := p) hk hlast hcbelow hcshape hn hnumber
          exact ⟨hfinds, hsame hnin⟩
      | mapBag =>
          -- What is called by name here has no key, or that of its record a second time.
          have hcmem := Tree.mem_nodes_of_mem_below hlast hcbelow
          have hexternal : c.shape.takesExternalKey = true := by rw [hcshape]; rfl
          obtain ⟨hmarker, hnin⟩ := h.member_below hlast hcbelow hn (Or.inl hbag)
          rcases hkey with hkey | ⟨-, hnone⟩
          · have hopened : opened = some k := by simpa using hkey
            rw [hin, hopened] at hnin
            have htwo := h.two_le_keys (k := k) hcmem hn hmarker hexternal hnin
            omega
          · rw [Place.requiresKey_of_external hn hmarker hexternal] at hnone
            cases hnone
  | byNumber hc hlist _ hm =>
      cases htarget
      obtain ⟨hfinds, hnin⟩ := h.finds_by_number (p := p) hk hlast (Place.mem_below_of_child? hc).1
        hlist (Place.mem_below_of_child? hm).1 hnumber
      exact ⟨hfinds, hsame hnin⟩
  | madeUp => cases htarget
  | @placeholder _ _ _ j _ hc hexternal _ hm =>
      cases htarget
      obtain rfl := honce (List.mem_cons_of_mem _ List.mem_cons_self)
      have hj : j = k := by
        rcases hkey with hkey | ⟨hkey, -⟩
        · exact Option.some.inj hkey
        · cases hkey
      obtain ⟨hfinds, hnin⟩ := h.finds_placeholder (p := p) hk hlast
        (Place.mem_below_of_child? hc).1 hexternal hm
      exact ⟨hj ▸ hfinds, hsame hnin⟩

/-- The text is the print of segments that lead from the root to the same, with the same keys. -/
def Tree.LeadsBack (t : Tree) (p : Policy) (text : String) (r : Resolution) : Prop :=
  ∃ way found, text = Segment.join (.field t.rootNode.name :: way) ∧
    (∀ s ∈ Segment.field t.rootNode.name :: way, s.Printable) ∧ Descent p t.rootNode way found ∧
      found.target = r.target ∧ found.collectionKey = r.collectionKey ∧ found.labelKey = r.labelKey

/-- Such a text resolves if it is read, and it is read if it holds one key at most. -/
theorem Tree.LeadsBack.exists_resolution (h : t.LeadsBack p text r)
    (hcount : KeyMarker.count text ≤ 1) :
    ∃ r', resolveFrom p t.rootNode text = .ok r' ∧ r'.target = r.target ∧
      r'.collectionKey = r.collectionKey ∧ r'.labelKey = r.labelKey := by
  obtain ⟨way, found, rfl, hprint, hdescent, htarget, hcollection, hlabel⟩ := h
  rw [Segment.count_join hprint] at hcount
  have hparse := Path.parse_join (List.cons_ne_nil _ _) hprint hcount
  exact ⟨_, resolveFrom_eq_ok_iff.mpr ⟨_, hparse, way, rfl, _, hdescent, rfl⟩, htarget, hcollection,
    hlabel⟩

/-- An entry that was made up is made up again. -/
theorem SpellsChain.leadsBack_synthesized (h : t.Sound)
    (hplain : ∀ n ∈ t.nodes, IsPlainName n.name) (hspells : SpellsChain p t.rootNode rest r)
    (hread : ∀ s ∈ rest, s.Readable) (hrest : rest.countP (·.key?.isSome) ≤ 1)
    (htarget : r.target = .synthesized bag k)
    (hrender : r.target.site.render .dotted (r.key.map Int.ofNat) = .ok text) :
    t.LeadsBack p text r := by
  obtain ⟨rfl, hbag, hlist, hin, -, way, accessor, rfl, hway, hdescent⟩ :=
    hspells.synthesized h hread hrest htarget
  have hk : k ≤ Decimal.maxKey := hread (.key k) (by simp)
  have hprint := h.printable_segments (Nat.zero_le _) bag hbag (Tree.forall_line hplain bag hbag)
  have hspelt : Segment.field t.rootNode.name :: (way ++ [.key k]) =
      bag.site.segments 0 ++ [.key k] := by
    rw [hway]
    rfl
  have hpath := Place.render_siteOfKey hlist (h.render_listBag hbag hlist hin) k
  rw [← Segment.join_concat_key (bag.site.segments_ne_nil 0)] at hpath
  refine ⟨_, _, ?_, ?_, hdescent, rfl, rfl, rfl⟩
  · rw [hspelt]
    exact Except.ok.inj (hrender.symm.trans hpath)
  · rw [hspelt]
    intro s hs
    rcases List.mem_append.mp hs with hs | hs
    · exact hprint s hs
    · rw [List.mem_singleton.mp hs]
      exact hk

/-- Rendering takes the key of the result, or none if the node asks for none. -/
theorem SpellsChain.exists_key (h : t.Sound) (hspells : SpellsChain p t.rootNode rest r)
    (hread : ∀ s ∈ rest, s.Readable) (hn : n ∈ t.nodes)
    (hrender : n.site.render .dotted (r.key.map Int.ofNat) = .ok text) :
    ∃ k ≤ Decimal.maxKey, n.HasKey r.key k := by
  cases hkey : r.key with
  | some k => exact ⟨k, hread _ (hspells.key_mem hkey), Or.inl rfl⟩
  | none =>
      rw [hkey] at hrender
      exact ⟨0, Nat.zero_le _, Or.inr ⟨rfl, h.requiresKey_of_render n hn hrender⟩⟩

/-- The path of a node is the print of its segments, unless it is a member with a negative
number. -/
theorem Tree.Sound.eq_join_of_render (h : t.Sound) (hn : n ∈ t.nodes)
    (hkey : n.HasKey r.key k)
    (hordinal : ∀ q ∈ t.nodes, n ∈ q.below → n.shape = .enumMarker → q.shape = .listBag →
      0 ≤ n.entry.ordinal)
    (hrender : n.site.render .dotted (r.key.map Int.ofNat) = .ok text) :
    text = Segment.join (n.site.segments k) := by
  have hnat : r.key.map Int.ofNat = some (k : Int) ∨ n.site.requiresKey = false := by
    rcases hkey with hkey | ⟨-, hnone⟩
    · rw [hkey]
      exact Or.inl rfl
    · exact Or.inr hnone
  exact Except.ok.inj (hrender.symm.trans (h.render_eq_join n hn hnat hordinal))

/-- What is found is found again, if its number leads back and its path holds one key at most. -/
theorem SpellsChain.leadsBack_listed (h : t.Sound) (hplain : ∀ n ∈ t.nodes, IsPlainName n.name)
    (hspells : SpellsChain p t.rootNode rest r) (hread : ∀ s ∈ rest, s.Readable)
    (hrest : rest.countP (·.key?.isSome) ≤ 1) (hn : n ∈ t.nodes) (htarget : r.target = .listed n)
    (hrender : n.site.render .dotted (r.key.map Int.ofNat) = .ok text)
    (hnumber : t.NumberLeadsBack (.listed n)) (hcount : KeyMarker.count text ≤ 1) :
    t.LeadsBack p text r := by
  obtain ⟨k, hk, hkey⟩ := hspells.exists_key h hread hn hrender
  obtain rfl := h.eq_join_of_render hn hkey
    (fun q hq hbelow _ hlist => (hnumber q (h.parent?_of_mem_below hq hbelow) hlist).1) hrender
  have hprint := h.printable_segments hk n hn (Tree.forall_line hplain n hn)
  rw [Segment.count_join hprint] at hcount
  obtain ⟨steps, last, ending, found, rfl, hchain, harrival, rfl⟩ := hspells
  have hcollection := Resolution.collectionKey_behind steps harrival.collectionKey_eq_none
  rw [Resolution.target_behind] at htarget
  rw [Resolution.key, hcollection, Resolution.labelKey_behind] at hkey
  have hin := hchain.inRecords_last
  rw [h.inRecords_rootNode, Bool.false_or] at hin
  obtain ⟨⟨way, kind, hsegments, hdescent⟩, hopened⟩ := harrival.finds h
    (hchain.last_mem_nodes t.rootNode_mem_nodes) (hchain.shape_last (Or.inl h.root_plain)) htarget
    hin (Step.no_key_of_mem hrest) hk hkey hcount hnumber
  refine ⟨way, _, by rw [hsegments], hsegments ▸ hprint, hdescent, ?_, ?_, ?_⟩
  · rw [Resolution.target_behind, htarget]
  · rw [hcollection, hopened]
  · rw [Resolution.labelKey_behind]

/-! ## What it takes -/

/-- The print of segments resolves only if it holds one key marker at most. -/
theorem count_le_one_of_resolveFrom {segments : List Segment} (hne : segments ≠ [])
    (hprint : ∀ s ∈ segments, s.Printable)
    (hfound : resolveFrom p n (Segment.join segments) = .ok r) :
    KeyMarker.count (Segment.join segments) ≤ 1 := by
  obtain ⟨path, hparse, -⟩ := resolveFrom_eq_ok_iff.mp hfound
  exact (Path.segments_of_parse_join hne hprint hparse).2

/-- Where a path to a listed member ends in a number, this is the number that leads to it. -/
theorem Arrival.child?_of_last_key (h : t.Sound) (hlast : last ∈ t.nodes)
    (hshape : last.shape = .plain ∨ last.shape = .keyedRecords)
    (harrival : Arrival p last ending found) (htarget : found.target = .listed n) {q : Node}
    (hq : t.parent? n = some q) (hlist : q.shape = .listBag) (hmarker : n.shape = .enumMarker)
    {front : List Segment} (hend : (front ++ ending).getLast? = some (.key k)) :
    q.child? (Decimal.text k) = some n := by
  cases harrival with
  | here =>
      cases htarget
      rcases hshape with hshape | hshape <;> rw [hmarker] at hshape <;> cases hshape
  | whole => simp at hend
  | byName => simp at hend
  | madeUp => cases htarget
  | marker hc _ =>
      cases htarget
      rw [h.parent?_of_mem_below hlast (Place.mem_below_of_child? hc).1] at hq
      cases hq
      rcases hshape with hshape | hshape <;> rw [hlist] at hshape <;> cases hshape
  | placeholder hc hexternal _ hm =>
      cases htarget
      have hcmem := Tree.mem_nodes_of_child? hlast hc
      rw [h.parent?_of_mem_below hcmem (Place.mem_below_of_child? hm).1] at hq
      cases hq
      rw [hlist] at hexternal
      cases hexternal
  | byNumber hc _ haccessor hm =>
      cases htarget
      have hcmem := Tree.mem_nodes_of_child? hlast hc
      rw [h.parent?_of_mem_below hcmem (Place.mem_below_of_child? hm).1] at hq
      cases hq
      simp only [accessors, List.mem_cons, List.not_mem_nil, or_false] at haccessor
      rcases haccessor with rfl | rfl | rfl
      · obtain rfl : _ = k := by simpa using hend
        exact hm
      · simp at hend
      · simp at hend

/-- The path of a member with a negative number is not read. -/
theorem Place.ordinal_nonneg_of_parse {q : Node} (hn : n ∈ q.below) (hlist : q.shape = .listBag)
    (hmarker : n.shape = .enumMarker) {key : Option Int}
    (hrender : n.site.render .dotted key = .ok text) {path : Path}
    (hparse : Path.parse text = .ok path) : 0 ≤ n.entry.ordinal := by
  by_contra hneg
  obtain ⟨m, hm⟩ := Int.eq_negSucc_of_lt_zero (Int.not_le.mp hneg)
  rw [Place.site_of_mem_below hn] at hrender
  obtain ⟨start, last, -, hlast, rfl⟩ := Place.render_eq_ok hrender
  rw [Site.ending_member hlist hmarker, hm] at hlast
  have hraw : (start ++ last).toList =
      (start.toList ++ ['.', 'k', 'e', 'y']) ++ ':' :: '-' :: Decimal.digits (m + 1) := by
    rw [← Except.ok.inj hlast]
    simp [Decimal.text, Decimal.chars]
  refine Path.parse_ne_ok_of_minus hraw (fun hcolon => ?_) hparse
  exact absurd (Decimal.isDigit_of_mem_digits hcolon) (by decide)

/-- If the path of a listed member leads to it, then by its number. -/
theorem Tree.Sound.numberLeadsBack (h : t.Sound) (hplain : ∀ n ∈ t.nodes, IsPlainName n.name)
    (hn : n ∈ t.nodes) (hk : k ≤ Decimal.maxKey)
    (hkey : n.HasKey r.key k)
    (hrender : n.site.render .dotted (r.key.map Int.ofNat) = .ok text)
    (hfound : resolveFrom p t.rootNode text = .ok found) (htarget : found.target = .listed n) :
    t.NumberLeadsBack (.listed n) := by
  intro q hparent hlist
  obtain ⟨path, hparse, rest, hsegments, inner, hdescent, rfl⟩ := resolveFrom_eq_ok_iff.mp hfound
  obtain ⟨hq, hbelow⟩ := h.mem_below_of_parent? hn hparent
  have hmarker : n.shape = .enumMarker :=
    (h.wellFormed q hq).members (Or.inl (by rw [hlist]; rfl)) n hbelow
  have hordinal := Place.ordinal_nonneg_of_parse hbelow hlist hmarker hrender hparse
  refine ⟨hordinal, ?_⟩
  obtain rfl := h.eq_join_of_render hn hkey (fun _ _ _ _ _ => hordinal) hrender
  have hprint := h.printable_segments hk n hn (Tree.forall_line hplain n hn)
  have hread := (Path.segments_of_parse_join (n.site.segments_ne_nil k) hprint hparse).1
  have hlast : Site.lastSegments k q.entry n.entry = [.key n.entry.ordinal.toNat] := by
    have hnentry : n.entry.shape = .enumMarker := hmarker
    have hqentry : q.entry.shape = .listBag := hlist
    simp [Site.lastSegments, hnentry, hqentry, Shape.takesExternalKey, Shape.isBag]
  rw [hsegments, Place.segments_of_mem_below hbelow, hlast] at hread
  obtain ⟨steps, last, ending, inner, rfl, hchain, harrival, rfl⟩ :=
    (descent_iff_of_parse hparse hsegments).mp hdescent
  have hend : ((.field t.rootNode.name :: steps.flatMap Step.segments) ++ ending).getLast? =
      some (.key n.entry.ordinal.toNat) := by
    rw [List.cons_append, hread]
    exact List.getLast?_concat
  have hnat : ((n.entry.ordinal.toNat : Nat) : Int) = n.entry.ordinal :=
    Int.toNat_of_nonneg hordinal
  rw [← hnat]
  exact harrival.child?_of_last_key h (hchain.last_mem_nodes t.rootNode_mem_nodes)
    (hchain.shape_last (Or.inl h.root_plain))
    ((Resolution.target_behind _ _).symm.trans htarget) hparent hlist hmarker hend

end

/-- The canonical path of a result leads back to it, with the same keys, exactly if it holds one
key marker at most and, for a listed member of a listing bag, its number leads back. -/
theorem Tree.resolve_canonical_iff {v : Vocabulary} {root : String} {type : Message} {t : Tree}
    (built : (build v root (some type)).value = .ok t)
    (hnames : ∀ name ∈ root :: messageNames type,
      isIdentifier name = true ∧ KeyMarker.count name = 0)
    {p : Policy} {raw : String} {r : Resolution} (found : resolveFrom p t.rootNode raw = .ok r)
    {text : String} (hpath : (r.path .dotted).value = .ok text) :
    (∃ r', resolveFrom p t.rootNode text = .ok r' ∧ r'.target = r.target ∧
        r'.collectionKey = r.collectionKey ∧ r'.labelKey = r.labelKey) ↔
      KeyMarker.count text ≤ 1 ∧ t.NumberLeadsBack r.target := by
  have h := sound_of_build built
  have hplain : ∀ n ∈ t.nodes, IsPlainName n.name := forall_names built fun name hname =>
    .of_isIdentifier (hnames name hname).1 (hnames name hname).2
  obtain ⟨path, hparse, rest, hsegments, inner, hdescent, rfl⟩ := resolveFrom_eq_ok_iff.mp found
  have hspells := (descent_iff_of_parse hparse hsegments).mp hdescent
  obtain ⟨hread, hkeys⟩ := Path.rest_of_parse hparse hsegments
  rw [Resolution.path, Site.value_path] at hpath
  cases htarget : inner.target with
  | synthesized bag k =>
      have hleads := hspells.leadsBack_synthesized h hplain hread hkeys htarget hpath
      constructor
      · rintro ⟨r', hfound, -⟩
        obtain ⟨way, _, rfl, hprint, -⟩ := hleads
        exact ⟨count_le_one_of_resolveFrom (List.cons_ne_nil _ _) hprint hfound, trivial⟩
      · rintro ⟨hcount, -⟩
        exact htarget ▸ hleads.exists_resolution hcount
  | listed n =>
      have hn : n ∈ t.nodes := by
        have hhome := hdescent.home_mem_nodes t.rootNode_mem_nodes
        rw [htarget] at hhome
        exact hhome
      rw [htarget] at hpath
      obtain ⟨k, hk, hkey⟩ := hspells.exists_key h hread hn hpath
      constructor
      · rintro ⟨r', hfound, hsame, -⟩
        have hnumber := h.numberLeadsBack hplain hn hk hkey hpath hfound hsame
        obtain rfl := h.eq_join_of_render hn hkey (fun q hq hbelow _ hlist =>
          (hnumber q (h.parent?_of_mem_below hq hbelow) hlist).1) hpath
        have hprint := h.printable_segments hk n hn (forall_line hplain n hn)
        exact ⟨count_le_one_of_resolveFrom (n.site.segments_ne_nil k) hprint hfound, hnumber⟩
      · rintro ⟨hcount, hnumber⟩
        have hleads := hspells.leadsBack_listed h hplain hread hkeys hn htarget hpath hnumber hcount
        exact htarget ▸ hleads.exists_resolution hcount

/-! ## A small archive

Two members of its bag share a number, and one has a negative number.  The bag stands at the top and
within a record. -/

def sampleMixedBag : Message :=
  { sampleBag with
    enums := [⟨"NameOne", [⟨"FIRST", 1, none⟩, ⟨"ALSO", 1, none⟩, ⟨"LAST", -1, none⟩]⟩] }

def sampleArchive : Message where
  name := "Archive"
  fields := [
    { name := "attrs", number := 1, type := .message sampleMixedBag },
    { name := "history", number := 2,
      type := .map .int64 (.message { sampleHistory with
        fields := [{ name := "attrs", number := 1, type := .message sampleMixedBag }] }) }]

def sampleArchiveTree : Tree := .ofEntries (Tree.rootBranch {} "log" sampleArchive).value

theorem build_sampleArchive :
    (Tree.build {} "log" (some sampleArchive)).value = .ok sampleArchiveTree := rfl

theorem names_sampleArchive : ∀ name ∈ "log" :: messageNames sampleArchive,
    isIdentifier name = true ∧ KeyMarker.count name = 0 := by
  decide +kernel

/-- The first member is called by its name, and its path leads back to it. -/
theorem Tree.resolve_canonical_first :
    ∃ r, resolveFrom {} sampleArchiveTree.rootNode "log.attrs.FIRST" = .ok r ∧
      (r.path .dotted).value = .ok "log.attrs.key:1" ∧
      ∃ r', resolveFrom {} sampleArchiveTree.rootNode "log.attrs.key:1" = .ok r' ∧
        r'.target = r.target ∧ r'.collectionKey = r.collectionKey ∧ r'.labelKey = r.labelKey := by
  have hparse : Path.parse "log.attrs.FIRST" = .ok ⟨"log.attrs.FIRST", "log.attrs.FIRST",
      [.field "log", .field "attrs", .field "FIRST"], none⟩ := by
    decide +kernel
  have hdescent : Descent {} sampleArchiveTree.rootNode [.field "attrs", .field "FIRST"] _ :=
    .bagName rfl rfl (by decide +kernel) rfl
  have found := resolveFrom_eq_ok_iff.mpr ⟨_, hparse, _, rfl, _, hdescent, rfl⟩
  refine ⟨_, found, rfl, ?_⟩
  refine (resolve_canonical_iff build_sampleArchive names_sampleArchive found rfl).mpr ⟨?_, ?_⟩
  · decide +kernel
  · intro q hq _
    cases hq
    exact ⟨by decide, rfl⟩

/-- Neither condition can be left out: the path of a member may lead to one with the same number,
a negative number is not read, and neither are two keys. -/
theorem Tree.resolve_canonical_fails :
    validate sampleArchive = .ok () ∧
    (∀ name ∈ "log" :: messageNames sampleArchive,
      isIdentifier name = true ∧ KeyMarker.count name = 0) ∧
    (build {} "log" (some sampleArchive)).value = .ok sampleArchiveTree ∧
    (∃ r r', resolveFrom {} sampleArchiveTree.rootNode "log.attrs.ALSO" = .ok r ∧
      (r.path .dotted).value = .ok "log.attrs.key:1" ∧
      resolveFrom {} sampleArchiveTree.rootNode "log.attrs.key:1" = .ok r' ∧
      r.target.id? = some 3 ∧ r'.target.id? = some 2) ∧
    (∃ r, resolveFrom {} sampleArchiveTree.rootNode "log.attrs.LAST" = .ok r ∧
      (r.path .dotted).value = .ok "log.attrs.key:-1" ∧
      ∀ r', resolveFrom {} sampleArchiveTree.rootNode "log.attrs.key:-1" ≠ .ok r') ∧
    ∃ r, resolveFrom {} sampleArchiveTree.rootNode "log.history.key:7.attrs.FIRST" = .ok r ∧
      (r.path .dotted).value = .ok "log.history.key:7.attrs.key:1" ∧
      ∀ r', resolveFrom {} sampleArchiveTree.rootNode "log.history.key:7.attrs.key:1" ≠ .ok r' := by
  have hresolve : ∀ (raw : String) (rest : List Segment) {r : Resolution},
      Path.parse raw = .ok ⟨raw, raw, .field "log" :: rest, none⟩ →
      Descent {} sampleArchiveTree.rootNode rest r →
      resolveFrom {} sampleArchiveTree.rootNode raw = .ok { r with tag := none } :=
    fun _ _ _ hparse hdescent => resolveFrom_eq_ok_iff.mpr ⟨_, hparse, _, rfl, _, hdescent, rfl⟩
  have hrefuse : ∀ {raw : String} {failure : Failure}, Path.parse raw = .error failure →
      ∀ r', resolveFrom {} sampleArchiveTree.rootNode raw ≠ .ok r' := by
    intro raw failure hparse r' hfound
    obtain ⟨path, hread, -⟩ := resolveFrom_eq_ok_iff.mp hfound
    rw [hparse] at hread
    cases hread
  have halso := hresolve "log.attrs.ALSO" [.field "attrs", .field "ALSO"]
    (by decide +kernel) (.bagName rfl rfl (by decide +kernel) rfl)
  have hone := hresolve "log.attrs.key:1" [.field "attrs", .key 1]
    (by decide +kernel) (.bagNumber rfl rfl (keyRemainder?_key (k := 1) (by decide)) rfl)
  have hlast := hresolve "log.attrs.LAST" [.field "attrs", .field "LAST"]
    (by decide +kernel) (.bagName rfl rfl (by decide +kernel) rfl)
  have hinner := hresolve "log.history.key:7.attrs.FIRST"
    [.field "history", .key 7, .field "attrs", .field "FIRST"]
    (by decide +kernel) (.record rfl rfl (.bagName rfl rfl (by decide +kernel) rfl))
  have hminus : Path.parse "log.attrs.key:-1" = .error (.malformed "log.attrs.key:-1" ":-1") := by
    decide +kernel
  have htwo : Path.parse "log.history.key:7.attrs.key:1" =
      .error (.manyKeys "log.history.key:7.attrs.key:1" 2) := by
    decide +kernel
  exact ⟨rfl, names_sampleArchive, build_sampleArchive, ⟨_, _, halso, rfl, hone, rfl, rfl⟩,
    ⟨_, hlast, rfl, hrefuse hminus⟩, _, hinner, rfl, hrefuse htwo⟩

end FieldAtlas
