import FieldAtlas.Proofs.Resolution.BagPath
import FieldAtlas.Proofs.Tree.Members

/-!
# `DualIndex` — a member by name and by number

A member of a listing bag can be reached by its name and by its number.  Both paths begin with the
path of the bag, which is a chain that arrives at the bag as a whole
(`SpellsChain.of_listBag`); from there on only the arrival differs.

`Tree.resolve_member` says that both paths resolve to the same, and that the path with the number
is the canonical one.  It asks that the keys of the members are told apart
(`UnambiguousMembers`), since a key that two of them want goes to the first; and that the name is
one that a path can spell.
-/

namespace FieldAtlas

/-! ## On from a bag -/

/-- Where names lead to a listing bag, they walk to it, and whatever may follow the name of the bag
may follow them. -/
theorem SpellsChain.of_listBag {t : Tree} (h : t.Sound) {p : Policy} {n bag : Node}
    {names : List String} {r : Resolution} (hn : n ∈ t.nodes) (hplain : n.shape = .plain)
    (hspells : SpellsChain p n (names.map .field) r) (htarget : r.target = .listed bag)
    (hbag : bag.shape = .listBag) :
    n.walk? names = some bag ∧ ∀ {ending : List Segment} {found : Resolution},
      (∀ q name, q.child? name = some bag → Arrival p q (.field name :: ending) found) →
        SpellsChain p n (names.map .field ++ ending) found := by
  obtain ⟨steps, last, name, rfl, hkeys, hchain, hc⟩ :=
    hspells.exists_chain_to h hn hplain htarget (Or.inl (by rw [hbag]; rfl))
  constructor
  · rw [Tree.walk?_append, hchain.walk?]
    exact hc
  · intro ending found hending
    refine ⟨steps, last, .field name :: ending, found, ?_, hchain, hending last name hc, ?_⟩
    · rw [List.map_append, Step.segments_of_no_key hkeys, List.append_assoc]
      rfl
    · rw [Resolution.behind_of_no_key hkeys]

/-- A path of names to a listing bag is the path of the bag. -/
theorem Descent.render_listBag {t : Tree} (h : t.Sound) {p : Policy} {names : List String}
    {r : Resolution} (hdescent : Descent p t.rootNode (names.map .field) r)
    (hbag : r.target.entry.shape = .listBag) (key : Option Int) :
    r.target.site.render .dotted key =
      .ok (Segment.join ((t.rootNode.name :: names).map .field)) :=
  hdescent.render_holder h (Or.inl (by rw [hbag]; rfl)) key

/-- A path of names that resolves to a listing bag goes on to a member by the name of the member or
by its number.  Both come to the same, and the canonical path has the number. -/
theorem Tree.resolve_member {v : Vocabulary} {root : String} {type : Message} {t : Tree}
    (built : (build v root (some type)).value = .ok t) (p : Policy) {dotted : String}
    {names : List String} (hdotted : Path.IsDotted dotted (root :: names))
    (hmarkers : KeyMarker.count dotted = 0) {whole : Resolution} {bag : Node}
    (found : resolveFrom p t.rootNode dotted = .ok whole) (htarget : whole.target = .listed bag)
    (hbag : bag.shape = .listBag) {m : Message}
    (hsource : Source.follow v (.fields type) names = some (.members bag.name (memberEnums v m)))
    (hmembers : UnambiguousMembers bag.name ((memberEnums v m).flatMap (·.members)))
    {e : EnumMember} (he : e ∈ (memberEnums v m).flatMap (·.members)) (hnumber : 0 ≤ e.number.toInt)
    (hname : (isRegularName e.name || p.isIrregular e.name) = true) (hplain : IsPlainName e.name) :
    ∃ r, resolveFrom p t.rootNode (dotted ++ "." ++ e.name) = .ok r ∧
      resolveFrom p t.rootNode (dotted ++ ".key:" ++ Decimal.text e.number.toInt) = .ok r ∧
      r.target.isSynthesized = false ∧ r.kind = .attributeEntry ∧ r.target.entry.name = e.name ∧
      r.target.entry.ordinal = e.number.toInt ∧
      (r.path .dotted).value = .ok (dotted ++ ".key:" ++ Decimal.text e.number.toInt) := by
  have h := sound_of_build built
  obtain ⟨path, hparse, rest, hsegments, inner, hdescent, rfl⟩ := resolveFrom_eq_ok_iff.mp found
  have hpath : path = ⟨dotted, dotted, (root :: names).map .field, none⟩ :=
    Except.ok.inj (hparse.symm.trans hdotted)
  have hnames : (root :: names).map Segment.field = .field t.rootNode.name :: rest := by
    rw [← hsegments, hpath]
  obtain ⟨hroot, rfl⟩ := List.cons.inj hnames
  have hroot : root = t.rootNode.name := Segment.field.inj hroot
  obtain ⟨hwalk, hextend⟩ := ((descent_iff_of_parse hparse hsegments).mp hdescent).of_listBag h
    t.rootNode_mem_nodes h.root_plain htarget hbag
  have hdeclared : bag.Declared v (.members bag.name (memberEnums v m)) := by
    have hwalked := (exists_declared built).1.walk? names
    rwa [hwalk, hsource, Option.rel_some_some] at hwalked
  obtain ⟨c, hcname, hcnumber, hcalled, hordinal⟩ := hdeclared.exists_member hmembers he
  have hmem := Place.mem_below_of_child? hcname
  -- Both paths are read, and their segments spell chains to the member.
  have hresolve : ∀ s : Segment, s.Printable →
      SpellsChain p t.rootNode (names.map .field ++ [s])
        { target := .listed c, kind := .attributeEntry } →
      resolveFrom p t.rootNode (dotted ++ Segment.tail [s]) =
        .ok { target := .listed c, kind := .attributeEntry } := by
    intro s hs hspells
    have hread := hdotted.parse_append (List.cons_ne_nil _ _) (hdotted.isPlainName hmarkers) hs
    have hstart : (root :: names).map Segment.field ++ [s] =
        .field t.rootNode.name :: (names.map .field ++ [s]) := by
      rw [hroot]
      rfl
    exact resolveFrom_eq_ok_iff.mpr
      ⟨_, hread, _, hstart, _, (descent_iff_of_parse hread hstart).mpr hspells, rfl⟩
  have hnat : ((e.number.toInt.toNat : Nat) : Int) = e.number.toInt := Int.toNat_of_nonneg hnumber
  have hfield : dotted ++ "." ++ e.name = dotted ++ Segment.tail [.field e.name] := by
    rw [Segment.tail_field, String.append_assoc]
  have hkey : dotted ++ ".key:" ++ Decimal.text e.number.toInt =
      dotted ++ Segment.tail [.key e.number.toInt.toNat] := by
    rw [Segment.tail_key, hnat, String.append_assoc]
  refine ⟨{ target := .listed c, kind := .attributeEntry }, ?_, ?_, rfl, rfl, hcalled, hordinal, ?_⟩
  · rw [hfield]
    exact hresolve _ hplain (hextend fun q name hq => .byName hq (by rw [hbag]; rfl) hname hcname)
  · have hle : e.number.toInt.toNat ≤ Decimal.maxKey := by
      have := toInt_le_maxKey e.number
      omega
    rw [hkey]
    refine hresolve _ hle (hextend fun q name hq => .byNumber hq hbag List.mem_cons_self ?_)
    rw [hnat]
    exact hcnumber
  · have hmarker : c.entry.shape = .enumMarker :=
      hdeclared.wellFormed.members (Or.inl (by rw [hbag]; rfl)) c hmem.1
    have hstart : bag.site.render .dotted none = .ok dotted := by
      have hrender := hdescent.render_listBag h (by rw [htarget]; exact hbag) none
      rw [htarget, ← hroot, ← hdotted.eq_join] at hrender
      exact hrender
    rw [Resolution.path, Site.value_path]
    show c.site.render .dotted none = _
    rw [Place.render_of_mem_below hmem.1, hstart, Site.ending_member hbag hmarker, hordinal,
      String.append_assoc]
    rfl

/-! ## A small bag

Its members come from two enums, and one of them has no name. -/

def sampleMembers : List EnumType :=
  [⟨"NameOne", [⟨"FIRST", 1, none⟩, ⟨"", 5, none⟩]⟩, ⟨"NameTwo", [⟨"SECOND", 2, none⟩]⟩]

def sampleShelf : Message where
  name := "Shelf"
  fields := [{ name := "attrs", number := 1, type := .message { sampleBag with
    enums := sampleMembers } }]

def sampleShelfTree : Tree := .ofEntries (Tree.rootBranch {} "log" sampleShelf).value

theorem build_sampleShelf : (Tree.build {} "log" (some sampleShelf)).value = .ok sampleShelfTree :=
  rfl

theorem isDotted_sampleShelf : Path.IsDotted "log.attrs" ["log", "attrs"] := by
  rw [Path.IsDotted]
  decide +kernel

theorem descent_sampleShelf (p : Policy) :
    ∃ bag, Descent p sampleShelfTree.rootNode [.field "attrs"]
        { target := .listed bag, kind := .collectionList } ∧
      bag.shape = .listBag ∧ bag.name = "attrs" :=
  ⟨_, .bagWhole rfl rfl, rfl, rfl⟩

theorem unambiguous_sampleMembers :
    UnambiguousMembers "attrs" (sampleMembers.flatMap (·.members)) := by
  constructor <;> decide +kernel

/-- The member of the second enum. -/
theorem Tree.resolve_member_second :
    ∃ r, resolveFrom {} sampleShelfTree.rootNode "log.attrs.SECOND" = .ok r ∧
      resolveFrom {} sampleShelfTree.rootNode "log.attrs.key:2" = .ok r ∧
      r.target.entry.name = "SECOND" ∧ (r.path .dotted).value = .ok "log.attrs.key:2" := by
  obtain ⟨bag, hdescent, hbag, hname⟩ := descent_sampleShelf {}
  have found := resolveFrom_eq_ok_iff.mpr ⟨_, isDotted_sampleShelf, _, rfl, _, hdescent, rfl⟩
  obtain ⟨r, hrname, hrnumber, -, -, hcalled, -, hpath⟩ := resolve_member build_sampleShelf {}
    isDotted_sampleShelf (by decide +kernel) found rfl hbag
    (m := { sampleBag with enums := sampleMembers }) (by rw [hname]; rfl)
    (by rw [hname]; exact unambiguous_sampleMembers) (e := ⟨"SECOND", 2, none⟩) (by decide)
    (by decide) (by decide +kernel) (by decide +kernel)
  exact ⟨r, hrname, hrnumber, hcalled, hpath⟩

/-- A policy may admit a member without a name, but no path can spell it. -/
theorem Tree.resolve_nameless_member :
    ∃ p whole bag, (build {} "log" (some sampleShelf)).value = .ok sampleShelfTree ∧
      Path.IsDotted "log.attrs" ["log", "attrs"] ∧ KeyMarker.count "log.attrs" = 0 ∧
      resolveFrom p sampleShelfTree.rootNode "log.attrs" = .ok whole ∧
      whole.target = .listed bag ∧ bag.shape = .listBag ∧
      Source.follow {} (.fields sampleShelf) ["attrs"] = some (.members bag.name
        (memberEnums {} { sampleBag with enums := sampleMembers })) ∧
      UnambiguousMembers bag.name
        ((memberEnums {} { sampleBag with enums := sampleMembers }).flatMap (·.members)) ∧
      ⟨"", 5, none⟩ ∈
        (memberEnums {} { sampleBag with enums := sampleMembers }).flatMap (·.members) ∧
      p.isIrregular "" = true ∧ '.' ∉ "".toList ∧ ':' ∉ "".toList ∧ KeyMarker.count "" = 0 ∧
      resolveFrom p sampleShelfTree.rootNode ("log.attrs" ++ "." ++ "") =
        .error (.malformed "log.attrs." ".") := by
  obtain ⟨bag, hdescent, hbag, hname⟩ :=
    descent_sampleShelf { irregularNames := [""], outsideFields := [] }
  have found := resolveFrom_eq_ok_iff.mpr ⟨_, isDotted_sampleShelf, _, rfl, _, hdescent, rfl⟩
  have hparse : Path.parse ("log.attrs" ++ "." ++ "") = .error (.malformed "log.attrs." ".") := by
    decide +kernel
  refine ⟨_, _, bag, build_sampleShelf, isDotted_sampleShelf, by decide +kernel, found, rfl, hbag,
    by rw [hname]; rfl, by rw [hname]; exact unambiguous_sampleMembers, by decide, by decide +kernel,
    by decide, by decide, by decide +kernel, ?_⟩
  rw [resolveFrom, hparse]
  rfl

end FieldAtlas
