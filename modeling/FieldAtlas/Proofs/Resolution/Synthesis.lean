import FieldAtlas.Proofs.Resolution.Keys
import FieldAtlas.Proofs.Resolution.NodeRoundTrip

/-!
# `Synthesis` — what a policy that makes entries up changes

Two policies that differ in nothing but whether entries are made up resolve every path to the same,
or refuse it for the same reason, with one exception: a key that a listing bag does not have.
Following one path under both of them, `Toggled` is what holds between the two results, at the place
where they part and on the way back from there.

An entry that was made up is no node, and yet it has a path.  Only names stand before its key, for
the key is the only one, and they are the names of the line of the bag
(`SpellsChain.synthesized`).  So the path of the entry is that of the bag with the key behind it,
and it leads to the entry again.
-/

namespace FieldAtlas

/-- The policy with entries made up, or not. -/
def Policy.withSynthesis (p : Policy) (enabled : Bool) : Policy := { p with synthesize := enabled }

/-- How a failure on a path is reported. -/
def Policy.reported (p : Policy) (raw : String) (failure : Failure) : Failure :=
  if p.isOutside (Path.splitTag raw).1 then .outside raw else failure

/-! ## One path under two policies -/

/-- What a path comes to without entries that are made up, and with them. -/
inductive Toggled : Except Failure Resolution → Except Failure Resolution → Prop
  | same (x : Except Failure Resolution) : Toggled x x
  | madeUp {bag : Node} {k : Nat} {r : Resolution} :
      r.target = .synthesized bag k → Toggled (.error (.unlistedKey bag.name k)) (.ok r)

namespace Toggled

theorem map {x y : Except Failure Resolution} {f : Resolution → Resolution}
    (hf : ∀ r, (f r).target = r.target) (h : Toggled x y) : Toggled (x.map f) (y.map f) := by
  cases h with
  | same => exact .same _
  | @madeUp _ _ r htarget => exact .madeUp ((hf r).trans htarget)

variable (p : Policy)

theorem of_entryByKey (bag : Node) (k : Nat) :
    Toggled (entryByKey (p.withSynthesis false) bag k)
      (entryByKey (p.withSynthesis true) bag k) := by
  unfold entryByKey
  cases bag.child? (Decimal.text k) with
  | some n => exact .same _
  | none => exact .madeUp rfl

theorem of_resolveBag (bag : Node) (rest : List Segment) :
    Toggled (resolveBag (p.withSynthesis false) bag rest)
      (resolveBag (p.withSynthesis true) bag rest) := by
  unfold resolveBag
  split
  · exact .same _
  · cases keyRemainder? rest with
    | none => exact .same _
    | some k =>
        dsimp only
        split
        · exact .same _
        · exact of_entryByKey p bag k

theorem of_descend : ∀ (segments : List Segment) (n : Node),
    Toggled (descend (p.withSynthesis false) n segments) (descend (p.withSynthesis true) n segments)
  | [], _ => .same _
  | .key _ :: _, _ => .same _
  | .field name :: rest, n => by
      rw [descend, descend]
      cases n.child? name with
      | none => exact .same _
      | some c =>
          dsimp only
          cases c.shape with
          | plain => exact of_descend rest c
          | enumMarker | labelMap => exact .same _
          | listBag | mapBag => exact of_resolveBag p c rest
          | keyedRecords =>
              cases rest with
              | nil => exact .same _
              | cons first inner =>
                  cases first with
                  | field _ => exact .same _
                  | key k => exact (of_descend inner c).map fun _ => rfl

theorem of_walk (start : Node) (path : Path) :
    Toggled (walk (p.withSynthesis false) start path) (walk (p.withSynthesis true) start path) := by
  unfold walk
  split
  · exact .same _
  · split
    · exact (of_descend p _ start).map fun _ => rfl
    · exact .same _

end Toggled

/-- Under two policies that differ in making entries up, a path comes to the same, unless it is
refused for a key that the bag does not list and leads to the entry made up for this key. -/
theorem resolveFrom_toggled (p : Policy) (start : Node) (raw : String) :
    resolveFrom (p.withSynthesis false) start raw = resolveFrom (p.withSynthesis true) start raw ∨
      ∃ bag k r, r.target = .synthesized bag k ∧
        resolveFrom (p.withSynthesis true) start raw = .ok r ∧
        resolveFrom (p.withSynthesis false) start raw =
          .error (p.reported raw (.unlistedKey bag.name k)) := by
  have htoggled : Toggled ((Path.parse raw).bind (walk (p.withSynthesis false) start))
      ((Path.parse raw).bind (walk (p.withSynthesis true) start)) := by
    cases Path.parse raw with
    | error failure => exact .same _
    | ok path => exact .of_walk p start path
  rw [resolveFrom, resolveFrom]
  generalize (Path.parse raw).bind (walk (p.withSynthesis false) start) = off at htoggled
  generalize (Path.parse raw).bind (walk (p.withSynthesis true) start) = on at htoggled
  cases htoggled with
  | same => exact Or.inl rfl
  | @madeUp bag k r htarget =>
      exact Or.inr ⟨bag, k, r, htarget, rfl, (apply_ite Except.error _ _ _).symm⟩

/-! ## The path of an entry that was made up -/

section

variable {t : Tree} {p : Policy} {n last bag : Node} {steps : List Step} {rest : List Segment}
  {k : Nat} {r : Resolution}

/-- Only a policy that makes entries up comes to one. -/
theorem synthesize_of_resolveFrom {raw : String} (found : resolveFrom p n raw = .ok r)
    (htarget : r.target = .synthesized bag k) : p.synthesize = true := by
  obtain ⟨_, -, _, -, _, ⟨steps, _, _, _, -, -, harrival, rfl⟩, rfl⟩ :=
    exists_chain_of_resolveFrom found
  have harrived := (Resolution.target_behind steps _).symm.trans htarget
  cases harrival with
  | here | marker | whole | byName | byNumber | placeholder => cases harrived
  | madeUp _ _ _ _ hpolicy => exact hpolicy

/-- Where no key has opened a record, the steps of a chain are segments of the line. -/
theorem Chain.segments_last (h : t.Sound) (hn : n ∈ t.nodes) (hchain : Chain n steps last)
    (hkeys : ∀ s ∈ steps, s.key = none) (j : Nat) :
    last.site.segments j = n.site.segments j ++ steps.flatMap Step.segments := by
  induction hchain with
  | nil => exact (List.append_nil _).symm
  | @cons n last s rest hc hgoes _ ih =>
      have hkey := hkeys s List.mem_cons_self
      have hshape : s.node.shape = .plain := by
        rcases hgoes with ⟨hshape, -⟩ | ⟨-, hopened⟩
        · exact hshape
        · rw [hkey] at hopened
          cases hopened
      have hname : s.node.name = s.name := h.name_of_child? hn hc (by simp [hshape])
      have hlast : Site.lastSegments j n.entry s.node.entry = s.segments := by
        have hentry : s.node.entry.shape = .plain := hshape
        rw [Site.lastSegments, hentry, Step.segments, hkey, ← hname]
        rfl
      rw [ih (Tree.mem_nodes_of_child? hn hc) fun x hx => hkeys x (List.mem_cons_of_mem _ hx),
        Place.segments_of_mem_below (Place.mem_below_of_child? hc).1, hlast, List.flatMap_cons,
        List.append_assoc]

/-- An entry is made up below a listing bag outside of records, and the segments of the bag are
spelt before its key. -/
theorem SpellsChain.synthesized (h : t.Sound) (hspells : SpellsChain p t.rootNode rest r)
    (hread : ∀ s ∈ rest, s.Readable) (hkeys : rest.countP (·.key?.isSome) ≤ 1)
    (htarget : r.target = .synthesized bag k) :
    r = { target := .synthesized bag k, kind := .attributeEntry } ∧ bag ∈ t.nodes ∧
      bag.shape = .listBag ∧ bag.site.inRecords = false ∧ bag.child? (Decimal.text k) = none ∧
      ∃ way accessor, rest = way ++ .key k :: accessor ∧
        bag.site.segments 0 = .field t.rootNode.name :: way ∧
        Descent p t.rootNode (way ++ [.key k]) r := by
  obtain ⟨steps, last, ending, found, rfl, hchain, harrival, rfl⟩ := hspells
  rw [Resolution.target_behind] at htarget
  cases harrival with
  | here | marker | whole | byName | byNumber | placeholder => cases htarget
  | @madeUp _ name _ accessor hc hlist _ hunlisted hpolicy =>
      cases htarget
      have hmem : Segment.key k ∈ .field name :: .key k :: accessor :=
        List.mem_cons_of_mem _ List.mem_cons_self
      have hopened := Step.no_key_of_mem hkeys hmem
      have hk : k ≤ Decimal.maxKey := hread _ (List.mem_append_right _ hmem)
      have hlast := hchain.last_mem_nodes t.rootNode_mem_nodes
      have hbelow := (Place.mem_below_of_child? hc).1
      have hin : bag.site.inRecords = false := by
        rw [Place.inRecords_of_mem_below hbelow, hchain.inRecords_last, h.inRecords_rootNode,
          hopened, hlist]
        rfl
      have hsegments : bag.site.segments 0 =
          .field t.rootNode.name :: (steps.flatMap Step.segments ++ [.field name]) := by
        have hname : bag.name = name := h.name_of_child? hlast hc (by simp [hlist])
        have hentry : bag.entry.shape = .listBag := hlist
        rw [Place.segments_of_mem_below hbelow, hchain.segments_last h t.rootNode_mem_nodes
          (List.findSome?_eq_none_iff.mp hopened), Tree.site_rootNode, Site.lastSegments, hentry,
          ← hname]
        rfl
      have hdescent := hchain.descent
        (.bagMadeUp hc hlist (keyRemainder?_key hk) hunlisted hpolicy)
      rw [Resolution.behind, hopened] at hdescent ⊢
      refine ⟨rfl, Tree.mem_nodes_of_mem_below hlast hbelow, hlist, hin, hunlisted, _, accessor,
        ?_, hsegments, ?_⟩
      · simp
      · simpa using hdescent

/-- A listing bag outside of records has a path without a key. -/
theorem Tree.Sound.render_listBag (h : t.Sound) (hbag : bag ∈ t.nodes)
    (hlist : bag.shape = .listBag) (hin : bag.site.inRecords = false) :
    bag.site.render .dotted none = .ok (Segment.join (bag.site.segments 0)) := by
  have hleaf : bag.shape ≠ .enumMarker := by simp [hlist]
  have hrequires := h.requiresKey_of_outside hbag hleaf hin
  exact h.render_eq_join bag hbag (Or.inr hrequires) fun _ _ _ hmarker => absurd hmarker hleaf

/-- The path of an entry that was made up is that of its bag and the key. -/
theorem Place.render_siteOfKey (hlist : bag.shape = .listBag) {start : String}
    (hstart : bag.site.render .dotted none = .ok start) (key : Int) :
    (bag.siteOfKey key).render .dotted none = .ok (start ++ ".key:" ++ Decimal.text key) := by
  have hstep : (bag.siteOfKey key).render .dotted none =
      (bag.site.render .dotted none).bind fun start =>
        (Site.ending .dotted none bag.entry (Entry.ofKey key)).map (start ++ ·) := rfl
  rw [hstep, hstart, Site.ending_member hlist rfl, String.append_assoc]
  rfl

/-- The way to an entry that was made up, printed, leads to it again. -/
theorem SpellsChain.resolve_synthesized (h : t.Sound) {raw : String} {path : Path}
    (hparse : Path.parse raw = .ok path)
    (hsegments : path.segments = .field t.rootNode.name :: rest)
    (hspells : SpellsChain p t.rootNode rest r) (htarget : r.target = .synthesized bag k) :
    resolveFrom p t.rootNode (Segment.join (bag.site.segments 0 ++ [.key k])) = .ok r := by
  obtain ⟨hread, hkeys⟩ := Path.rest_of_parse hparse hsegments
  obtain ⟨hr, -, -, -, -, way, accessor, rfl, hbag, hdescent⟩ :=
    hspells.synthesized h hread hkeys htarget
  have hfront : path.segments = (bag.site.segments 0 ++ [.key k]) ++ accessor := by
    rw [hsegments, hbag]
    simp
  -- The key is the one marker of the path, so the names before it are plain.
  have hprint : ∀ s ∈ bag.site.segments 0 ++ [.key k], s.Printable := fun s hs =>
    Path.printable_segments_of_key hparse (k := k) (by simp [hfront]) s
      (hfront ▸ List.mem_append_left _ hs)
  have hone : (bag.site.segments 0 ++ [Segment.key k]).countP (·.key?.isSome) ≤ 1 := by
    have hpath := Path.countP_segments_le_one hparse
    rw [hfront, List.countP_append] at hpath
    omega
  have hagain := Path.parse_join (List.append_ne_nil_of_right_ne_nil _ (List.cons_ne_nil _ _))
    hprint hone
  refine resolveFrom_eq_ok_iff.mpr ⟨_, hagain, way ++ [.key k], ?_, r, hdescent, ?_⟩
  · rw [hbag]
    rfl
  · rw [hr]

end

/-- What holds of the result of a path if its target is the entry made up for the key `k`. -/
structure Tree.MadeUp (t : Tree) (p : Policy) (raw : String) (bag : Node) (k : Nat)
    (r : Resolution) : Prop where
  found : resolveFrom (p.withSynthesis true) t.rootNode raw = .ok r
  refused : resolveFrom (p.withSynthesis false) t.rootNode raw =
    .error (p.reported raw (.unlistedKey bag.name k))
  key_of_path : ∃ path, Path.parse raw = .ok path ∧ path.key? = some k
  target : r.target = .synthesized bag k
  kind : r.kind = .attributeEntry
  no_key : r.collectionKey = none ∧ r.labelKey = none
  ordinal : r.target.entry.ordinal = k
  parent : r.target.parent? = some bag.label
  bag_mem : bag ∈ t.nodes
  listing : bag.shape = .listBag
  outside_records : bag.site.inRecords = false
  unlisted : bag.child? (Decimal.text k) = none
  found_again : ∃ start, (bag.site.path .dotted none).value = .ok start ∧
    (r.path .dotted).value = .ok (start ++ ".key:" ++ Decimal.text k) ∧
    resolveFrom (p.withSynthesis true) t.rootNode (start ++ ".key:" ++ Decimal.text k) =
      .ok { r with tag := none }

theorem Tree.Sound.madeUp {t : Tree} (h : t.Sound) {p : Policy} {raw : String} {bag : Node}
    {k : Nat} {r : Resolution} (found : resolveFrom (p.withSynthesis true) t.rootNode raw = .ok r)
    (htarget : r.target = .synthesized bag k) : t.MadeUp p raw bag k r := by
  obtain ⟨path, hparse, rest, hsegments, inner, hspells, rfl⟩ := exists_chain_of_resolveFrom found
  obtain ⟨hread, hkeys⟩ := Path.rest_of_parse hparse hsegments
  obtain ⟨rfl, hbag, hlist, hin, hunlisted, way, accessor, rfl, -, -⟩ :=
    hspells.synthesized h hread hkeys htarget
  have hstart := h.render_listBag hbag hlist hin
  have hkey : path.key? = some k := by
    rw [Path.key?_eq_some_iff (Path.countP_segments_le_one hparse), hsegments]
    simp
  refine
    { found
      refused := ?_
      key_of_path := ⟨path, hparse, hkey⟩
      target := rfl
      kind := rfl
      no_key := ⟨rfl, rfl⟩
      ordinal := rfl
      parent := rfl
      bag_mem := hbag
      listing := hlist
      outside_records := hin
      unlisted := hunlisted
      found_again := ⟨_, (Site.value_path _ _ _).trans hstart, ?_, ?_⟩ }
  · rcases resolveFrom_toggled p t.rootNode raw with hsame | ⟨_, _, _, hmadeUp, hfound, hrefused⟩
    · -- The policy that makes nothing up cannot have come to the entry.
      cases synthesize_of_resolveFrom (hsame.trans found) rfl
    · cases found.symm.trans hfound
      cases hmadeUp
      exact hrefused
  · rw [Resolution.path, Site.value_path]
    exact Place.render_siteOfKey hlist hstart k
  · rw [← Segment.join_concat_key (bag.site.segments_ne_nil 0)]
    exact hspells.resolve_synthesized h hparse hsegments rfl

/-- Making entries up changes no result and no failure but that of a key which a listing bag does
not have, and there the result is the entry made up for it. -/
theorem Tree.resolve_with_synthesis {v : Vocabulary} {root : String} {m : Option Message}
    {t : Tree} (built : (build v root m).value = .ok t) (p : Policy) (raw : String) :
    (∀ r, resolveFrom (p.withSynthesis false) t.rootNode raw = .ok r →
      resolveFrom (p.withSynthesis true) t.rootNode raw = .ok r) ∧
    (resolveFrom (p.withSynthesis false) t.rootNode raw ≠
        resolveFrom (p.withSynthesis true) t.rootNode raw →
      ∃ bag k r, t.MadeUp p raw bag k r) ∧
    ∀ bag k r, resolveFrom (p.withSynthesis true) t.rootNode raw = .ok r →
      r.target = .synthesized bag k → t.MadeUp p raw bag k r := by
  have h := sound_of_build built
  have htoggled := resolveFrom_toggled p t.rootNode raw
  refine ⟨fun r hoff => ?_, fun hdiffer => ?_, fun bag k r => h.madeUp⟩
  · rcases htoggled with hsame | ⟨_, _, _, -, -, hrefused⟩
    · rw [← hsame, hoff]
    · rw [hoff] at hrefused
      cases hrefused
  · rcases htoggled with hsame | ⟨bag, k, r, htarget, found, -⟩
    · exact absurd hsame hdiffer
    · exact ⟨bag, k, r, h.madeUp found htarget⟩

/-- A key with zeros, an accessor and a tag: the path of the entry has none of them. -/
theorem Tree.resolve_with_synthesis_unlisted :
    ∃ bag r, sampleTree.MadeUp {} "log.attrs.key:009.value:int64" bag 9 r ∧ bag.name = "attrs" ∧
      r.tag = some .int64 ∧ (r.path .dotted).value = .ok "log.attrs.key:9" := by
  have hparse : Path.parse "log.attrs.key:009.value:int64" = .ok
      { raw := "log.attrs.key:009.value:int64"
        body := "log.attrs.key:009.value"
        segments := [.field "log", .field "attrs", .key 9, .field "value"]
        tag := some .int64 } := by
    decide +kernel
  have hdescent : Descent (Policy.withSynthesis {} true) sampleTree.rootNode
      [.field "attrs", .key 9, .field "value"] _ :=
    .bagMadeUp (k := 9) rfl rfl (by decide +kernel) (by decide +kernel) rfl
  have found := resolveFrom_eq_ok_iff.mpr ⟨_, hparse, _, rfl, _, hdescent, rfl⟩
  exact ⟨_, _, (resolve_with_synthesis build_sampleLog {} _).2.2 _ _ _ found rfl, rfl, rfl, rfl⟩

end FieldAtlas
