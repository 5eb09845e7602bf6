import FieldAtlas.Proofs.Resolution.Chain
import FieldAtlas.Proofs.Tree.Rendering

/-!
# `Keys` — one key, one place

A path holds one key at most, and a chain has several places for it.  It can stand behind a step and
open a record; it can stand where the chain arrives, in place of a member or as the key of a
placeholder; and it can stand behind an enum leaf, where nothing is read.

`KeyUse` names these four, and `Tree.key_has_one_use` says that the key of a path that resolves is
used in exactly one of the ways.  Which one can be read off the result (`KeyUse.of`), so no use can
be taken for another.
-/

namespace FieldAtlas

/-! ## The key of a path -/

/-- Where there is one key only, keys are the same. -/
theorem Segment.key_unique {segments : List Segment} {j k : Nat}
    (hkeys : segments.countP (·.key?.isSome) ≤ 1) (hj : .key j ∈ segments)
    (hk : .key k ∈ segments) : j = k := by
  obtain ⟨front, back, rfl⟩ := List.append_of_mem hj
  rw [List.countP_append, List.countP_cons_of_pos (by rfl)] at hkeys
  have hnone : ∀ {part : List Segment}, part.countP (·.key?.isSome) = 0 → .key k ∉ part :=
    fun hzero hmem => absurd (List.countP_eq_zero.mp hzero _ hmem) (by simp [key?])
  rcases List.mem_append.mp hk with hfront | hmem
  · exact absurd hfront (hnone (by omega))
  · rcases List.mem_cons.mp hmem with hsame | hback
    · exact (Segment.key.inj hsame).symm
    · exact absurd hback (hnone (by omega))

namespace Path

variable {path : Path} {k : Nat}

theorem key_mem_of_key? (h : path.key? = some k) : .key k ∈ path.segments := by
  obtain ⟨s, hs, hkey⟩ := List.exists_of_findSome?_eq_some h
  cases s with
  | field name => cases hkey
  | key n =>
      cases hkey
      exact hs

/-- The key of a path with one key at most is the one among its segments. -/
theorem key?_eq_some_iff (hkeys : path.segments.countP (·.key?.isSome) ≤ 1) :
    path.key? = some k ↔ .key k ∈ path.segments := by
  refine ⟨key_mem_of_key?, fun hk => ?_⟩
  cases h : path.key? with
  | none => exact absurd (List.findSome?_eq_none_iff.mp h _ hk) (by simp [Segment.key?])
  | some j => rw [Segment.key_unique hkeys (key_mem_of_key? h) hk]

end Path

/-! ## Keys of a chain -/

section

variable {p : Policy} {n last : Node} {segments : List Segment} {steps : List Step}
  {r : Resolution} {k : Nat}

theorem Resolution.collectionKey_behind (steps : List Step) (h : r.collectionKey = none) :
    (r.behind steps).collectionKey = steps.findSome? (·.key) := by
  rw [behind]
  cases steps.findSome? (·.key) with
  | none => exact h
  | some k => rfl

theorem Resolution.labelKey_behind : (r.behind steps).labelKey = r.labelKey := by
  rw [behind]
  split <;> rfl

theorem Arrival.collectionKey_eq_none (h : Arrival p n segments r) : r.collectionKey = none := by
  cases h <;> rfl

/-- The key of a placeholder is spelt where the chain arrives. -/
theorem Arrival.key_mem (h : Arrival p n segments r) (hkey : r.labelKey = some k) :
    Segment.key k ∈ segments := by
  cases h with
  | here | marker | whole | byName | byNumber | madeUp => cases hkey
  | placeholder =>
      cases hkey
      exact List.mem_cons_of_mem _ List.mem_cons_self

theorem Step.key_mem (h : steps.findSome? (·.key) = some k) :
    Segment.key k ∈ steps.flatMap Step.segments := by
  obtain ⟨s, hs, hkey⟩ := List.exists_of_findSome?_eq_some h
  refine List.mem_flatMap_of_mem hs ?_
  simp [Step.segments, hkey]

/-- Where there is one key only, no step has it if the arrival has. -/
theorem Step.no_key_of_mem
    (hkeys : (steps.flatMap Step.segments ++ segments).countP (·.key?.isSome) ≤ 1)
    (hmem : Segment.key k ∈ segments) : steps.findSome? (·.key) = none := by
  cases hopened : steps.findSome? (·.key) with
  | none => rfl
  | some j =>
      have hpos : ∀ {x : Nat} {xs : List Segment}, Segment.key x ∈ xs →
          0 < xs.countP (·.key?.isSome) := fun hx => List.countP_pos_iff.mpr ⟨_, hx, rfl⟩
      have hsteps := hpos (Step.key_mem hopened)
      have hending := hpos hmem
      rw [List.countP_append] at hkeys
      omega

/-- A key among the steps opens a record. -/
theorem Step.opened_of_key_mem
    (hkeys : (steps.flatMap Step.segments ++ segments).countP (·.key?.isSome) ≤ 1)
    (hmem : Segment.key k ∈ steps.flatMap Step.segments) :
    steps.findSome? (·.key) = some k := by
  obtain ⟨s, hs, hsegment⟩ := List.mem_flatMap.mp hmem
  have hkey : s.key = some k := by simpa [Step.segments] using hsegment
  cases hopened : steps.findSome? (·.key) with
  | none =>
      rw [List.findSome?_eq_none_iff.mp hopened s hs] at hkey
      cases hkey
  | some j =>
      rw [Segment.key_unique hkeys (List.mem_append_left _ (Step.key_mem hopened))
        (List.mem_append_left _ hmem)]

/-- The key of a result is spelt in its path. -/
theorem SpellsChain.key_mem (h : SpellsChain p n segments r) (hkey : r.key = some k) :
    Segment.key k ∈ segments := by
  obtain ⟨steps, last, ending, found, rfl, -, harrival, rfl⟩ := h
  rw [Resolution.key, Resolution.collectionKey_behind steps harrival.collectionKey_eq_none,
    Resolution.labelKey_behind] at hkey
  cases hopened : steps.findSome? (·.key) with
  | some j =>
      rw [hopened] at hkey
      cases hkey
      exact List.mem_append_left _ (Step.key_mem hopened)
  | none =>
      rw [hopened] at hkey
      exact List.mem_append_right _ (harrival.key_mem hkey)

/-- A result has one key at most. -/
theorem SpellsChain.one_key (h : SpellsChain p n segments r)
    (hkeys : segments.countP (·.key?.isSome) ≤ 1) : r.collectionKey = none ∨ r.labelKey = none := by
  obtain ⟨steps, last, ending, found, rfl, -, harrival, rfl⟩ := h
  rw [Resolution.collectionKey_behind steps harrival.collectionKey_eq_none,
    Resolution.labelKey_behind]
  cases hlabel : found.labelKey with
  | none => exact Or.inr rfl
  | some k => exact Or.inl (Step.no_key_of_mem hkeys (harrival.key_mem hlabel))

/-- A chain is within records exactly if it begins there or a key has opened one. -/
theorem Chain.inRecords_last (h : Chain n steps last) :
    last.site.inRecords = (n.site.inRecords || (steps.findSome? (·.key)).isSome) := by
  induction h with
  | nil => simp
  | @cons n last s rest hc hgoes _ ih =>
      have hbelow := (Place.mem_below_of_child? hc).1
      rw [ih, Place.inRecords_of_mem_below hbelow, List.findSome?_cons]
      rcases hgoes with ⟨hshape, hkey⟩ | ⟨hshape, hkey⟩
      · rw [hshape, hkey]
        rfl
      · obtain ⟨k, hk⟩ := Option.isSome_iff_exists.mp hkey
        rw [hshape, hk]
        simp

/-- What stands behind the key of a record is found as such. -/
theorem SpellsChain.kind_of_collectionKey (h : SpellsChain p n segments r)
    (hkey : r.collectionKey = some k) : r.kind = .collectionLeaf := by
  obtain ⟨steps, last, ending, found, rfl, -, harrival, rfl⟩ := h
  rw [Resolution.collectionKey_behind steps harrival.collectionKey_eq_none] at hkey
  rw [Resolution.behind, hkey]

/-- A placeholder that was given a key stands where external keys are taken. -/
theorem SpellsChain.exists_above_placeholder {t : Tree} (h : SpellsChain p n segments r)
    (hn : n ∈ t.nodes) (hkey : r.labelKey = some k) :
    ∃ c ∈ t.nodes, c.shape.takesExternalKey = true ∧ ∃ m ∈ c.below, r.target = .listed m := by
  obtain ⟨steps, last, ending, found, rfl, hchain, harrival, rfl⟩ := h
  rw [Resolution.labelKey_behind] at hkey
  rw [Resolution.target_behind]
  cases harrival with
  | here | marker | whole | byName | byNumber | madeUp => cases hkey
  | placeholder hc hexternal _ hm =>
      exact ⟨_, Tree.mem_nodes_of_child? (hchain.last_mem_nodes hn) hc, hexternal, _,
        (Place.mem_below_of_child? hm).1, rfl⟩

/-- Segments spell one result at most. -/
theorem SpellsChain.unique {r' : Resolution} (hread : ∀ s ∈ segments, s.Readable)
    (h : SpellsChain p n segments r) (h' : SpellsChain p n segments r') : r = r' := by
  have hr := descend_eq_ok_iff.mpr ((descent_iff_spellsChain hread).mpr h)
  have hr' := descend_eq_ok_iff.mpr ((descent_iff_spellsChain hread).mpr h')
  exact Except.ok.inj (hr.symm.trans hr')

end

/-! ## The uses of a key -/

/-- What the key of a path can be good for. -/
inductive KeyUse where
  /-- It has opened a record. -/
  | record
  /-- It was given for a placeholder. -/
  | placeholder
  /-- It is the number of a member of a bag, or of an entry made up below a bag. -/
  | member
  /-- It stands behind an enum leaf to which a chain leads. -/
  | ignored
  deriving DecidableEq, Repr

namespace KeyUse

/-- Whether a key of the segments behind the start is used in this way for the result. -/
def Holds (t : Tree) (start : Node) (segments : List Segment) (k : Nat) (r : Resolution) :
    KeyUse → Prop
  | record => r.collectionKey = some k
  | placeholder => r.labelKey = some k
  | member => r.kind = .attributeEntry ∧ ∃ bag ∈ t.nodes, bag.shape = .listBag ∧
      (r.target = .synthesized bag k ∨
        ∃ m, bag.child? (Decimal.text k) = some m ∧ r.target = .listed m)
  | ignored => ∃ steps last name leaf behind,
      segments = steps.flatMap Step.segments ++ .field name :: behind ∧ Chain start steps last ∧
        last.child? name = some leaf ∧ leaf.shape = .enumMarker ∧ .key k ∈ behind

/-- The use of a key, as the result shows it. -/
def of (r : Resolution) : KeyUse :=
  if r.collectionKey.isSome then record
  else if r.labelKey.isSome then placeholder
  else if r.kind = .enum then ignored
  else member

section

variable {t : Tree} {p : Policy} {start : Node} {segments : List Segment} {k : Nat}
  {r : Resolution}

/-- The key of a path is used somewhere. -/
theorem exists_holds (hstart : start ∈ t.nodes) (hspells : SpellsChain p start segments r)
    (hkeys : segments.countP (·.key?.isSome) ≤ 1) (hk : .key k ∈ segments) :
    ∃ use : KeyUse, use.Holds t start segments k r := by
  obtain ⟨steps, last, ending, found, rfl, hchain, harrival, rfl⟩ := hspells
  rcases List.mem_append.mp hk with hsteps | hending
  · refine ⟨record, ?_⟩
    rw [Holds, Resolution.collectionKey_behind steps harrival.collectionKey_eq_none]
    exact Step.opened_of_key_mem hkeys hsteps
  · have hfound : found.behind steps = found := by
      rw [Resolution.behind, Step.no_key_of_mem hkeys hending]
    have hlast := hchain.last_mem_nodes hstart
    have hsame : ∀ {name : String} {j : Nat} {accessor : List Segment},
        ending = .field name :: .key j :: accessor → k = j := by
      rintro name j accessor rfl
      exact Segment.key_unique hkeys hk (List.mem_append_right _ (by simp))
    rw [hfound]
    cases harrival with
    | here => exact absurd hending List.not_mem_nil
    | whole | byName => simp at hending
    | marker hc hshape =>
        exact ⟨ignored, steps, last, _, _, _, rfl, hchain, hc, hshape, by simpa using hending⟩
    | byNumber hc hlist _ hm =>
        obtain rfl := hsame rfl
        exact ⟨member, rfl, _, Tree.mem_nodes_of_child? hlast hc, hlist, Or.inr ⟨_, hm, rfl⟩⟩
    | madeUp hc hlist =>
        obtain rfl := hsame rfl
        exact ⟨member, rfl, _, Tree.mem_nodes_of_child? hlast hc, hlist, Or.inl rfl⟩
    | placeholder =>
        obtain rfl := hsame rfl
        exact ⟨placeholder, rfl⟩

/-- A placeholder that was given a key is no member of a listing bag. -/
theorem labelKey_eq_none_of_member (h : t.Sound) (hstart : start ∈ t.nodes)
    (hspells : SpellsChain p start segments r) (hmember : member.Holds t start segments k r) :
    r.labelKey = none := by
  obtain ⟨-, bag, hbag, hlist, htarget⟩ := hmember
  cases hkey : r.labelKey with
  | none => rfl
  | some j =>
      obtain ⟨c, hc, hexternal, m, hm, hlisted⟩ := hspells.exists_above_placeholder hstart hkey
      rw [hlisted] at htarget
      rcases htarget with hmadeUp | ⟨m', hm', hsame⟩
      · cases hmadeUp
      · cases hsame
        have habove := h.parent?_of_mem_below hbag (Place.mem_below_of_child? hm').1
        rw [h.parent?_of_mem_below hc hm] at habove
        cases habove
        rw [hlist] at hexternal
        cases hexternal

/-- Whatever the use of a key is, the result shows it. -/
theorem eq_of_holds (h : t.Sound) (hstart : start ∈ t.nodes) (hread : ∀ s ∈ segments, s.Readable)
    (hkeys : segments.countP (·.key?.isSome) ≤ 1) (hspells : SpellsChain p start segments r)
    {use : KeyUse} (huse : use.Holds t start segments k r) : use = of r := by
  have hone := hspells.one_key hkeys
  cases use with
  | record =>
      have hcollection : r.collectionKey = some k := huse
      simp [of, hcollection]
  | placeholder =>
      have hlabel : r.labelKey = some k := huse
      have hcollection : r.collectionKey = none := by simpa [hlabel] using hone
      simp [of, hcollection, hlabel]
  | member =>
      have hlabel := labelKey_eq_none_of_member h hstart hspells huse
      have hkind : r.kind = .attributeEntry := huse.1
      have hcollection : r.collectionKey = none := by
        cases hkey : r.collectionKey with
        | none => rfl
        | some j =>
            rw [hspells.kind_of_collectionKey hkey] at hkind
            cases hkind
      simp [of, hcollection, hlabel, hkind]
  | ignored =>
      obtain ⟨steps, last, name, leaf, behind, rfl, hchain, hc, hshape, hmem⟩ := huse
      have hopened := Step.no_key_of_mem hkeys (List.mem_cons_of_mem _ hmem)
      -- The chain to the leaf arrives there, and no other is spelt.
      have hleaf : SpellsChain p start (steps.flatMap Step.segments ++ .field name :: behind)
          (Resolution.behind steps { target := .listed leaf, kind := .enum }) :=
        ⟨steps, last, _, _, rfl, hchain, .marker hc hshape, rfl⟩
      rw [hspells.unique hread hleaf, Resolution.behind, hopened]
      rfl

end

end KeyUse

/-- A path that resolves holds one key at most.  The result has the key of the path or none, and the
key of the path is used in exactly one way. -/
theorem Tree.key_has_one_use {v : Vocabulary} {root : String} {m : Option Message} {t : Tree}
    (built : (build v root m).value = .ok t) {start : Node} (hstart : start ∈ t.nodes) {p : Policy}
    {raw : String} {r : Resolution} (found : resolveFrom p start raw = .ok r) :
    ∃ path rest, Path.parse raw = .ok path ∧ path.segments = .field start.name :: rest ∧
      path.segments.countP (·.key?.isSome) ≤ 1 ∧
      (r.collectionKey = none ∨ r.labelKey = none) ∧
      (∀ k, r.collectionKey = some k ∨ r.labelKey = some k → path.key? = some k) ∧
      (∀ k, path.key? = some k → ∃! use : KeyUse, use.Holds t start rest k r) ∧
      (path.key? = none → r.collectionKey = none ∧ r.labelKey = none) := by
  have h := sound_of_build built
  obtain ⟨path, hparse, rest, hsegments, inner, hspells, rfl⟩ := exists_chain_of_resolveFrom found
  obtain ⟨hread, hkeys⟩ := Path.rest_of_parse hparse hsegments
  have hone := hspells.one_key hkeys
  have hpath := Path.countP_segments_le_one hparse
  have hmem : ∀ {k}, path.key? = some k ↔ .key k ∈ rest := by
    intro k
    rw [Path.key?_eq_some_iff hpath, hsegments]
    simp
  have hkey : ∀ k, inner.collectionKey = some k ∨ inner.labelKey = some k →
      path.key? = some k := by
    intro k hk
    refine hmem.mpr (hspells.key_mem ?_)
    rcases hone with hone | hone <;> rw [hone] at hk <;> simpa [Resolution.key, hone] using hk
  refine ⟨path, rest, hparse, hsegments, hpath, hone, hkey, fun k hk => ?_, fun hnone => ?_⟩
  · obtain ⟨use, huse⟩ := KeyUse.exists_holds hstart hspells hkeys (hmem.mp hk)
    have hunique : ∀ use' : KeyUse, use'.Holds t start rest k inner → use' = KeyUse.of inner :=
      fun _ => KeyUse.eq_of_holds h hstart hread hkeys hspells
    exact ⟨use, huse, fun use' huse' => (hunique use' huse').trans (hunique use huse).symm⟩
  · constructor
    · exact Option.eq_none_iff_forall_ne_some.mpr fun k hk => by
        rw [hkey k (Or.inl hk)] at hnone
        cases hnone
    · exact Option.eq_none_iff_forall_ne_some.mpr fun k hk => by
        rw [hkey k (Or.inr hk)] at hnone
        cases hnone

/-- A key behind the field of an enum is ignored, and that is its one use. -/
theorem Tree.key_has_one_use_ignored :
    ∃ r, resolveFrom {} sampleTree.rootNode "log.os.key:5" = .ok r ∧ r.collectionKey = none ∧
      r.labelKey = none ∧
      ∃! use : KeyUse, use.Holds sampleTree sampleTree.rootNode [.field "os", .key 5] 5 r := by
  have hparse : Path.parse "log.os.key:5" = .ok ⟨"log.os.key:5", "log.os.key:5",
      [.field "log", .field "os", .key 5], none⟩ := by
    decide +kernel
  have hdescent : Descent {} sampleTree.rootNode [.field "os", .key 5] _ := .marker rfl rfl
  have found := resolveFrom_eq_ok_iff.mpr ⟨_, hparse, _, rfl, _, hdescent, rfl⟩
  obtain ⟨path, rest, hread, hsegments, -, -, -, huse, -⟩ :=
    key_has_one_use build_sampleLog sampleTree.rootNode_mem_nodes found
  cases hparse.symm.trans hread
  cases hsegments
  exact ⟨_, found, rfl, rfl, huse 5 rfl⟩

end FieldAtlas
