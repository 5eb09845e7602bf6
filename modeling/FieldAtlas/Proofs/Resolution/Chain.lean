import FieldAtlas.Proofs.Path.Marker
import FieldAtlas.Proofs.Resolution.Descent
import FieldAtlas.Proofs.Tree.Invariant

/-!
# `Chain` — the nodes that a path passes, one after another

The resolver reads a path from the left and turns back what it finds inside a record on its way
out.  A chain is the same thing seen at once: the *steps* that lead down from the start, through
plain nodes and through records that a key opens, and the *arrival*, which is the only place
where a name or a key can mean anything else.

`resolveFrom_eq_ok_iff_chain` says that a path resolves exactly if its segments spell a chain, and
that the result is what the chain arrives at: its kind and its key for the record come from the
steps, all else from the arrival.
-/

namespace FieldAtlas

/-- A step down, as a path writes it: the name, the child under it, and the key behind it. -/
structure Step where
  name : String
  node : Node
  key : Option Nat := none

namespace Step

def segments (s : Step) : List Segment := .field s.name :: (s.key.map Segment.key).toList

/-- A path goes on below a plain node, and below a collection of records if a key opens one. -/
def GoesOn (s : Step) : Prop :=
  s.node.shape = .plain ∧ s.key = none ∨ s.node.shape = .keyedRecords ∧ s.key.isSome = true

end Step

/-- The steps lead down from the first node to the last, each to a child of the node before. -/
inductive Chain : Node → List Step → Node → Prop
  | nil {n : Node} : Chain n [] n
  | cons {n last : Node} {s : Step} {rest : List Step} :
      n.child? s.name = some s.node → s.GoesOn → Chain s.node rest last → Chain n (s :: rest) last

/-- What may stand behind the key of a member: nothing, or one accessor. -/
def accessors : List (List Segment) := [[], [.field "key"], [.field "value"]]

/-- What naming a node of this shape means if nothing follows: nodes other than plain ones and
markers are meant as a whole. -/
def Shape.wholeKind? : Shape → Option PathKind
  | plain | enumMarker => none
  | listBag | mapBag | keyedRecords => some .collectionList
  | labelMap => some .labelMapWhole

/-- What picking the placeholder below a node of this shape means. -/
def Shape.placeholderKind : Shape → PathKind
  | labelMap => .labelMapLeaf
  | plain | enumMarker | listBag | mapBag | keyedRecords => .attributeEntry

/-- The rest of a path, behind the last step of a chain, and what it comes to. -/
inductive Arrival (p : Policy) (n : Node) : List Segment → Resolution → Prop
  /-- The last step was the end of the path, or there was none. -/
  | here : Arrival p n [] { target := .listed n, kind := .normal }
  /-- What follows an enum leaf is ignored. -/
  | marker {c : Node} {name : String} {ignored : List Segment} :
      n.child? name = some c → c.shape = .enumMarker →
      Arrival p n (.field name :: ignored) { target := .listed c, kind := .enum }
  | whole {c : Node} {name : String} {kind : PathKind} :
      n.child? name = some c → c.shape.wholeKind? = some kind →
      Arrival p n [.field name] { target := .listed c, kind }
  | byName {c m : Node} {name member : String} :
      n.child? name = some c → c.shape.isBag = true →
      (isRegularName member || p.isIrregular member) = true → c.child? member = some m →
      Arrival p n [.field name, .field member] { target := .listed m, kind := .attributeEntry }
  | byNumber {c m : Node} {name : String} {k : Nat} {accessor : List Segment} :
      n.child? name = some c → c.shape = .listBag → accessor ∈ accessors →
      c.child? (Decimal.text k) = some m →
      Arrival p n (.field name :: .key k :: accessor)
        { target := .listed m, kind := .attributeEntry }
  /-- The bag does not list the number, and the policy makes an entry up. -/
  | madeUp {c : Node} {name : String} {k : Nat} {accessor : List Segment} :
      n.child? name = some c → c.shape = .listBag → accessor ∈ accessors →
      c.child? (Decimal.text k) = none → p.synthesize = true →
      Arrival p n (.field name :: .key k :: accessor)
        { target := .synthesized c k, kind := .attributeEntry }
  | placeholder {c m : Node} {name : String} {k : Nat} {accessor : List Segment} :
      n.child? name = some c → c.shape.takesExternalKey = true → accessor ∈ accessors →
      c.child? "0" = some m →
      Arrival p n (.field name :: .key k :: accessor)
        { target := .listed m, kind := c.shape.placeholderKind, labelKey := some k }

/-- What is found at the end of the steps, as seen from their start: the first record that was
opened gives the kind and the key. -/
def Resolution.behind (steps : List Step) (r : Resolution) : Resolution :=
  match steps.findSome? (·.key) with
  | none => r
  | some k => { r with kind := .collectionLeaf, collectionKey := some k }

/-- The segments spell a chain from the node, and it arrives at the result. -/
def SpellsChain (p : Policy) (n : Node) (segments : List Segment) (r : Resolution) : Prop :=
  ∃ steps last ending found, segments = steps.flatMap Step.segments ++ ending ∧
    Chain n steps last ∧ Arrival p last ending found ∧ r = found.behind steps

/-! ## The key of a member -/

namespace Segment

/-- A text of one dot and a word is what a path writes for a field of that name. -/
theorem tailChars_eq_word_iff {segments : List Segment} {word : List Char}
    (hread : ∀ s ∈ segments, s.Readable) (hdot : '.' ∉ word) (hcolon : ':' ∉ word) :
    tailChars segments = '.' :: word ↔ segments = [.field (String.ofList word)] := by
  constructor
  · intro h
    match segments with
    | [] => cases h
    | [.field name] =>
        have hchars : name.toList = word := by simpa [tailChars, chars] using h
        rw [← hchars, String.ofList_toList]
    | [.key k] =>
        refine absurd ?_ hcolon
        have hchars : 'k' :: 'e' :: 'y' :: ':' :: Decimal.digits k = word := by
          simpa [tailChars, chars] using h
        simp [← hchars]
    | s :: next :: rest =>
        refine absurd ?_ hdot
        have hchars : s.chars ++ tailChars (next :: rest) = word := by
          simpa [tailChars] using h
        simp [← hchars, tailChars]
  · rintro rfl
    simp [tailChars, chars]

end Segment

/-- The marker of a key ends where the key ends. -/
theorem leading?_joinChars (k : Nat) (rest : List Segment) :
    KeyMarker.leading? (Segment.joinChars (.key k :: rest)) =
      some (Decimal.digits k, Segment.tailChars rest) := by
  have hkey := KeyMarker.leading?_key (Decimal.digits_ne_nil k) fun c =>
    Decimal.isDigit_of_mem_digits
  rw [Segment.joinChars_cons]
  cases rest with
  | nil => simpa [Segment.chars, Segment.tailChars] using hkey
  | cons s rest =>
      have hdot := KeyMarker.leading?_append_dot (Segment.key k).chars
        (s.chars ++ Segment.tailChars rest)
      rw [Segment.chars, hkey] at hdot
      exact hdot

/-- What may follow a key is either nothing or one of two words behind a dot. -/
theorem dropAccessor_tailChars {segments : List Segment} (hread : ∀ s ∈ segments, s.Readable) :
    KeyMarker.dropAccessor (Segment.tailChars segments) = [] ↔ segments ∈ accessors := by
  have hkey : Segment.tailChars segments = '.' :: ['k', 'e', 'y'] ↔ segments = [.field "key"] :=
    Segment.tailChars_eq_word_iff hread (by decide) (by decide)
  have hvalue : Segment.tailChars segments = '.' :: ['v', 'a', 'l', 'u', 'e'] ↔
      segments = [.field "value"] :=
    Segment.tailChars_eq_word_iff hread (by decide) (by decide)
  have hnil : Segment.tailChars segments = [] ↔ segments = [] := by
    cases segments with
    | nil => exact iff_of_true rfl rfl
    | cons s rest => exact iff_of_false nofun nofun
  -- Of the accessors with an underscore there is none, since a text of segments begins with a dot.
  have hdot : ∀ word, Segment.tailChars segments ≠ '_' :: word := by
    intro word
    cases segments with
    | nil => exact nofun
    | cons s rest => exact fun h => absurd (List.cons.inj h).1 (by decide)
  simp only [KeyMarker.dropAccessor_eq_nil_iff, KeyMarker.accessorTexts, accessors, List.mem_cons,
    List.not_mem_nil, or_false, hnil, hkey, hvalue, hdot, false_or]

/-- The reader of remainders works on text.  Of segments that were read from a path it takes one
key with at most one accessor, and nothing else. -/
theorem keyRemainder?_eq_some_iff {rest : List Segment} {k : Nat}
    (hread : ∀ s ∈ rest, s.Readable) :
    keyRemainder? rest = some k ↔ ∃ accessor ∈ accessors, rest = .key k :: accessor := by
  match rest with
  | [] => simp [keyRemainder?]
  | .field name :: more => simp [keyRemainder?]
  | .key n :: more =>
      have hn : n ≤ Decimal.maxKey := hread _ List.mem_cons_self
      have hmore := dropAccessor_tailChars fun s hs => hread s (List.mem_cons_of_mem _ hs)
      have htext : KeyMarker.read? (Segment.joinChars (.key n :: more)) =
          some (n, KeyMarker.dropAccessor (Segment.tailChars more)) := by
        simp only [KeyMarker.read?, leading?_joinChars, Option.bind_eq_bind, Option.bind_some,
          Decimal.readKey?_digits hn]
      simp only [keyRemainder?, htext]
      constructor
      · intro h
        split at h
        · next hdrop =>
            simp only [Option.some.injEq, Prod.mk.injEq] at hdrop h
            obtain ⟨rfl, hdrop⟩ := hdrop
            subst h
            exact ⟨more, hmore.mp hdrop, rfl⟩
        · cases h
      · rintro ⟨accessor, haccessor, h⟩
        obtain ⟨hkey, rfl⟩ := List.cons.inj h
        cases hkey
        rw [hmore.mpr haccessor]

/-- One key is a remainder that reads as that key. -/
theorem keyRemainder?_key {k : Nat} (hk : k ≤ Decimal.maxKey) :
    keyRemainder? [.key k] = some k := by
  refine (keyRemainder?_eq_some_iff fun s hs => ?_).mpr ⟨[], List.mem_cons_self, rfl⟩
  rw [List.mem_singleton.mp hs]
  exact hk

/-! ## Chains and descents -/

/-- The first key counts, and a step without one does not show. -/
theorem Resolution.behind_cons (s : Step) (steps : List Step) (r : Resolution) :
    r.behind (s :: steps) = match s.key with
      | none => r.behind steps
      | some k => insideRecord k (r.behind steps) := by
  rw [behind, List.findSome?_cons]
  cases s.key with
  | none => rfl
  | some k =>
      rw [behind]
      cases steps.findSome? (·.key) <;> rfl

section

variable {p : Policy} {n last c m : Node} {name : String} {segments rest accessor : List Segment}
  {steps : List Step} {k : Nat} {r : Resolution}

theorem exists_accessor (hread : ∀ s ∈ Segment.field name :: rest, s.Readable)
    (hkey : keyRemainder? rest = some k) : ∃ accessor ∈ accessors, rest = .key k :: accessor :=
  (keyRemainder?_eq_some_iff fun s hs => hread s (List.mem_cons_of_mem _ hs)).mp hkey

theorem keyRemainder?_accessor (hread : ∀ s ∈ Segment.field name :: .key k :: accessor, s.Readable)
    (haccessor : accessor ∈ accessors) : keyRemainder? (.key k :: accessor) = some k :=
  (keyRemainder?_eq_some_iff fun s hs => hread s (List.mem_cons_of_mem _ hs)).mpr
    ⟨accessor, haccessor, rfl⟩

theorem Arrival.descent (h : Arrival p n segments r) (hread : ∀ s ∈ segments, s.Readable) :
    Descent p n segments r := by
  cases h with
  | here => exact .here
  | marker hc hshape => exact .marker hc hshape
  | @whole c _ _ hc hkind =>
      cases hshape : c.shape with
      | plain | enumMarker => simp [hshape, Shape.wholeKind?] at hkind
      | listBag | mapBag =>
          rw [hshape] at hkind
          cases hkind
          exact .bagWhole hc (by rw [hshape]; rfl)
      | keyedRecords =>
          rw [hshape] at hkind
          cases hkind
          exact .collection hc hshape
      | labelMap =>
          rw [hshape] at hkind
          cases hkind
          exact .labelsWhole hc hshape
  | byName hc hbag hname hm => exact .bagName hc hbag hname hm
  | byNumber hc hshape haccessor hm =>
      exact .bagNumber hc hshape (keyRemainder?_accessor hread haccessor) hm
  | madeUp hc hshape haccessor hm hpolicy =>
      exact .bagMadeUp hc hshape (keyRemainder?_accessor hread haccessor) hm hpolicy
  | @placeholder c _ _ _ _ hc hexternal haccessor hm =>
      have hkey := keyRemainder?_accessor hread haccessor
      cases hshape : c.shape with
      | plain | enumMarker | listBag | keyedRecords =>
          simp [hshape, Shape.takesExternalKey] at hexternal
      | mapBag => exact .bagPlaceholder hc hshape hkey hm
      | labelMap => exact .labelsPlaceholder hc hshape hkey hm

/-- Steps in front of a descent make a longer one. -/
theorem Chain.descent (h : Chain n steps last) (hlast : Descent p last rest r) :
    Descent p n (steps.flatMap Step.segments ++ rest) (r.behind steps) := by
  induction h with
  | nil => exact hlast
  | @cons n last s steps hc hgoes _ ih =>
      have hinner := ih hlast
      rw [Resolution.behind_cons, List.flatMap_cons, List.append_assoc]
      rcases hgoes with ⟨hshape, hkey⟩ | ⟨hshape, hkey⟩
      · rw [Step.segments, hkey]
        exact .plain hc hshape hinner
      · obtain ⟨k, hk⟩ := Option.isSome_iff_exists.mp hkey
        rw [Step.segments, hk]
        exact .record hc hshape hinner

/-- A chain may be entered one step earlier. -/
theorem SpellsChain.cons {s : Step} (hc : n.child? s.name = some s.node) (hgoes : s.GoesOn)
    (h : SpellsChain p s.node rest r) :
    SpellsChain p n (s.segments ++ rest)
      (match s.key with
        | none => r
        | some k => insideRecord k r) := by
  obtain ⟨steps, last, ending, found, rfl, hchain, harrival, rfl⟩ := h
  refine ⟨s :: steps, last, ending, found, ?_, .cons hc hgoes hchain, harrival, ?_⟩
  · rw [List.flatMap_cons, List.append_assoc]
  · rw [Resolution.behind_cons]

theorem Arrival.spellsChain (h : Arrival p n segments r) : SpellsChain p n segments r :=
  ⟨[], n, segments, r, rfl, .nil, h, rfl⟩

theorem Descent.spellsChain (h : Descent p n segments r) (hread : ∀ s ∈ segments, s.Readable) :
    SpellsChain p n segments r := by
  induction h with
  | here => exact Arrival.here.spellsChain
  | @plain n c name rest r hc hshape _ ih =>
      have hrest := ih fun s hs => hread s (List.mem_cons_of_mem _ hs)
      exact .cons (s := ⟨name, c, none⟩) hc (Or.inl ⟨hshape, rfl⟩) hrest
  | @record n c name k inner r hc hshape _ ih =>
      have hinner := ih fun s hs => hread s (List.mem_cons_of_mem _ (List.mem_cons_of_mem _ hs))
      exact .cons (s := ⟨name, c, some k⟩) hc (Or.inr ⟨hshape, rfl⟩) hinner
  | marker hc hshape => exact (Arrival.marker hc hshape).spellsChain
  | @bagWhole n c _ hc hbag =>
      refine (Arrival.whole hc ?_).spellsChain
      cases hshape : c.shape <;> simp [hshape, Shape.isBag, Shape.wholeKind?] at hbag ⊢
  | labelsWhole hc hshape => exact (Arrival.whole hc (by rw [hshape]; rfl)).spellsChain
  | collection hc hshape => exact (Arrival.whole hc (by rw [hshape]; rfl)).spellsChain
  | bagName hc hbag hname hm => exact (Arrival.byName hc hbag hname hm).spellsChain
  | @bagPlaceholder _ _ _ _ _ k hc hshape hkey hm
  | @labelsPlaceholder _ _ _ _ _ k hc hshape hkey hm =>
      obtain ⟨accessor, haccessor, rfl⟩ := exists_accessor hread hkey
      have harrival := Arrival.placeholder (p := p) (k := k) hc (by rw [hshape]; rfl) haccessor hm
      rw [hshape] at harrival
      exact harrival.spellsChain
  | bagNumber hc hshape hkey hm =>
      obtain ⟨accessor, haccessor, rfl⟩ := exists_accessor hread hkey
      exact (Arrival.byNumber hc hshape haccessor hm).spellsChain
  | bagMadeUp hc hshape hkey hm hpolicy =>
      obtain ⟨accessor, haccessor, rfl⟩ := exists_accessor hread hkey
      exact (Arrival.madeUp hc hshape haccessor hm hpolicy).spellsChain

/-- On segments that were read from a path, descending is following a chain. -/
theorem descent_iff_spellsChain (hread : ∀ s ∈ segments, s.Readable) :
    Descent p n segments r ↔ SpellsChain p n segments r := by
  constructor
  · intro h
    exact h.spellsChain hread
  · rintro ⟨steps, last, ending, found, rfl, hchain, harrival, rfl⟩
    exact hchain.descent
      (harrival.descent fun s hs => hread s (List.mem_append_right _ hs))

end

/-! ## What is passed -/

theorem Step.segments_of_no_key {steps : List Step} (h : ∀ s ∈ steps, s.key = none) :
    steps.flatMap Step.segments = (steps.map (·.name)).map .field := by
  induction steps with
  | nil => rfl
  | cons s rest ih =>
      have hs : s.segments = [.field s.name] := by
        rw [Step.segments, h s List.mem_cons_self]
        rfl
      rw [List.flatMap_cons, hs, ih fun x hx => h x (List.mem_cons_of_mem s hx)]
      rfl

/-- Segments that are names are spelt by steps without keys. -/
theorem Step.key_eq_none {steps : List Step} {ending : List Segment} {names : List String}
    (h : names.map .field = steps.flatMap Step.segments ++ ending) : ∀ s ∈ steps, s.key = none := by
  intro s hs
  cases hkey : s.key with
  | none => rfl
  | some k =>
      have hmem : Segment.key k ∈ names.map Segment.field := by
        rw [h]
        refine List.mem_append_left _ (List.mem_flatMap_of_mem hs ?_)
        simp [segments, hkey]
      obtain ⟨_, -, hfield⟩ := List.mem_map.mp hmem
      cases hfield

theorem Resolution.behind_of_no_key {steps : List Step} (h : ∀ s ∈ steps, s.key = none)
    (r : Resolution) : r.behind steps = r := by
  rw [behind, List.findSome?_eq_none_iff.mpr h]

theorem Resolution.target_behind (steps : List Step) (r : Resolution) :
    (r.behind steps).target = r.target := by
  rw [behind]
  split <;> rfl

namespace Chain

variable {n last : Node} {steps : List Step}

/-- A chain is a walk along its names. -/
theorem walk? (h : Chain n steps last) : n.walk? (steps.map (·.name)) = some last := by
  induction h with
  | nil => rfl
  | cons hc _ _ ih => rw [List.map_cons, Place.walk?, hc, Option.bind_some, ih]

theorem last_mem_nodes (h : Chain n steps last) {t : Tree} (hn : n ∈ t.nodes) :
    last ∈ t.nodes := by
  induction h with
  | nil => exact hn
  | cons hc _ _ ih => exact ih (Tree.mem_nodes_of_child? hn hc)

/-- The steps of a chain pass plain nodes and records only. -/
theorem shape_last (h : Chain n steps last) (hn : n.shape = .plain ∨ n.shape = .keyedRecords) :
    last.shape = .plain ∨ last.shape = .keyedRecords := by
  induction h with
  | nil => exact hn
  | cons _ hgoes _ ih => exact ih (hgoes.imp And.left And.left)

end Chain

/-! ## Whole paths -/

theorem descent_iff_of_parse {p : Policy} {start : Node} {raw : String} {path : Path}
    {rest : List Segment} {r : Resolution} (hparse : Path.parse raw = .ok path)
    (hsegments : path.segments = .field start.name :: rest) :
    Descent p start rest r ↔ SpellsChain p start rest r :=
  descent_iff_spellsChain (Path.rest_of_parse hparse hsegments).1

/-- What a path resolves to is what a chain that its segments spell arrives at. -/
theorem exists_chain_of_resolveFrom {p : Policy} {start : Node} {raw : String} {r : Resolution}
    (found : resolveFrom p start raw = .ok r) :
    ∃ path, Path.parse raw = .ok path ∧ ∃ rest, path.segments = .field start.name :: rest ∧
      ∃ inner, SpellsChain p start rest inner ∧ r = { inner with tag := path.tag } := by
  obtain ⟨path, hparse, rest, hsegments, inner, hdescent, rfl⟩ := resolveFrom_eq_ok_iff.mp found
  have hspells := (descent_iff_of_parse hparse hsegments).mp hdescent
  exact ⟨path, hparse, rest, hsegments, inner, hspells, rfl⟩

/-- A path resolves exactly if it can be read, its first segment is the name of the start, and
the others spell a chain; the result is what the chain arrives at, with the tag of the path. -/
theorem resolveFrom_eq_ok_iff_chain {p : Policy} {start : Node} {raw : String} {r : Resolution} :
    resolveFrom p start raw = .ok r ↔
      ∃ path, Path.parse raw = .ok path ∧ ∃ rest, path.segments = .field start.name :: rest ∧
        ∃ found, SpellsChain p start rest found ∧ r = { found with tag := path.tag } := by
  constructor
  · exact exists_chain_of_resolveFrom
  · rintro ⟨path, hparse, rest, hsegments, found, hspells, rfl⟩
    have hdescent := (descent_iff_of_parse hparse hsegments).mpr hspells
    exact resolveFrom_eq_ok_iff.mpr ⟨path, hparse, rest, hsegments, found, hdescent, rfl⟩

end FieldAtlas
