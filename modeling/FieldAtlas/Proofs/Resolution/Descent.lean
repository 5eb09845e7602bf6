import FieldAtlas.Proofs.Path.Grammar
import FieldAtlas.Resolution.Basic

/-!
# `Descent` — every way in which a path can lead somewhere

`Descent p n segments r` lists the ways down from a node: one rule for each shape of child and
each remainder that it accepts.  `descend_eq_ok_iff` says that these are all.  A fact about
successful resolution is an induction on the rules, and none of them has to open the resolver
again.
-/

namespace FieldAtlas

/-- The segments lead from the node to the result. -/
inductive Descent (p : Policy) : Node → List Segment → Resolution → Prop
  | here {n : Node} : Descent p n [] { target := .listed n, kind := .normal }
  | plain {n c : Node} {name : String} {rest : List Segment} {r : Resolution} :
      n.child? name = some c → c.shape = .plain → Descent p c rest r →
      Descent p n (.field name :: rest) r
  /-- What follows an enum leaf is ignored. -/
  | marker {n c : Node} {name : String} {rest : List Segment} :
      n.child? name = some c → c.shape = .enumMarker →
      Descent p n (.field name :: rest) { target := .listed c, kind := .enum }
  | bagWhole {n c : Node} {name : String} :
      n.child? name = some c → c.shape.isBag = true →
      Descent p n [.field name] { target := .listed c, kind := .collectionList }
  | bagPlaceholder {n c m : Node} {name : String} {rest : List Segment} {k : Nat} :
      n.child? name = some c → c.shape = .mapBag → keyRemainder? rest = some k →
      c.child? "0" = some m →
      Descent p n (.field name :: rest)
        { target := .listed m, kind := .attributeEntry, labelKey := some k }
  | bagNumber {n c m : Node} {name : String} {rest : List Segment} {k : Nat} :
      n.child? name = some c → c.shape = .listBag → keyRemainder? rest = some k →
      c.child? (Decimal.text k) = some m →
      Descent p n (.field name :: rest) { target := .listed m, kind := .attributeEntry }
  | bagMadeUp {n c : Node} {name : String} {rest : List Segment} {k : Nat} :
      n.child? name = some c → c.shape = .listBag → keyRemainder? rest = some k →
      c.child? (Decimal.text k) = none → p.synthesize = true →
      Descent p n (.field name :: rest) { target := .synthesized c k, kind := .attributeEntry }
  | bagName {n c m : Node} {name member : String} :
      n.child? name = some c → c.shape.isBag = true →
      (isRegularName member || p.isIrregular member) = true → c.child? member = some m →
      Descent p n [.field name, .field member] { target := .listed m, kind := .attributeEntry }
  | labelsWhole {n c : Node} {name : String} :
      n.child? name = some c → c.shape = .labelMap →
      Descent p n [.field name] { target := .listed c, kind := .labelMapWhole }
  | labelsPlaceholder {n c m : Node} {name : String} {rest : List Segment} {k : Nat} :
      n.child? name = some c → c.shape = .labelMap → keyRemainder? rest = some k →
      c.child? "0" = some m →
      Descent p n (.field name :: rest)
        { target := .listed m, kind := .labelMapLeaf, labelKey := some k }
  | collection {n c : Node} {name : String} :
      n.child? name = some c → c.shape = .keyedRecords →
      Descent p n [.field name] { target := .listed c, kind := .collectionList }
  | record {n c : Node} {name : String} {k : Nat} {inner : List Segment} {r : Resolution} :
      n.child? name = some c → c.shape = .keyedRecords → Descent p c inner r →
      Descent p n (.field name :: .key k :: inner) (insideRecord k r)

/-! ## Remainders -/

theorem placeholder_eq_ok_iff {n : Node} {k : Nat} {kind : PathKind} {r : Resolution} :
    placeholder n k kind = .ok r ↔ ∃ m, n.child? "0" = some m ∧
      r = { target := .listed m, kind, labelKey := some k } := by
  rw [placeholder]
  cases n.child? "0" <;> simp [@eq_comm _ r]

theorem entryByKey_eq_ok_iff {p : Policy} {bag : Node} {k : Nat} {r : Resolution} :
    entryByKey p bag k = .ok r ↔
      (∃ m, bag.child? (Decimal.text k) = some m ∧
        r = { target := .listed m, kind := .attributeEntry }) ∨
      (bag.child? (Decimal.text k) = none ∧ p.synthesize = true ∧
        r = { target := .synthesized bag k, kind := .attributeEntry }) := by
  rw [entryByKey]
  cases bag.child? (Decimal.text k) with
  | some m => simp [@eq_comm _ r]
  | none => cases p.synthesize <;> simp [@eq_comm _ r]

theorem resolveBag_eq_ok_iff {p : Policy} {bag : Node} {rest : List Segment} {r : Resolution} :
    resolveBag p bag rest = .ok r ↔
      (rest = [] ∧ r = { target := .listed bag, kind := .collectionList }) ∨
      (∃ k, keyRemainder? rest = some k ∧
        (if bag.shape.takesExternalKey then placeholder bag k .attributeEntry
          else entryByKey p bag k) = .ok r) ∨
      (∃ member m, rest = [.field member] ∧
        (isRegularName member || p.isIrregular member) = true ∧ bag.child? member = some m ∧
        r = { target := .listed m, kind := .attributeEntry }) := by
  unfold resolveBag
  match rest with
  | [] => simp [keyRemainder?, @eq_comm _ r]
  | .key n :: more =>
      rw [if_neg (List.cons_ne_nil _ _)]
      cases keyRemainder? (.key n :: more) <;> simp
  | [.field member] =>
      rw [if_neg (List.cons_ne_nil _ _)]
      simp only [keyRemainder?]
      constructor
      · intro h
        split at h
        · next hname =>
            split at h
            · next m hm =>
                cases h
                exact Or.inr (Or.inr ⟨member, m, rfl, hname, hm, rfl⟩)
            · cases h
        · cases h
      · rintro (⟨h, -⟩ | ⟨_, h, -⟩ | ⟨_, m, h, hname, hm, rfl⟩)
        · cases h
        · cases h
        · cases h
          simp only [if_pos hname, hm]
  | .field member :: s :: more => simp [keyRemainder?]

theorem resolveLabels_eq_ok_iff {labels : Node} {rest : List Segment} {r : Resolution} :
    resolveLabels labels rest = .ok r ↔
      (rest = [] ∧ r = { target := .listed labels, kind := .labelMapWhole }) ∨
      (∃ k, keyRemainder? rest = some k ∧ placeholder labels k .labelMapLeaf = .ok r) := by
  unfold resolveLabels
  match rest with
  | [] => simp [keyRemainder?, @eq_comm _ r]
  | s :: more =>
      rw [if_neg (List.cons_ne_nil _ _)]
      cases keyRemainder? (s :: more) <;> simp

/-! ## The rules are complete -/

section

variable {p : Policy} {n c : Node} {name : String} {rest : List Segment} {r : Resolution}

theorem descent_of_resolveBag (hc : n.child? name = some c) (hbag : c.shape.isBag = true)
    (h : resolveBag p c rest = .ok r) : Descent p n (.field name :: rest) r := by
  rcases resolveBag_eq_ok_iff.mp h with ⟨rfl, rfl⟩ | ⟨k, hk, h⟩ | ⟨member, m, rfl, hname, hm, rfl⟩
  · exact .bagWhole hc hbag
  · cases hshape : c.shape with
    | plain | enumMarker | keyedRecords | labelMap => simp [hshape, Shape.isBag] at hbag
    | mapBag =>
        have hk' : placeholder c k .attributeEntry = .ok r := by
          simpa [hshape, Shape.takesExternalKey] using h
        obtain ⟨m, hm, rfl⟩ := placeholder_eq_ok_iff.mp hk'
        exact .bagPlaceholder hc hshape hk hm
    | listBag =>
        have hk' : entryByKey p c k = .ok r := by
          simpa [hshape, Shape.takesExternalKey] using h
        rcases entryByKey_eq_ok_iff.mp hk' with ⟨m, hm, rfl⟩ | ⟨hm, hpolicy, rfl⟩
        · exact .bagNumber hc hshape hk hm
        · exact .bagMadeUp hc hshape hk hm hpolicy
  · exact .bagName hc hbag hname hm

theorem descent_of_resolveLabels (hc : n.child? name = some c) (hlabels : c.shape = .labelMap)
    (h : resolveLabels c rest = .ok r) : Descent p n (.field name :: rest) r := by
  rcases resolveLabels_eq_ok_iff.mp h with ⟨rfl, rfl⟩ | ⟨k, hk, h⟩
  · exact .labelsWhole hc hlabels
  · obtain ⟨m, hm, rfl⟩ := placeholder_eq_ok_iff.mp h
    exact .labelsPlaceholder hc hlabels hk hm

end

theorem descent_of_descend {p : Policy} :
    ∀ {segments : List Segment} {n : Node} {r : Resolution}, descend p n segments = .ok r →
      Descent p n segments r
  | [], n, r, h => by
      rw [descend] at h
      cases h
      exact .here
  | .key k :: rest, n, r, h => by
      rw [descend] at h
      cases h
  | .field name :: rest, n, r, h => by
      rw [descend] at h
      split at h
      · cases h
      · next c hc =>
          split at h
          case h_1 hshape => exact .plain hc hshape (descent_of_descend h)
          case h_2 hshape =>
            cases h
            exact .marker hc hshape
          case h_3 hshape => exact descent_of_resolveBag hc (by rw [hshape]; rfl) h
          case h_4 hshape => exact descent_of_resolveBag hc (by rw [hshape]; rfl) h
          case h_5 hshape => exact descent_of_resolveLabels hc hshape h
          case h_6 hshape =>
            split at h
            · cases h
              exact .collection hc hshape
            · obtain ⟨inside, hinside, rfl⟩ := map_eq_ok_iff.mp h
              exact .record hc hshape (descent_of_descend hinside)
            · cases h

theorem descend_bag {p : Policy} {n c : Node} {name : String} {rest : List Segment}
    {r : Resolution} (hc : n.child? name = some c) (hbag : c.shape.isBag = true)
    (h : resolveBag p c rest = .ok r) : descend p n (.field name :: rest) = .ok r := by
  cases hshape : c.shape with
  | plain | enumMarker | keyedRecords | labelMap => simp [hshape, Shape.isBag] at hbag
  | listBag | mapBag => simp only [descend, hc, hshape, h]

theorem descend_of_descent {p : Policy} {n : Node} {segments : List Segment} {r : Resolution}
    (h : Descent p n segments r) : descend p n segments = .ok r := by
  induction h with
  | here => rfl
  | plain hc hshape _ ih => simp only [descend, hc, hshape, ih]
  | marker hc hshape => simp only [descend, hc, hshape]
  | bagWhole hc hbag => exact descend_bag hc hbag (resolveBag_eq_ok_iff.mpr (Or.inl ⟨rfl, rfl⟩))
  | bagPlaceholder hc hshape hk hm =>
      refine descend_bag hc (by rw [hshape]; rfl) (resolveBag_eq_ok_iff.mpr ?_)
      refine Or.inr (Or.inl ⟨_, hk, ?_⟩)
      rw [hshape, if_pos (by rfl)]
      exact placeholder_eq_ok_iff.mpr ⟨_, hm, rfl⟩
  | bagNumber hc hshape hk hm =>
      refine descend_bag hc (by rw [hshape]; rfl) (resolveBag_eq_ok_iff.mpr ?_)
      refine Or.inr (Or.inl ⟨_, hk, ?_⟩)
      rw [hshape, if_neg (by simp [Shape.takesExternalKey])]
      exact entryByKey_eq_ok_iff.mpr (Or.inl ⟨_, hm, rfl⟩)
  | bagMadeUp hc hshape hk hm hpolicy =>
      refine descend_bag hc (by rw [hshape]; rfl) (resolveBag_eq_ok_iff.mpr ?_)
      refine Or.inr (Or.inl ⟨_, hk, ?_⟩)
      rw [hshape, if_neg (by simp [Shape.takesExternalKey])]
      exact entryByKey_eq_ok_iff.mpr (Or.inr ⟨hm, hpolicy, rfl⟩)
  | bagName hc hbag hname hm =>
      exact descend_bag hc hbag
        (resolveBag_eq_ok_iff.mpr (Or.inr (Or.inr ⟨_, _, rfl, hname, hm, rfl⟩)))
  | labelsWhole hc hshape =>
      simp only [descend, hc, hshape]
      exact resolveLabels_eq_ok_iff.mpr (Or.inl ⟨rfl, rfl⟩)
  | labelsPlaceholder hc hshape hk hm =>
      simp only [descend, hc, hshape]
      exact resolveLabels_eq_ok_iff.mpr
        (Or.inr ⟨_, hk, placeholder_eq_ok_iff.mpr ⟨_, hm, rfl⟩⟩)
  | collection hc hshape => simp only [descend, hc, hshape]
  | record hc hshape _ ih => simp only [descend, hc, hshape, ih, Except.map]

/-- The rules are exactly what the resolver does. -/
theorem descend_eq_ok_iff {p : Policy} {n : Node} {segments : List Segment} {r : Resolution} :
    descend p n segments = .ok r ↔ Descent p n segments r :=
  ⟨descent_of_descend, descend_of_descent⟩

/-- A path resolves to what its segments lead to, the first of them being the name of the start,
and the tag of the path is all that is added. -/
theorem resolveFrom_eq_ok_iff {p : Policy} {start : Node} {raw : String} {r : Resolution} :
    resolveFrom p start raw = .ok r ↔
      ∃ path, Path.parse raw = .ok path ∧ ∃ rest, path.segments = .field start.name :: rest ∧
        ∃ inner, Descent p start rest inner ∧ r = { inner with tag := path.tag } := by
  have hwalk : ∀ path : Path, walk p start path = .ok r ↔
      ∃ rest, path.segments = .field start.name :: rest ∧
        ∃ inner, Descent p start rest inner ∧ r = { inner with tag := path.tag } := by
    intro path
    rw [walk]
    match path.segments with
    | [] => simp
    | first :: rest =>
        by_cases hfirst : first = .field start.name
        · simp [hfirst, map_eq_ok_iff, descend_eq_ok_iff, @eq_comm _ r]
        · simp [hfirst]
  have hbind : resolveFrom p start raw = .ok r ↔ (Path.parse raw).bind (walk p start) = .ok r := by
    rw [resolveFrom]
    cases (Path.parse raw).bind (walk p start) with
    | ok _ => rfl
    | error failure =>
        by_cases houtside : p.isOutside (Path.splitTag raw).1 = true <;> simp [houtside]
  rw [hbind]
  cases Path.parse raw with
  | error failure => simp [Except.bind]
  | ok path => simp only [Except.bind, Except.ok.injEq, exists_eq_left', hwalk]

end FieldAtlas
