import FieldAtlas.Proofs.Tree.Invariant

/-!
# `ChildMap` — the tree has the children that its declarations say

The builder grows whole subtrees and hands them to their parents; the declarations only grant
keys, one level at a time.  `Tree.follows_of_build` says that nobody can tell the two apart by
walking: a list of keys leads somewhere in the tree exactly if it does so by the declarations,
and where it leads, the child map of the node is the register of the source.

Since a register depends on its own source and on nothing else, what is built below one field
never touches the children of another.
-/

namespace FieldAtlas

namespace Place

/-- The children of the node are those of the source: the same keys in the same order, each for
the same child, and each child as its declaration has it. -/
structure Follows (v : Vocabulary) (n : Node) (s : Source) : Prop where
  childIds : n.childIds.map (fun p => (p.1, some p.2)) =
    (s.register v).index.map fun p => (p.1, n.below[p.2]?.map (·.id))
  child? : ∀ key, n.child? key = ((s.register v).index.lookup key).bind (n.below[·]?)
  below : List.Forall₂
    (fun c x => c.name = x.name ∧ c.shape = x.shape ∧ c.entry.ordinal = x.ordinal) n.below
      (s.register v).seeds

/-! ## Keys and positions -/

theorem lookup_map_const {α : Type} (keys : List String) (x : α) (key : String) :
    (keys.map (·, x)).lookup key = if keys.contains key then some x else none := by
  induction keys with
  | nil => rfl
  | cons k ks ih =>
      rw [List.map_cons, List.lookup_cons, ih, List.contains_cons]
      cases key == k <;> rfl

/-- The position under a key is that of the first node that answers to it. -/
theorem lookup_keyIndex (key : String) :
    ∀ (i : Nat) (cs : List Node), (keyIndex i (cs.map (·.entry))).lookup key =
      (cs.findIdx? (·.entry.keys.contains key)).map (i + ·)
  | _, [] => rfl
  | i, c :: cs => by
      rw [List.map_cons, keyIndex, List.lookup_append, lookup_map_const,
        lookup_keyIndex key (i + 1) cs, List.findIdx?_cons]
      split
      · rfl
      · cases cs.findIdx? (·.entry.keys.contains key) with
        | none => rfl
        | some j =>
            show some (i + 1 + j) = some (i + (j + 1))
            congr 1
            omega

/-- What is listed by key and owner is listed by key and position. -/
theorem map_keyIndex {β : Type} {f : Node → β} (g : Nat → β) :
    ∀ {i : Nat} {cs : List Node}, (∀ j c, cs[j]? = some c → g (i + j) = f c) →
      (keyIndex i (cs.map (·.entry))).map (fun p => (p.1, g p.2)) =
        cs.flatMap fun c => c.entry.keys.map (·, f c)
  | _, [], _ => rfl
  | i, c :: cs, h => by
      have hfirst : g i = f c := h 0 c rfl
      have hrest : ∀ j d, cs[j]? = some d → g (i + 1 + j) = f d := by
        intro j d hd
        have := h (j + 1) d (by rw [List.getElem?_cons_succ, hd])
        rwa [Nat.add_right_comm, Nat.add_assoc]
      rw [List.map_cons, keyIndex, List.map_append, map_keyIndex g hrest, List.flatMap_cons,
        List.map_map, ← hfirst]
      rfl

theorem Declared.follows {v : Vocabulary} {n : Node} {s : Source} (h : n.Declared v s) :
    n.Follows v s where
  childIds := by
    have howners : ∀ j c, n.below[j]? = some c → n.below[0 + j]?.map (·.id) = some c.id := by
      intro j c hc
      rw [Nat.zero_add, hc]
      rfl
    rw [← h.keyIndex_below, map_keyIndex (n.below[·]?.map (·.id)) howners, childIds,
      List.map_flatMap]
    simp only [List.map_map]
    rfl
  child? := by
    intro key
    rw [← h.keyIndex_below, lookup_keyIndex, child?, List.find?_eq_bind_findIdx?_getElem?]
    simp only [Nat.zero_add, Option.map_id']
  below := h.forall₂_below.imp fun _ _ ⟨hfits, _⟩ => ⟨hfits.name, hfits.shape, hfits.ordinal⟩

/-! ## Walking both ways -/

theorem rel_getElem? {α β : Type} {R : α → β → Prop} :
    ∀ {xs : List α} {ys : List β}, List.Forall₂ R xs ys → ∀ i : Nat, Option.Rel R xs[i]? ys[i]?
  | [], [], .nil, _ => .none
  | _ :: _, _ :: _, .cons hR _, 0 => .some hR
  | _ :: _, _ :: _, .cons _ hrest, i + 1 => by
      rw [List.getElem?_cons_succ, List.getElem?_cons_succ]
      exact rel_getElem? hrest i

/-- A key leads to a child exactly if it does in the register, and the child is as its seed says and
accounted for by the source of the seed. -/
theorem Declared.child? {v : Vocabulary} {n : Node} {s : Source} (h : n.Declared v s)
    (key : String) :
    Option.Rel (fun c x => c.entry.Fits x ∧ c.Declared v x.source) (n.child? key)
      ((s.register v).child? key) := by
  rw [h.follows.child?, Register.child?]
  cases (s.register v).index.lookup key with
  | none => exact .none
  | some i => exact rel_getElem? h.forall₂_below i

theorem Declared.exists_child? {v : Vocabulary} {n : Node} {s : Source} (h : n.Declared v s)
    {key : String} {x : Seed} (hx : (s.register v).child? key = some x) :
    ∃ c, n.child? key = some c ∧ c.entry.Fits x ∧ c.Declared v x.source := by
  have hchild := h.child? key
  rw [hx] at hchild
  cases hc : n.child? key with
  | none => simp [hc] at hchild
  | some c =>
      rw [hc, Option.rel_some_some] at hchild
      exact ⟨c, rfl, hchild⟩

theorem Declared.walk? {v : Vocabulary} :
    ∀ {n : Node} {s : Source}, n.Declared v s → ∀ keys,
      Option.Rel (Place.Declared v) (n.walk? keys) (s.follow v keys)
  | _, _, h, [] => .some h
  | n, s, h, key :: rest => by
      rw [Place.walk?, Source.follow]
      have hchild := h.child? key
      generalize n.child? key = c at hchild
      generalize (s.register v).child? key = x at hchild
      cases hchild with
      | none => exact .none
      | some hc => exact hc.2.walk? rest

end Place

/-- Walking down the tree and walking down the declarations agree: the same keys lead somewhere,
and wherever they lead, the children of the node are those of the source. -/
theorem Tree.follows_of_build {v : Vocabulary} {root : String} {type : Message} {t : Tree}
    (built : (build v root (some type)).value = .ok t) :
    (∀ keys, Option.Rel (Place.Follows v) (t.rootNode.walk? keys)
      (Source.follow v (.fields type) keys)) ∧
    ∀ n ∈ t.nodes, ∃ keys s, t.rootNode.walk? keys = some n ∧
      Source.follow v (.fields type) keys = some s ∧ n.Follows v s := by
  have hroot := (exists_declared built).1
  have hwalk : ∀ keys, Option.Rel (Place.Follows v) (t.rootNode.walk? keys)
      (Source.follow v (.fields type) keys) := by
    intro keys
    have hrel := hroot.walk? keys
    generalize t.rootNode.walk? keys = n at hrel ⊢
    generalize Source.follow v (.fields type) keys = s at hrel ⊢
    cases hrel with
    | none => exact .none
    | some h => exact .some h.follows
  refine ⟨hwalk, fun n hn => ?_⟩
  obtain ⟨keys, hkeys⟩ := (sound_of_build built).exists_walk? n hn
  have hfollows := hwalk keys
  rw [hkeys] at hfollows
  cases hs : Source.follow v (.fields type) keys with
  | none => simp [hs] at hfollows
  | some s =>
      rw [hs, Option.rel_some_some] at hfollows
      exact ⟨keys, s, hkeys, hs, hfollows⟩

theorem Tree.follows_sampleTree :
    (build {} "log" (some sampleLog)).value = .ok sampleTree ∧
      ∀ keys, Option.Rel (Place.Follows {}) (sampleTree.rootNode.walk? keys)
        (Source.follow {} (.fields sampleLog) keys) :=
  ⟨build_sampleLog, (follows_of_build build_sampleLog).1⟩

end FieldAtlas
