import FieldAtlas.Proofs.Tree.ArenaGrowth
import Mathlib.Data.List.Find
import Mathlib.Data.Set.Function

/-!
# `Subtree` — a message grows the same subtree everywhere

What a field grows below its node depends on its message, on the vocabulary, and on whether the
message is repeated.  The name of the field, the place of the field in its message and the rest of
the description do not come into it.  So the subtrees of two fields with one message are the same
up to the numbers of their nodes, which are shifted, and up to what is above them.

`Place.transplant` is that change of a node: it shifts the numbers and puts the subtree below other
ancestors.  It commutes with the steps down (`Place.below_transplant`), and the places of a subtree
that is grown from the same branches elsewhere are the transplants of its places
(`Place.subtree_eq_map`).  From this `SubtreeIso` is put together.
-/

namespace FieldAtlas

/-! ## Changing labels -/

namespace Rose

variable {α β : Type}

mutual
/-- The tree with every label changed. -/
def map (g : α → β) : Rose α → Rose β
  | node a ts => node (g a) (mapForest g ts)

def mapForest (g : α → β) : List (Rose α) → List (Rose β)
  | [] => []
  | t :: ts => t.map g :: mapForest g ts
end

theorem mapForest_eq_map (g : α → β) (ts : List (Rose α)) : mapForest g ts = ts.map (map g) := by
  induction ts with
  | nil => rfl
  | cons t ts ih => rw [mapForest, ih, List.map_cons]

end Rose

namespace Place

variable {α β : Type}

/-- The place with every label changed, and with `base` instead of the first `depth` ancestors. -/
def transplant (g : α → β) (depth : Nat) (base : List β) (p : Place α) : Place β :=
  ⟨g p.label, (p.above.take (p.above.length - depth)).map g ++ base, Rose.mapForest g p.children⟩

variable {g : α → β} {base : List α} {base' : List β}

theorem transplant_mk (a : α) (xs : List α) (ts : List (Rose α)) :
    transplant g base.length base' ⟨a, xs ++ base, ts⟩ =
      ⟨g a, xs.map g ++ base', Rose.mapForest g ts⟩ := by
  rw [transplant, List.length_append, Nat.add_sub_cancel, List.take_left]

/-- Transplanting and stepping down commute. -/
theorem below_transplant {p : Place α} {xs : List α} (habove : p.above = xs ++ base) :
    (transplant g base.length base' p).below = p.below.map (transplant g base.length base') := by
  obtain ⟨a, above, ts⟩ := p
  subst habove
  rw [transplant_mk, below, below, Rose.mapForest_eq_map, List.map_map, List.map_map]
  refine List.map_congr_left fun t _ => ?_
  obtain ⟨b, us⟩ := t
  exact (transplant_mk b (a :: xs) us).symm

end Place

namespace Rose

variable {α β : Type} {g : α → β} {base : List α} {base' : List β}

mutual
/-- The places of a tree with other labels, below other ancestors. -/
theorem places_map (xs : List α) :
    ∀ t : Rose α, (t.map g).places (xs.map g ++ base') =
      (t.places (xs ++ base)).map (Place.transplant g base.length base')
  | node a ts => by
      rw [map, places, places, List.map_cons, Place.transplant_mk]
      exact congrArg (_ :: ·) (forestPlaces_map (a :: xs) ts)

theorem forestPlaces_map (xs : List α) :
    ∀ ts : List (Rose α), forestPlaces (xs.map g ++ base') (mapForest g ts) =
      (forestPlaces (xs ++ base) ts).map (Place.transplant g base.length base')
  | [] => rfl
  | t :: ts => by
      rw [mapForest, forestPlaces, forestPlaces, places_map xs t, forestPlaces_map xs ts,
        List.map_append]
end

end Rose

/-! ## Subtrees -/

namespace Place

/-- The nodes of a subtree, its top first. -/
def subtree (c : Node) : List Node := (Rose.node c.label c.children).places c.above

/-- The label in the subtree of `c'` for a label in that of `c`: the top for the top, and else the
same entry, with the number shifted. -/
def shift (c c' : Node) (l : Label) : Label :=
  if l.id = c.id then c'.label else ⟨l.id - c.id + c'.id, l.entry⟩

/-- The node in the subtree of `c'` for a node in that of `c`. -/
def counterpart (c c' : Node) : Node → Node := transplant (shift c c') c.above.length c'.above

theorem shift_of_lt {c c' : Node} {id : Nat} (h : c.id < id) (e : Entry) :
    shift c c' ⟨id, e⟩ = ⟨id - c.id + c'.id, e⟩ :=
  if_neg (Nat.ne_of_gt h)

end Place

mutual
theorem map_shift_number {c c' : Node} {start : Nat} (h : c.id < start) :
    ∀ b : Branch, (b.number Label.mk start).map (Place.shift c c') =
      b.number Label.mk (start - c.id + c'.id)
  | .node e ts => by
      have hnext : start + 1 - c.id + c'.id = start - c.id + c'.id + 1 := by omega
      rw [Rose.number, Rose.map, Place.shift_of_lt h,
        map_shift_numberForest (Nat.lt_succ_of_lt h) ts, hnext, Rose.number]

theorem map_shift_numberForest {c c' : Node} {start : Nat} (h : c.id < start) :
    ∀ bs : List Branch,
      Rose.mapForest (Place.shift c c') (Rose.numberForest Label.mk start bs) =
        Rose.numberForest Label.mk (start - c.id + c'.id) bs
  | [] => rfl
  | b :: bs => by
      have hnext : start + b.size - c.id + c'.id = start - c.id + c'.id + b.size := by omega
      rw [Rose.numberForest, Rose.mapForest, map_shift_number h b,
        map_shift_numberForest (Nat.lt_add_right _ h) bs, hnext, Rose.numberForest]
end

namespace Place

/-- Below the node stand these branches, numbered on from the node. -/
def Grows (n : Node) (bs : List Branch) : Prop :=
  n.children = Rose.numberForest Label.mk (n.id + 1) bs

theorem Embodies.grows {n : Node} {b : Branch} (h : n.Embodies b) : n.Grows b.children := by
  obtain ⟨taken, start, hnode⟩ := h
  obtain ⟨e, ts⟩ := b
  obtain ⟨hlabel, hchildren⟩ := Rose.node.inj hnode
  have hid : n.id = start := congrArg Label.id hlabel
  rw [Grows, hid]
  exact hchildren

/-- Two subtrees grown from the same branches are transplants of each other. -/
theorem subtree_eq_map {c c' : Node} {bs : List Branch} (h : c.Grows bs) (h' : c'.Grows bs) :
    c'.subtree = c.subtree.map (counterpart c c') := by
  have hnext : c.id + 1 - c.id + c'.id = c'.id + 1 := by omega
  have hmap : (Rose.node c.label c.children).map (shift c c') = .node c'.label c'.children := by
    rw [Rose.map, h, map_shift_numberForest (Nat.lt_succ_self c.id), hnext, ← h', shift]
    exact congrArg (Rose.node · c'.children) (if_pos rfl)
  rw [subtree, ← hmap]
  exact Rose.places_map [] _

end Place

/-! ## The nodes of a subtree -/

namespace Rose

variable {α : Type}

mutual
/-- The places of a subtree stand next to each other. -/
theorem places_isInfix {above : List α} {p : Place α} :
    ∀ {t : Rose α}, p ∈ t.places above →
      (node p.label p.children).places p.above <:+: t.places above
  | node a ts, h => by
      rcases List.mem_cons.mp h with rfl | h
      · exact List.infix_refl _
      · exact (forestPlaces_isInfix h).trans (List.suffix_cons _ _).isInfix

theorem forestPlaces_isInfix {above : List α} {p : Place α} :
    ∀ {ts : List (Rose α)}, p ∈ forestPlaces above ts →
      (node p.label p.children).places p.above <:+: forestPlaces above ts
  | t :: ts, h => by
      rw [forestPlaces, List.mem_append] at h
      rw [forestPlaces]
      rcases h with h | h
      · exact (places_isInfix h).trans (List.prefix_append _ _).isInfix
      · exact (forestPlaces_isInfix h).trans (List.suffix_append _ _).isInfix
end

end Rose

namespace Place

variable {c c' n : Node}

theorem mem_subtree_self (c : Node) : c ∈ c.subtree := List.mem_cons_self

theorem mem_subtree_of_mem_below {d : Node} (hn : n ∈ c.subtree) (hd : d ∈ n.below) :
    d ∈ c.subtree :=
  Rose.mem_places_of_mem_below hn hd

theorem subtree_isInfix {t : Tree} (hc : c ∈ t.nodes) : c.subtree <:+: t.nodes := Rose.places_isInfix hc

theorem eq_or_mem_below_of_mem_subtree (hn : n ∈ c.subtree) :
    n = c ∨ ∃ q ∈ c.subtree, n ∈ q.below :=
  Rose.eq_root_or_mem_below n hn

/-- Below the top the numbers are larger. -/
theorem eq_or_id_lt_of_mem_subtree {bs : List Branch} (h : c.Grows bs) (hn : n ∈ c.subtree) :
    n = c ∨ c.id < n.id := by
  rcases List.mem_cons.mp hn with rfl | hn
  · exact Or.inl rfl
  · rw [h] at hn
    have hid : n.id ∈ (Rose.forestPlaces (c.label :: c.above)
        (Rose.numberForest Label.mk (c.id + 1) bs)).map (·.label.id) := List.mem_map_of_mem hn
    rw [Rose.ids_numberForest, List.mem_range'_1] at hid
    exact Or.inr hid.1

theorem exists_above_eq (hn : n ∈ c.subtree) : ∃ xs, n.above = xs ++ c.above := by
  refine Rose.places_induction (P := fun n : Node => ∃ xs, n.above = xs ++ c.above) ?_ ?_ n hn
  · exact ⟨[], rfl⟩
  · rintro q - ⟨xs, hq⟩ d hd
    exact ⟨q.label :: xs, by rw [above_of_mem_below hd, hq, List.cons_append]⟩

theorem id_counterpart (h : n = c ∨ c.id < n.id) :
    (counterpart c c' n).id = n.id - c.id + c'.id := by
  have hid : (counterpart c c' n).id = (shift c c' n.label).id := rfl
  rw [hid]
  rcases h with rfl | hlt
  · have htop : shift n c' n.label = c'.label := if_pos rfl
    rw [htop, Nat.sub_self, Nat.zero_add]
    rfl
  · exact congrArg Label.id (shift_of_lt hlt n.entry)

theorem below_counterpart (hn : n ∈ c.subtree) :
    (counterpart c c' n).below = n.below.map (counterpart c c') := by
  obtain ⟨xs, habove⟩ := exists_above_eq hn
  exact below_transplant habove

theorem entry_counterpart (h : c.id < n.id) : (counterpart c c' n).entry = n.entry := by
  show (shift c c' ⟨n.id, n.entry⟩).entry = n.entry
  rw [shift_of_lt h]

/-- Nothing else is registered under a key elsewhere. -/
theorem child?_counterpart (hn : n ∈ c.subtree) (hbelow : ∀ d ∈ n.below, c.id < d.id)
    (key : String) : (counterpart c c' n).child? key = (n.child? key).map (counterpart c c') := by
  have hkeys : n.below.find? ((·.entry.keys.contains key) ∘ counterpart c c') =
      n.below.find? (·.entry.keys.contains key) :=
    List.find?_congr fun d hd => by rw [Function.comp_apply, entry_counterpart (hbelow d hd)]
  rw [child?, below_counterpart hn, List.find?_map, hkeys]
  rfl

end Place

namespace Tree

/-- The node is the top of the subtree, or below it. -/
def Within (t : Tree) (c n : Node) : Prop := n ∈ t.nodes ∧ (n = c ∨ c.label ∈ n.above)

theorem Sound.within_iff {t : Tree} (h : t.Sound) {c n : Node} (hc : c ∈ t.nodes) :
    t.Within c n ↔ n ∈ c.subtree := by
  constructor
  · have hdown : ∀ n ∈ t.nodes, (n = c ∨ c.label ∈ n.above) → n ∈ c.subtree := by
      refine nodes_induction ?_ fun q hq ih d hd hwithin => ?_
      · rw [above_rootNode]
        rintro (rfl | hnone)
        · exact Place.mem_subtree_self _
        · exact absurd hnone List.not_mem_nil
      · rw [Place.above_of_mem_below hd, List.mem_cons] at hwithin
        rcases hwithin with rfl | hlabel | habove
        · exact Place.mem_subtree_self _
        · have heq : q = c := h.eq_of_id hq hc (congrArg Label.id hlabel.symm)
          exact Place.mem_subtree_of_mem_below (ih (Or.inl heq)) hd
        · exact Place.mem_subtree_of_mem_below (ih (Or.inr habove)) hd
    exact fun ⟨hn, hwithin⟩ => hdown n hn hwithin
  · have hroot : t.Within c ((Rose.node c.label c.children).place c.above) := ⟨hc, Or.inl rfl⟩
    refine Rose.places_induction (P := t.Within c) hroot ?_ n
    rintro q - ⟨hq, hwithin⟩ d hd
    refine ⟨mem_nodes_of_mem_below hq hd, Or.inr ?_⟩
    rw [Place.above_of_mem_below hd]
    rcases hwithin with rfl | habove
    · exact List.mem_cons_self
    · exact List.mem_cons_of_mem _ habove

/-! ## The same subtree -/

/-- The map takes the subtree of one node to that of another, one to one.  It keeps the children
under every key and the parents, and all that a node says of itself except at the top. -/
structure SubtreeIso (t t' : Tree) (c c' : Node) (φ : Node → Node) : Prop where
  top : φ c = c'
  bijOn : Set.BijOn φ {n | t.Within c n} {n | t'.Within c' n}
  entry : ∀ n, t.Within c n → n ≠ c → (φ n).entry = n.entry
  child? : ∀ n, t.Within c n → ∀ key, (φ n).child? key = (n.child? key).map φ
  parent? : ∀ n, t.Within c n → n ≠ c → t'.parent? (φ n) = (t.parent? n).map φ

/-- Nodes that the same branches are grown below have the same subtrees. -/
theorem subtreeIso_of_grows {t t' : Tree} (h : t.Sound) (h' : t'.Sound) {c c' : Node}
    (hc : c ∈ t.nodes) (hc' : c' ∈ t'.nodes) {bs : List Branch} (hgrows : c.Grows bs)
    (hgrows' : c'.Grows bs) : SubtreeIso t t' c c' (Place.counterpart c c') := by
  have hwithin : ∀ {n}, t.Within c n ↔ n ∈ c.subtree := h.within_iff hc
  have hwithin' : ∀ {n}, t'.Within c' n ↔ n ∈ c'.subtree := h'.within_iff hc'
  have hmap := Place.subtree_eq_map hgrows hgrows'
  have hmem : ∀ {n}, n ∈ c.subtree → Place.counterpart c c' n ∈ c'.subtree := by
    intro n hn
    rw [hmap]
    exact List.mem_map_of_mem hn
  have hid : ∀ {n}, t.Within c n → n = c ∨ c.id < n.id := fun hn =>
    Place.eq_or_id_lt_of_mem_subtree hgrows (hwithin.mp hn)
  constructor
  case top => exact (List.cons.inj hmap).1.symm
  case bijOn =>
    refine ⟨fun n hn => hwithin'.mpr (hmem (hwithin.mp hn)), ?_, ?_⟩
    · intro n hn d hd heq
      have hle : ∀ {n}, t.Within c n → c.id ≤ n.id := fun hn =>
        (hid hn).elim (fun htop => htop ▸ Nat.le_refl _) Nat.le_of_lt
      have hn' : c.id ≤ n.id := hle hn
      have hd' : c.id ≤ d.id := hle hd
      have hshifted : n.id - c.id + c'.id = d.id - c.id + c'.id := by
        rw [← Place.id_counterpart (hid hn), heq, Place.id_counterpart (hid hd)]
      exact h.eq_of_id hn.1 hd.1 (by omega)
    · intro n hn
      have hsubtree := hwithin'.mp hn
      rw [hmap] at hsubtree
      obtain ⟨d, hd, rfl⟩ := List.mem_map.mp hsubtree
      exact ⟨d, hwithin.mpr hd, rfl⟩
  case entry => exact fun n hn hne => Place.entry_counterpart ((hid hn).resolve_left hne)
  case child? =>
    intro n hn key
    refine Place.child?_counterpart (hwithin.mp hn) (fun d hd => ?_) key
    have hlt : n.id < d.id := h.id_lt n hn.1 d hd
    rcases hid hn with rfl | hbefore
    · exact hlt
    · exact Nat.lt_trans hbefore hlt
  case parent? =>
    intro n hn hne
    obtain ⟨q, hq, hbelow⟩ :=
      (Place.eq_or_mem_below_of_mem_subtree (hwithin.mp hn)).resolve_left hne
    have hbelow' : Place.counterpart c c' n ∈ (Place.counterpart c c' q).below := by
      rw [Place.below_counterpart hq]
      exact List.mem_map_of_mem hbelow
    rw [h.parent?_of_mem_below (hwithin.mpr hq).1 hbelow,
      h'.parent?_of_mem_below (hwithin'.mpr (hmem hq)).1 hbelow']
    rfl

end Tree

/-! ## Fields with one message -/

/-- The branches have the same below, and agree in what their entries say of a message. -/
structure Branch.Alike (b b' : Branch) : Prop where
  children : b.children = b'.children
  declaredType : b.label.declaredType = b'.label.declaredType
  shape : b.label.shape = b'.label.shape
  leafTypes : b.label.leafTypes = b'.label.leafTypes

section

variable {v : Vocabulary} {m : Message} {f f' : Field}

/-- The name, the place and the comment of a field stay out of its message. -/
theorem expandedBranch_alike (repeated : Bool) (position position' : Nat) (f f' : Field) :
    Branch.Alike (expandedBranch v repeated position f m)
      (expandedBranch v repeated position' f' m) := by
  have hchildren : (enrol f.name [] (fieldsOffers v repeated 0 m.fields)).value =
      (enrol f'.name [] (fieldsOffers v repeated 0 m.fields)).value :=
    enrol_congr _ fun _ => Iff.rfl
  rw [expandedBranch, expandedBranch, hchildren, expandedEntry, expandedEntry]
  cases v.classify m with
  | structural | keyedRecords | bag flavor => exact ⟨rfl, rfl, rfl, rfl⟩

/-- Fields that hold one message offer the same, if it is repeated or passed through for both or
for neither. -/
theorem alike_of_mem_fieldOffers {b b' : Branch} {notices notices' : List Notice}
    {repeated repeated' : Bool} {position position' : Nat} (hm : f.type.Holds m)
    (hm' : f'.type.Holds m) (hclass : ∀ flavor, v.classify m ≠ .bag flavor)
    (hpass : v.isPassthrough f.name = v.isPassthrough f'.name)
    (hrepeated : (f.startsRepetition || repeated) = (f'.startsRepetition || repeated'))
    (h : .child b notices ∈ fieldOffers v repeated position f)
    (h' : .child b' notices' ∈ fieldOffers v repeated' position' f') : b.Alike b' := by
  cases hexpanded : v.isPassthrough f.name with
  | false =>
      obtain ⟨_, hoffers⟩ :=
        ExpandsTo.exists_fieldOffers_eq ⟨hexpanded, hm, hclass⟩ repeated position
      obtain ⟨_, hoffers'⟩ :=
        ExpandsTo.exists_fieldOffers_eq ⟨hpass ▸ hexpanded, hm', hclass⟩ repeated' position'
      rw [hoffers, List.mem_singleton] at h
      rw [hoffers', ← hrepeated, List.mem_singleton] at h'
      rw [(Offer.child.inj h).1, (Offer.child.inj h').1]
      exact expandedBranch_alike _ position position' f f'
  | true =>
      -- What is passed through is a leaf, typed as a message.
      have hleaf : ∀ {g : Field} {a : Branch} {more : List Notice} {inherited : Bool} {i : Nat},
          g.type.Holds m → v.isPassthrough g.name = true →
          .child a more ∈ fieldOffers v inherited i g →
          a = .node { fieldEntry v i g.name g.comment with declaredType := "message" } [] := by
        rintro ⟨name, number, cardinality, type, comment⟩ a more inherited i hholds hpassed hmem
        rw [fieldOffers, if_pos hpassed, List.mem_singleton] at hmem
        rw [(Offer.child.inj hmem).1]
        rcases hholds with rfl | ⟨key, rfl⟩ <;> rfl
      rw [hleaf hm hexpanded h, hleaf hm' (hpass ▸ hexpanded) h']
      exact ⟨rfl, rfl, rfl, rfl⟩

end

namespace Tree

/-- The nodes of two message fields agree in all that is below them and in what they say of the
message. -/
structure SubtreesAgree (t t' : Tree) (c c' : Node) : Prop where
  below : ∃ φ, SubtreeIso t t' c c' φ
  declaredType : c.entry.declaredType = c'.entry.declaredType
  shape : c.shape = c'.shape
  leafTypes : c.entry.leafTypes = c'.entry.leafTypes

/-- A tree as the builder makes it, with its one arena. -/
structure BuiltInArena (v : Vocabulary) (root : String) (type : Message) (t : Tree) : Prop where
  cells : Arena.build v root type = t.nodes.map Place.cell
  /-- A message field that is refused changes nothing, and one that is grown changes no node that
  was there but the parent, which is given the name of the field as a further key. -/
  framed : ∀ (g : Field) (held : Message), g.type.Holds held → ∀ (a : Arena) (parent : Nat),
    parent < a.length → ∀ (repeated : Bool) (ordinal : Nat),
      if g.name ∈ a.keysAt parent then a.growField v parent repeated ordinal g = a
      else a.Extends (a.growField v parent repeated ordinal g) parent g.name

theorem builtInArena {v : Vocabulary} {root : String} {type : Message} {t : Tree}
    (built : (build v root (some type)).value = .ok t) : BuiltInArena v root type t where
  cells := Arena.build_eq built
  framed := fun _ _ hheld _ _ hlt => Arena.growField_frame hheld hlt

/-- Two message fields have the same below them if their message is the same and no bag, and is
repeated or passed through for both or for neither.  When the builder comes to a message field it
changes no node but the parent. -/
theorem subtree_of_message {v : Vocabulary} {root root' : String} {type type' : Message}
    {t t' : Tree} (built : (build v root (some type)).value = .ok t)
    (built' : (build v root' (some type')).value = .ok t') {c c' : Node} {f f' : Field}
    {fs fs' : List Field} {s s' : Source} (h : t.Origin v type c (f :: fs) s)
    (h' : t'.Origin v type' c' (f' :: fs') s') {m : Message} (hm : f.type.Holds m)
    (hm' : f'.type.Holds m) (hclass : ∀ flavor, v.classify m ≠ .bag flavor)
    (hrepeated : (f :: fs).any FieldOf.startsRepetition = (f' :: fs').any FieldOf.startsRepetition)
    (hpass : v.isPassthrough f.name = v.isPassthrough f'.name) :
    SubtreesAgree t t' c c' ∧ BuiltInArena v root type t ∧ BuiltInArena v root' type' t' := by
  obtain ⟨-, b, _, _, hoffer, hembodies⟩ := h.exists_offer built (fieldSource_ne_members hm hclass)
  obtain ⟨-, b', _, _, hoffer', hembodies'⟩ :=
    h'.exists_offer built' (fieldSource_ne_members hm' hclass)
  have halike : b.Alike b' :=
    alike_of_mem_fieldOffers hm hm' hclass hpass hrepeated hoffer hoffer'
  have hgrows : c.Grows b'.children := halike.children ▸ hembodies.grows
  refine ⟨⟨⟨_, subtreeIso_of_grows (sound_of_build built) (sound_of_build built') h.mem_nodes
    h'.mem_nodes hgrows hembodies'.grows⟩, ?_, ?_, ?_⟩, builtInArena built, builtInArena built'⟩
  · rw [hembodies.entry, hembodies'.entry]
    exact halike.declaredType
  · rw [Place.shape, Place.shape, hembodies.entry, hembodies'.entry]
    exact halike.shape
  · rw [hembodies.entry, hembodies'.entry]
    exact halike.leafTypes

/-- An item, and the items that a map leads to. -/
theorem subtree_of_item :
    ∃ c c' φ, sampleItemsTree.rootNode.child? "item" = some c ∧
      sampleItemsTree.rootNode.child? "by_id" = some c' ∧
      SubtreeIso sampleItemsTree sampleItemsTree c c' φ := by
  obtain ⟨c, f, hc, horigin, hf, hname, hstarts⟩ :
      ∃ c f, sampleItemsTree.rootNode.child? "item" = some c ∧
        sampleItemsTree.Origin {} sampleItems c [f] (fieldSource {} f) ∧
        f.type = .message sampleItem ∧ f.name = "item" ∧ f.startsRepetition = false :=
    ⟨_, _, rfl, origin_sampleItems rfl rfl, rfl, rfl, rfl⟩
  obtain ⟨c', f', hc', horigin', hf', hname', hstarts'⟩ :
      ∃ c f, sampleItemsTree.rootNode.child? "by_id" = some c ∧
        sampleItemsTree.Origin {} sampleItems c [f] (fieldSource {} f) ∧
        f.type = .map .int64 (.message sampleItem) ∧ f.name = "by_id" ∧
        f.startsRepetition = false :=
    ⟨_, _, rfl, origin_sampleItems rfl rfl, rfl, rfl, rfl⟩
  have hrepeated : [f].any FieldOf.startsRepetition = [f'].any FieldOf.startsRepetition := by
    rw [List.any_cons, List.any_cons, hstarts, hstarts']
  have hpass : ({} : Vocabulary).isPassthrough f.name = ({} : Vocabulary).isPassthrough f'.name := by
    rw [hname, hname']
    decide
  obtain ⟨⟨⟨φ, hiso⟩, -, -, -⟩, -⟩ := subtree_of_message build_sampleItems build_sampleItems horigin
    horigin' (Or.inl hf) (Or.inr ⟨_, hf'⟩) nofun hrepeated hpass
  exact ⟨c, c', φ, hc, hc', hiso⟩

/-- The same item has nothing below it where it is passed through, and another type. -/
theorem subtree_of_passthrough :
    (build {} "log" (some sampleItems)).value = .ok sampleItemsTree ∧
    ∃ c c' f f', sampleItemsTree.rootNode.child? "item" = some c ∧
      sampleItemsTree.rootNode.child? "serialized_reco_user_info" = some c' ∧
      sampleItemsTree.Origin {} sampleItems c [f] (fieldSource {} f) ∧
      sampleItemsTree.Origin {} sampleItems c' [f'] (fieldSource {} f') ∧
      f.type = .message sampleItem ∧ f'.type = .message sampleItem ∧
      (∀ flavor, ({} : Vocabulary).classify sampleItem ≠ .bag flavor) ∧
      f.cardinality = .singular ∧ f'.cardinality = .singular ∧
      c.entry.declaredType ≠ c'.entry.declaredType ∧
      ¬ ∃ φ, SubtreeIso sampleItemsTree sampleItemsTree c c' φ := by
  obtain ⟨c, f, hc, horigin, hf, hsingular, htype, d, hd⟩ :
      ∃ c f, sampleItemsTree.rootNode.child? "item" = some c ∧
        sampleItemsTree.Origin {} sampleItems c [f] (fieldSource {} f) ∧
        f.type = .message sampleItem ∧ f.cardinality = .singular ∧
        c.entry.declaredType = "Item" ∧ ∃ d, c.child? "id" = some d :=
    ⟨_, _, rfl, origin_sampleItems rfl rfl, rfl, rfl, rfl, _, rfl⟩
  obtain ⟨c', f', hc', horigin', hf', hsingular', htype', hnone⟩ :
      ∃ c f, sampleItemsTree.rootNode.child? "serialized_reco_user_info" = some c ∧
        sampleItemsTree.Origin {} sampleItems c [f] (fieldSource {} f) ∧
        f.type = .message sampleItem ∧ f.cardinality = .singular ∧
        c.entry.declaredType = "message" ∧ c.child? "id" = none :=
    ⟨_, _, rfl, origin_sampleItems rfl rfl, rfl, rfl, rfl, rfl⟩
  refine ⟨build_sampleItems, c, c', f, f', hc, hc', horigin, horigin', hf, hf', nofun, hsingular,
    hsingular', ?_, ?_⟩
  · rw [htype, htype']
    decide
  · rintro ⟨φ, hiso⟩
    have hwithin : sampleItemsTree.Within c c := ⟨horigin.mem_nodes, Or.inl rfl⟩
    have hchild := hiso.child? c hwithin "id"
    rw [hiso.top, hnone, hd] at hchild
    cases hchild

end Tree

end FieldAtlas
