import FieldAtlas.Proofs.Resolution.Chain
import FieldAtlas.Proofs.Resolution.PathRoundTrip

/-!
# `BagPath` — names that lead to a bag

Names that lead to a bag or a label map spell a chain that arrives there as a whole
(`SpellsChain.exists_chain_to`).  None of its steps has a key, so all of them pass plain nodes.
Hence whatever may follow the name of the bag may follow these names, and is read in the same way
(`Path.IsDotted.exists_descend_eq`).  If that begins with a key, either the key can be read and
decides alone what it leads to (`underKey`), or nothing can (`badRemainder`).

The path of the bag itself is the text of the names (`Descent.render_holder`).
-/

namespace FieldAtlas

/-! ## The chain to a bag -/

/-- A path of names that resolves begins with the name of the start, and the others lead down. -/
theorem Path.IsDotted.exists_descent {dotted : String} {names : List String} {p : Policy}
    {start : Node} {r : Resolution} (hdotted : IsDotted dotted names)
    (found : resolveFrom p start dotted = .ok r) :
    ∃ rest inner, names = start.name :: rest ∧ Descent p start (rest.map .field) inner ∧
      inner.target = r.target := by
  obtain ⟨path, hparse, rest, hsegments, inner, hdescent, rfl⟩ := resolveFrom_eq_ok_iff.mp found
  obtain rfl : path = ⟨dotted, dotted, names.map .field, none⟩ :=
    Except.ok.inj (hparse.symm.trans hdotted)
  obtain ⟨first, others, rfl, hfirst, rfl⟩ := List.map_eq_cons_iff.mp hsegments
  obtain rfl := Segment.field.inj hfirst
  exact ⟨others, inner, rfl, hdescent, rfl⟩

/-- Names that lead to a bag or a label map lead to the node above it, and the last of them is its
name. -/
theorem SpellsChain.exists_chain_to {t : Tree} (h : t.Sound) {p : Policy} {n bag : Node}
    {names : List String} {r : Resolution} (hn : n ∈ t.nodes) (hplain : n.shape = .plain)
    (hspells : SpellsChain p n (names.map .field) r) (htarget : r.target = .listed bag)
    (hholds : bag.shape.isBag = true ∨ bag.shape = .labelMap) :
    ∃ steps last name, names = steps.map (·.name) ++ [name] ∧ (∀ s ∈ steps, s.key = none) ∧
      Chain n steps last ∧ last.child? name = some bag := by
  obtain ⟨steps, last, arriving, whole, hsegments, hchain, harrival, rfl⟩ := hspells
  have hkeys := Step.key_eq_none hsegments
  rw [Step.segments_of_no_key hkeys] at hsegments
  rw [Resolution.target_behind] at htarget
  have hnokey : ∀ k, Segment.key k ∉ arriving := by
    intro k hk
    have hmem : Segment.key k ∈ names.map Segment.field := by
      rw [hsegments]
      exact List.mem_append_right _ hk
    obtain ⟨_, -, hfield⟩ := List.mem_map.mp hmem
    cases hfield
  obtain ⟨hbagplain, hmarker, hrecords⟩ := Shape.ne_of_holds hholds
  cases harrival with
  | here =>
      cases htarget
      exact absurd (hchain.shape_last (Or.inl hplain)) (not_or_intro hbagplain hrecords)
  | marker _ hshape =>
      cases htarget
      exact absurd hshape hmarker
  | byName hc hcbag _ hm =>
      cases htarget
      have hlast := hchain.last_mem_nodes hn
      have hmember := (h.wellFormed _ (Tree.mem_nodes_of_child? hlast hc)).members (Or.inl hcbag)
        _ (Place.mem_below_of_child? hm).1
      exact absurd hmember hmarker
  | byNumber | madeUp | placeholder =>
      exact absurd (List.mem_cons_of_mem _ List.mem_cons_self) (hnokey _)
  | @whole c name _ hc _ =>
      cases htarget
      refine ⟨steps, last, name, ?_, hkeys, hchain, hc⟩
      refine List.map_injective_iff.mpr (fun a b hab => Segment.field.inj hab) ?_
      rw [hsegments, List.map_append]
      rfl

/-- Steps without keys are walked through, whatever comes behind them. -/
theorem Chain.descend_eq {p : Policy} {n last : Node} {steps : List Step} (h : Chain n steps last)
    (hkeys : ∀ s ∈ steps, s.key = none) (rest : List Segment) :
    descend p n ((steps.map (·.name)).map .field ++ rest) = descend p last rest := by
  induction h with
  | nil => rfl
  | @cons n last s steps hc hgoes _ ih =>
      have hkey := hkeys s List.mem_cons_self
      have hshape : s.node.shape = .plain := by
        rcases hgoes with ⟨hshape, -⟩ | ⟨-, hsome⟩
        · exact hshape
        · rw [hkey] at hsome
          cases hsome
      rw [← ih fun x hx => hkeys x (List.mem_cons_of_mem s hx), List.map_cons, List.map_cons,
        List.cons_append]
      simp only [descend, hc, hshape]

/-- Whatever follows names that lead to a bag or a label map is read as if the last of them alone
stood in front of it. -/
theorem Path.IsDotted.exists_descend_eq {t : Tree} (h : t.Sound) {p : Policy} {dotted : String}
    {names : List String} (hdotted : IsDotted dotted names)
    (hnames : ∀ name ∈ names, IsPlainName name) {whole : Resolution} {bag : Node}
    (found : resolveFrom p t.rootNode dotted = .ok whole) (htarget : whole.target = .listed bag)
    (hholds : bag.shape.isBag = true ∨ bag.shape = .labelMap) :
    ∃ others q name, names = t.rootNode.name :: others ∧ q.child? name = some bag ∧
      ∀ rest, descend p t.rootNode (others.map .field ++ rest) =
        descend p q (.field name :: rest) := by
  obtain ⟨others, inner, rfl, hdescent, hinner⟩ := hdotted.exists_descent found
  have hspells := hdescent.spellsChain fun s hs =>
    (Segment.printable_fields (List.forall_mem_cons.mp hnames).2 s hs).readable
  obtain ⟨steps, last, name, rfl, hkeys, hchain, hc⟩ :=
    hspells.exists_chain_to h t.rootNode_mem_nodes h.root_plain (hinner.trans htarget) hholds
  refine ⟨_, last, name, rfl, hc, fun rest => ?_⟩
  rw [List.map_append, List.append_assoc, hchain.descend_eq hkeys]
  rfl

/-! ## A key behind a bag -/

/-- What a key stands for behind a bag or a label map. -/
def underKey (p : Policy) (bag : Node) (key : Nat) : Except Failure Resolution :=
  if bag.shape.takesExternalKey then placeholder bag key bag.shape.placeholderKind
  else entryByKey p bag key

/-- The failure of a remainder that cannot be read behind a bag or a label map. -/
def badRemainder (bag : Node) (rest : List Segment) : Failure :=
  if bag.shape.isBag then .badBagRemainder bag.name (Segment.join rest)
  else .badLabelRemainder bag.name (Segment.join rest)

section

variable {p : Policy} {q bag : Node} {name : String} {rest : List Segment} {k : Nat}

theorem descend_of_keyRemainder? (hc : q.child? name = some bag)
    (hholds : bag.shape.isBag = true ∨ bag.shape = .labelMap) (hkey : keyRemainder? rest = some k) :
    descend p q (.field name :: rest) = underKey p bag k := by
  have hne : rest ≠ [] := by
    rintro rfl
    cases hkey
  cases hshape : bag.shape with
  | plain | enumMarker | keyedRecords => simp [hshape, Shape.isBag] at hholds
  | listBag | mapBag =>
      simp only [descend, hc, underKey, hshape, resolveBag, hne, if_false, hkey]
      rfl
  | labelMap =>
      simp only [descend, hc, underKey, hshape, resolveLabels, hne, if_false, hkey]
      rfl

theorem descend_of_keyRemainder?_eq_none (hc : q.child? name = some bag)
    (hholds : bag.shape.isBag = true ∨ bag.shape = .labelMap)
    (hkey : keyRemainder? (.key k :: rest) = none) :
    descend p q (.field name :: .key k :: rest) = .error (badRemainder bag (.key k :: rest)) := by
  cases hshape : bag.shape with
  | plain | enumMarker | keyedRecords => simp [hshape, Shape.isBag] at hholds
  | listBag | mapBag =>
      simp only [descend, hc, badRemainder, hshape, resolveBag, hkey]
      rfl
  | labelMap =>
      simp only [descend, hc, badRemainder, hshape, resolveLabels, hkey]
      rfl

end

/-! ## The path of a bag -/

/-- A path of names to a bag or a label map is the path of what it leads to. -/
theorem Descent.render_holder {t : Tree} (h : t.Sound) {p : Policy} {names : List String}
    {r : Resolution} (hdescent : Descent p t.rootNode (names.map .field) r)
    (hholds : r.target.entry.shape.isBag = true ∨ r.target.entry.shape = .labelMap)
    (key : Option Int) :
    r.target.site.render .dotted key =
      .ok (Segment.join ((t.rootNode.name :: names).map .field)) := by
  have hnone := Segment.countP_fields names
  obtain ⟨-, hmarker, hrecords⟩ := Shape.ne_of_holds hholds
  have hlanding := hdescent.landing h t.rootNode_mem_nodes (by omega) hmarker
    fun hshape => absurd hshape hrecords
  cases hlanding with
  | free _ _ _ hrender =>
      rw [hrender, Tree.site_rootNode, List.map_cons, ← List.singleton_append,
        Segment.join_append (List.cons_ne_nil _ _), Segment.join_field]
      rfl
  | whole _ _ hshape => exact absurd hshape hrecords
  | inside _ _ hkeys => omega

end FieldAtlas
