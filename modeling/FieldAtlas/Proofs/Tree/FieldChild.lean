import FieldAtlas.Proofs.Description.Order
import FieldAtlas.Proofs.Tree.ChildMap
import FieldAtlas.Proofs.Tree.FirstOffer
import FieldAtlas.Proofs.Tree.Names

/-!
# `FieldChild` — what stands under the name of a field

Below the node of a message the members of enums and the fields share one set of names, so a field
may find its name taken.  In a description that is in order no two fields of a message have one
name, and if names are identifiers no number is in the way either.  What can be in the way is a
member of an enum, of a field before or of the field itself.

`Place.Expansion` is what is carried down the tree: that a node has the children which the fields of
its message offered.  One step down keeps it, because the child under the name of a field that holds
a message is what this field has offered (`Place.Expansion.child`); and
`Tree.exists_child_of_field` reads off it which child a field has.
-/

namespace FieldAtlas

/-! ## What a message hands down -/

/-- The names of a field and of what it holds are among those of the fields. -/
theorem names_subset_of_mem {f : Field} {fields : List Field} (h : f ∈ fields) :
    f.name :: typeNames f.type ⊆ fieldsNames fields := by
  obtain ⟨front, back, rfl⟩ := List.append_of_mem h
  clear h
  induction front with
  | nil =>
      obtain ⟨name, number, cardinality, type, comment⟩ := f
      rw [List.nil_append, fieldsNames]
      exact List.cons_subset_cons _ (List.subset_append_left _ _)
  | cons g front ih =>
      obtain ⟨name, number, cardinality, type, comment⟩ := g
      rw [List.cons_append, fieldsNames]
      exact List.Subset.trans ih
        (List.Subset.trans (List.subset_append_right _ _) (List.subset_cons_self _ _))

theorem fieldsNames_subset (m : Message) : fieldsNames m.fields ⊆ messageNames m := by
  obtain ⟨name, fields, enums⟩ := m
  rw [messageNames]
  exact List.subset_append_left _ _

theorem FieldType.Holds.typeNames_eq {type : FieldType} {m : Message} (h : type.Holds m) :
    typeNames type = messageNames m := by
  rcases h with rfl | ⟨key, rfl⟩
  · rw [typeNames]
  · rw [typeNames, typeNames]

/-! ## Fields that are expanded -/

/-- The field is expanded into the fields of the message. -/
structure ExpandsTo (v : Vocabulary) (f : Field) (m : Message) : Prop where
  expanded : v.isPassthrough f.name = false
  holds : f.type.Holds m
  class_ne : ∀ flavor, v.classify m ≠ .bag flavor

section

variable {v : Vocabulary} {position : Nat} {f : Field} {m inner : Message}

theorem name_messageSeed (field : String) (inMap : Bool) :
    (messageSeed v position field inMap m).name = field := by
  unfold messageSeed
  split <;> rfl

theorem messageSeed_of_source {field : String} {inMap : Bool}
    (h : (messageSeed v position field inMap m).source = .fields inner) :
    m = inner ∧ (∀ flavor, v.classify m ≠ .bag flavor) ∧
      (messageSeed v position field inMap m).shape ≠ .enumMarker := by
  unfold messageSeed at h ⊢
  cases hclass : v.classify m with
  | structural | keyedRecords =>
      rw [hclass] at h
      exact ⟨Source.fields.inj h, nofun, nofun⟩
  | bag flavor =>
      rw [hclass] at h
      cases flavor <;> cases inMap <;> cases h

theorem expandsTo_of_registration {g : Registration} (hg : g ∈ fieldRegistrations v position f)
    (h : g.seed.source = .fields inner) :
    ExpandsTo v f inner ∧ g.seed.name = f.name ∧ g.seed.shape ≠ .enumMarker := by
  rw [fieldRegistrations] at hg
  split at hg
  · rw [List.mem_singleton.mp hg] at h
    cases h
  · next hpass =>
      have hexpanded : v.isPassthrough f.name = false := Bool.not_eq_true _ ▸ hpass
      have hmessage : ∀ {inMap : Bool} {held : Message}, f.type.Holds held →
          g = ⟨messageSeed v position f.name inMap held, false⟩ →
          ExpandsTo v f inner ∧ g.seed.name = f.name ∧ g.seed.shape ≠ .enumMarker := by
        rintro inMap held hholds rfl
        obtain ⟨rfl, hclass, hshape⟩ := messageSeed_of_source h
        exact ⟨⟨hexpanded, hholds, hclass⟩, name_messageSeed _ _, hshape⟩
      cases htype : f.type with
      | scalar s =>
          rw [htype, typeRegistrations, List.mem_singleton] at hg
          rw [hg] at h
          cases h
      | enum e =>
          rw [htype] at hg
          obtain ⟨hvalid, hshape⟩ := Seed.valid_of_mem_enumRegistrations hg
          rw [hvalid.suits.marker hshape] at h
          cases h
      | message held =>
          rw [htype, typeRegistrations, List.mem_singleton] at hg
          exact hmessage (Or.inl htype) hg
      | group =>
          rw [htype] at hg
          exact absurd hg List.not_mem_nil
      | map key value =>
          rw [htype] at hg
          cases value with
          | scalar _ | enum _ =>
              rw [typeRegistrations, List.mem_singleton] at hg
              rw [hg] at h
              cases h
          | message held =>
              rw [typeRegistrations, List.mem_singleton] at hg
              exact hmessage (Or.inr ⟨key, htype⟩) hg
          | map _ _ | group => exact absurd hg List.not_mem_nil

theorem exists_field_of_mem_fieldsRegistrations {g : Registration} :
    ∀ {position : Nat} {fields : List Field}, g ∈ fieldsRegistrations v position fields →
      ∃ f ∈ fields, ∃ i, g ∈ fieldRegistrations v i f
  | position, f :: rest, h => by
      rw [fieldsRegistrations] at h
      rcases List.mem_append.mp h with h | h
      · exact ⟨f, List.mem_cons_self, position, h⟩
      · obtain ⟨g, hg, i, hi⟩ := exists_field_of_mem_fieldsRegistrations h
        exact ⟨g, List.mem_cons_of_mem _ hg, i, hi⟩

/-- What leads on to fields is a field that is expanded. -/
theorem exists_expandsTo_of_seed {x : Seed} (hx : x ∈ ((Source.fields m).register v).seeds)
    (h : x.source = .fields inner) :
    ∃ f ∈ m.fields, ExpandsTo v f inner ∧ x.name = f.name ∧ x.shape ≠ .enumMarker := by
  obtain ⟨g, hg, rfl⟩ := Source.exists_registration_of_mem_seeds v _ hx
  obtain ⟨f, hf, position, hfield⟩ := exists_field_of_mem_fieldsRegistrations hg
  exact ⟨f, hf, expandsTo_of_registration hfield h⟩

/-- What the entry of a message that is expanded says beyond that of its field. -/
def expandedEntry (v : Vocabulary) (repeated : Bool) (m : Message) (children : List Branch)
    (base : Entry) : Entry :=
  match v.classify m with
  | .keyedRecords =>
    { base with
      declaredType := qualified repeated m.name
      shape := .keyedRecords
      leafTypes := leafIndex (leafSource v children) }
  | .structural | .bag _ => { base with declaredType := qualified repeated m.name }

theorem declaredType_expandedEntry (repeated : Bool) (children : List Branch) (base : Entry) :
    (expandedEntry v repeated m children base).declaredType = qualified repeated m.name := by
  rw [expandedEntry]
  split <;> rfl

/-- The node of a field that is expanded, with what the fields of its message offer below. -/
def expandedBranch (v : Vocabulary) (repeated : Bool) (position : Nat) (f : Field) (m : Message) :
    Branch :=
  let children := (enrol f.name [] (fieldsOffers v repeated 0 m.fields)).value
  .node (expandedEntry v repeated m children (fieldEntry v position f.name f.comment)) children

/-- The field is a message field, and repeated as such.  A map is not. -/
def FieldOf.startsRepetition (f : Field) : Bool :=
  f.cardinality == .repeated && f.type.message?.isSome

@[simp] theorem startsRepetition_message (name : String) (number : Int32) (c : Cardinality)
    (comment : Option String) :
    FieldOf.startsRepetition ⟨name, number, c, .message m, comment⟩ = (c == .repeated) :=
  Bool.and_true _

@[simp] theorem startsRepetition_map (name : String) (number : Int32) (c : Cardinality)
    (key : Scalar) (value : FieldType) (comment : Option String) :
    FieldOf.startsRepetition ⟨name, number, c, .map key value, comment⟩ = false :=
  Bool.and_false _

/-- A field that is expanded offers one node, and nothing else.  The message is repeated if the
field repeats it, or if it is so from above. -/
theorem ExpandsTo.exists_fieldOffers_eq (h : ExpandsTo v f inner) (inherited : Bool)
    (position : Nat) :
    ∃ notices, fieldOffers v inherited position f =
      [.child (expandedBranch v (f.startsRepetition || inherited) position f inner) notices] := by
  obtain ⟨name, number, cardinality, type, comment⟩ := f
  obtain ⟨hexpanded, hholds, hclass⟩ := h
  have hpass : ¬ v.isPassthrough name = true := Bool.eq_false_iff.mp hexpanded
  have hoffer : ∀ repeated inMap, ∃ notices,
      messageOffer v (fieldEntry v position name comment) repeated inMap inner =
        .child (expandedBranch v repeated position ⟨name, number, cardinality, type, comment⟩ inner)
          notices := by
    intro repeated inMap
    obtain ⟨type, fields, enums⟩ := inner
    rw [messageOffer, expandedBranch, expandedEntry]
    cases hbag : v.classify ⟨type, fields, enums⟩ with
    | bag flavor => exact absurd hbag (hclass flavor)
    | structural | keyedRecords => exact ⟨_, rfl⟩
  rw [fieldOffers, if_neg hpass]
  rcases hholds with rfl | ⟨key, rfl⟩
  · obtain ⟨notices, hoffer⟩ := hoffer (cardinality == .repeated || inherited) false
    rw [startsRepetition_message]
    exact ⟨notices, congrArg (fun o => [o]) hoffer⟩
  · obtain ⟨notices, hoffer⟩ := hoffer inherited true
    rw [startsRepetition_map]
    exact ⟨notices, congrArg (fun o => [o]) hoffer⟩

end

/-! ## Down the declarations -/

theorem Source.follow_nothing_ne {v : Vocabulary} {m : Message} (keys : List String) :
    Source.follow v .nothing keys ≠ some (.fields m) := by
  cases keys with
  | nil => exact nofun
  | cons key rest => simp [follow, register, registrations, Register.child?]

/-- Members have nothing below, so whatever leads to the fields of a message comes from fields. -/
theorem Source.exists_fields_of_follow {v : Vocabulary} {m : Message} {s : Source}
    {keys : List String} (h : Source.follow v s keys = some (.fields m)) :
    ∃ outer, s = .fields outer := by
  cases s with
  | fields outer => exact ⟨outer, rfl⟩
  | nothing => exact absurd h (follow_nothing_ne keys)
  | members field enums =>
      cases keys with
      | nil => cases h
      | cons key rest =>
          obtain ⟨x, hx, hrest⟩ := Option.bind_eq_some_iff.mp h
          obtain ⟨i, -, hseed⟩ := Option.bind_eq_some_iff.mp hx
          have hmem := List.mem_of_getElem? hseed
          rw [(Seed.valid_of_mem_register hmem).suits.marker (Seed.marker_of_mem_members hmem)]
            at hrest
          exact absurd hrest (follow_nothing_ne rest)

/-! ## Down the tree -/

namespace Place

/-- The node is that of a message in order with identifiers for names, and has what the fields of
the message offered below.  `repeated` says whether the message is repeated. -/
structure Expansion (v : Vocabulary) (repeated : Bool) (m : Message) (n : Node) : Prop where
  declared : n.Declared v (.fields m)
  declaredType : n.entry.declaredType = qualified repeated m.name
  children : ∃ parent start, n.children = Rose.numberForest Label.mk start
    (enrol parent [] (fieldsOffers v repeated 0 m.fields)).value
  ordered : messageDefect? m = none
  names : ∀ name ∈ messageNames m, isIdentifier name = true

namespace Expansion

variable {v : Vocabulary} {repeated : Bool} {m inner : Message} {n c : Node} {key : String}

/-- Under the name of a field stands what the field offers for itself, unless there is a member of
that name among those that were offered before: then stands the first of these. -/
theorem exists_child (h : Expansion v repeated m n) {front back : List Field} {f : Field}
    (hfields : m.fields = front ++ f :: back) (hgroup : f.type ≠ .group) :
    ∃ c own notices, n.child? f.name = some c ∧
      fieldOffers v repeated front.length f =
        (fieldMembers v f).map memberOffer ++ [.child own notices] ∧
      (own.label.shape = .enumMarker → own.label.declaredType ≠ "enum") ∧
      c.Embodies ((((front ++ [f]).flatMap (fieldMembers v)).find? (·.name == f.name)).elim own
        memberBranch) := by
  have hf : f ∈ m.fields := by
    rw [hfields]
    exact List.mem_append_right _ List.mem_cons_self
  obtain ⟨-, hordered, hnodup, -⟩ := messageDefect?_eq_none_iff.mp h.ordered
  obtain ⟨hname, htype⟩ := hordered f hf
  have hother : ∀ g ∈ front, g.name ≠ f.name := by
    intro g hg
    rw [hfields, List.map_append, List.map_cons, List.nodup_append] at hnodup
    exact hnodup.2.2 _ (List.mem_map_of_mem hg) _ List.mem_cons_self
  have hkey : NoNumber f.name := .of_isIdentifier <|
    h.names _ (fieldsNames_subset m (names_subset_of_mem hf List.mem_cons_self))
  obtain ⟨own, hoffers, hown, hexists⟩ := exists_fieldOffers_eq v repeated front.length f
  obtain ⟨b, notices, rfl⟩ := hexists hname hgroup _ htype
  obtain ⟨parent, start, hchildren⟩ := h.children
  cases hown with
  | child hbname hmarker =>
      obtain ⟨_, hfirst⟩ := find?_fieldsOffers_field back hother hoffers hbname
      rw [← hfields] at hfirst
      obtain ⟨c, hc, hembodies⟩ := exists_child?_of_children hkey hchildren hfirst
      exact ⟨c, b, notices, hc, hoffers, hmarker, hembodies⟩

/-- What stands under the name of a field that is expanded, and is no member, has what the fields of
its message offered. -/
theorem of_field (h : Expansion v repeated m n) {f : Field} (hf : f ∈ m.fields)
    (hexpands : ExpandsTo v f inner) (hc : n.child? f.name = some c)
    (hmarker : c.entry.shape ≠ .enumMarker) (hdeclared : c.Declared v (.fields inner)) :
    ∃ inherited, Expansion v inherited inner c := by
  obtain ⟨front, back, hfields⟩ := List.append_of_mem hf
  have hgroup : f.type ≠ .group := by
    rcases hexpands.holds with htype | ⟨_, htype⟩ <;> rw [htype] <;> exact nofun
  obtain ⟨c', own, notices, hc', hoffers, -, hembodies⟩ := h.exists_child hfields hgroup
  obtain rfl := Option.some.inj (hc.symm.trans hc')
  cases hmember : ((front ++ [f]).flatMap (fieldMembers v)).find? (·.name == f.name) with
  | some e =>
      rw [hmember] at hembodies
      rw [hembodies.entry] at hmarker
      exact absurd rfl hmarker
  | none =>
      rw [hmember] at hembodies
      obtain ⟨notices', hoffer⟩ := hexpands.exists_fieldOffers_eq repeated front.length
      have hlast := congrArg List.getLast? (hoffers.symm.trans hoffer)
      rw [List.getLast?_concat] at hlast
      obtain ⟨rfl, -⟩ := Offer.child.inj (Option.some.inj hlast)
      have hctype : c.entry.declaredType =
          qualified (f.startsRepetition || repeated) inner.name := by
        rw [hembodies.entry]
        exact declaredType_expandedEntry _ _ _
      obtain ⟨start, hchildren⟩ := hembodies.children
      obtain ⟨-, hordered, -⟩ := messageDefect?_eq_none_iff.mp h.ordered
      refine ⟨_, hdeclared, hctype, ⟨f.name, start, hchildren⟩,
        messageDefect?_of_typeDefect? (hordered f hf).2 hexpands.holds, fun name hinner => ?_⟩
      rw [← hexpands.holds.typeNames_eq] at hinner
      exact h.names name
        (fieldsNames_subset m (names_subset_of_mem hf (List.mem_cons_of_mem _ hinner)))

/-- A key that leads on to the fields of a message leads to a node with what these offered. -/
theorem child (h : Expansion v repeated m n) {x : Seed}
    (hx : ((Source.fields m).register v).child? key = some x) (hsource : x.source = .fields inner) :
    ∃ c inherited, n.child? key = some c ∧ Expansion v inherited inner c := by
  obtain ⟨c, hc, hfits, hdeclared⟩ := h.declared.exists_child? hx
  obtain ⟨i, -, hseed⟩ := Option.bind_eq_some_iff.mp hx
  obtain ⟨f, hf, hexpands, hname, hshape⟩ :=
    exists_expandsTo_of_seed (List.mem_of_getElem? hseed) hsource
  -- The node was found under some key, and stands under the name of the field.
  have hcname : c.name = f.name := hfits.name.trans hname
  have hown := h.declared.wellFormed.child?_name (mem_below_of_child? hc).1
  rw [hcname] at hown
  rw [hsource] at hdeclared
  have hmarker : c.entry.shape ≠ .enumMarker := hfits.shape ▸ hshape
  obtain ⟨inherited, hexpansion⟩ := h.of_field hf hexpands hown hmarker hdeclared
  exact ⟨c, inherited, hc, hexpansion⟩

/-- So does every list of keys. -/
theorem walk? (h : Expansion v repeated m n) {keys : List String}
    (hsource : Source.follow v (.fields m) keys = some (.fields inner)) :
    ∃ c inherited, n.walk? keys = some c ∧ Expansion v inherited inner c := by
  induction keys generalizing n m repeated with
  | nil =>
      cases hsource
      exact ⟨n, repeated, rfl, h⟩
  | cons key rest ih =>
      obtain ⟨x, hx, hrest⟩ := Option.bind_eq_some_iff.mp hsource
      obtain ⟨between, hbetween⟩ := Source.exists_fields_of_follow hrest
      obtain ⟨c, inherited, hc, hexpansion⟩ := h.child hx hbetween
      rw [hbetween] at hrest
      obtain ⟨d, hlast⟩ := ih hexpansion hrest
      refine ⟨d, ?_⟩
      rwa [Place.walk?, hc, Option.bind_some]

end Expansion

end Place

/-- The root has what the fields of its message offered. -/
theorem Tree.expansion_rootNode {v : Vocabulary} {root : String} {type : Message} {t : Tree}
    (built : (build v root (some type)).value = .ok t) (hvalid : validate type = .ok ())
    (hnames : ∀ name ∈ messageNames type, isIdentifier name = true) :
    t.rootNode.Expansion v false type := by
  have hordered : messageDefect? type = none := by
    rw [validate] at hvalid
    cases hdefect : messageDefect? type with
    | none => rfl
    | some defect =>
        rw [hdefect] at hvalid
        cases hvalid
  have hdeclared := (exists_declared built).1
  obtain ⟨_, hm, -, rfl⟩ := build_eq_ok_iff.mp built
  cases hm
  exact ⟨hdeclared, rfl, ⟨root, 1, rfl⟩, hordered, hnames⟩

/-- The members that are registered up to the field at a position. -/
def membersUpTo (v : Vocabulary) (m : Message) (position : Nat) : List EnumMember :=
  (m.fields.take (position + 1)).flatMap (fieldMembers v)

/-- What stands under the name of the field `f` at a node where its message `m` is expanded. -/
structure FieldChild (v : Vocabulary) (m : Message) (repeated : Bool) (n : Node) (position : Nat)
    (f : Field) (c : Node) (own : Branch) : Prop where
  child : n.child? f.name = some c
  /-- What the field offers for itself is the last of its offers. -/
  offered : ∃ notices, (fieldOffers v repeated position f).getLast? = some (.child own notices)
  /-- The child is this, unless a member has the name of the field and was offered before it. -/
  own_iff : c.Embodies own ↔ ∀ e ∈ membersUpTo v m position, e.name ≠ f.name
  /-- Then it is the first such member. -/
  member : ∀ e, (membersUpTo v m position).find? (·.name == f.name) = some e →
    c.Embodies (memberBranch e)

/-- In a description that is in order, with identifiers for names, every field but a group has a
child under its name, below every node that its message is expanded at.  The child is what the field
offered for itself, unless a member of an enum has this name and was offered before it: then the
child is the first such member. -/
theorem Tree.exists_child_of_field {v : Vocabulary} {root : String} {type : Message} {t : Tree}
    (built : (build v root (some type)).value = .ok t) (hvalid : validate type = .ok ())
    (hnames : ∀ name ∈ messageNames type, isIdentifier name = true) {keys : List String} {n : Node}
    (hn : t.rootNode.walk? keys = some n) {m : Message}
    (hsource : Source.follow v (.fields type) keys = some (.fields m)) :
    ∃ repeated, n.entry.declaredType = qualified repeated m.name ∧
      ∀ (position : Nat) (f : Field), m.fields[position]? = some f → f.type ≠ .group →
        ∃ c own, FieldChild v m repeated n position f c own := by
  obtain ⟨n', repeated, hn', hexpansion⟩ :=
    (expansion_rootNode built hvalid hnames).walk? hsource
  obtain rfl := Option.some.inj (hn.symm.trans hn')
  refine ⟨repeated, hexpansion.declaredType, fun position f hf hgroup => ?_⟩
  obtain ⟨hlt, hget⟩ := List.getElem?_eq_some_iff.mp hf
  have hfields : m.fields = m.fields.take position ++ f :: m.fields.drop (position + 1) := by
    rw [← hget, ← List.drop_eq_getElem_cons hlt, List.take_append_drop]
  have htake : m.fields.take (position + 1) = m.fields.take position ++ [f] := by
    rw [List.take_add_one, hf]
    rfl
  obtain ⟨c, own, notices, hc, hoffers, hmarker, hembodies⟩ :=
    hexpansion.exists_child hfields hgroup
  rw [List.length_take_of_le (Nat.le_of_lt hlt)] at hoffers
  have hupto : membersUpTo v m position =
      (m.fields.take position ++ [f]).flatMap (fieldMembers v) := by
    rw [membersUpTo, htake]
  have hwhich : (c.Embodies own ↔ ∀ e ∈ membersUpTo v m position, e.name ≠ f.name) ∧
      ∀ e, (membersUpTo v m position).find? (·.name == f.name) = some e →
        c.Embodies (memberBranch e) := by
    rw [hupto]
    cases hmember : ((m.fields.take position ++ [f]).flatMap (fieldMembers v)).find?
        (·.name == f.name) with
    | none =>
        rw [hmember] at hembodies
        refine ⟨iff_of_true hembodies fun e he => ?_, nofun⟩
        simpa using List.find?_eq_none.mp hmember e he
    | some e =>
        rw [hmember] at hembodies
        constructor
        · refine iff_of_false (fun hown => ?_) fun hnone => ?_
          · -- The leaf of a member is told from what a field offers for itself by its type.
            have hentry := hown.entry.symm.trans hembodies.entry
            exact hmarker (congrArg Entry.shape hentry) (congrArg Entry.declaredType hentry)
          · exact hnone e (List.mem_of_find?_eq_some hmember)
              (by simpa using List.find?_some hmember)
        · intro e' he'
          obtain rfl := Option.some.inj he'
          exact hembodies
  exact ⟨c, own, hc, ⟨notices, by rw [hoffers, List.getLast?_concat]⟩, hwhich.1, hwhich.2⟩

theorem names_sampleLog : ∀ name ∈ messageNames sampleLog, isIdentifier name = true := by
  decide +kernel

/-- A field within the records of the small log. -/
theorem Tree.exists_child_of_field_history :
    ∃ n c, sampleTree.rootNode.walk? ["history"] = some n ∧ n.child? "photo_id" = some c ∧
      c.Embodies (.node { fieldEntry {} 0 "photo_id" none with declaredType := "int64" } []) := by
  have hn : sampleTree.rootNode.walk? ["history"] = some _ := rfl
  have hsource : Source.follow {} (.fields sampleLog) ["history"] =
      some (.fields sampleHistory) := rfl
  obtain ⟨repeated, -, hfield⟩ :=
    exists_child_of_field build_sampleLog rfl names_sampleLog hn hsource
  obtain ⟨c, own, hc, ⟨notices, hown⟩, hembodies, -⟩ := hfield 0 _ rfl nofun
  cases hown
  exact ⟨_, c, hn, hc, hembodies.mpr (by decide)⟩

/-- The field `IOS` comes after a member of that name, and it is the member that stands there. -/
theorem Tree.field_child_is_member :
    validate sampleLog = .ok () ∧
    (∀ name ∈ messageNames sampleLog, isIdentifier name = true) ∧
    (build {} "log" (some sampleLog)).value = .ok sampleTree ∧
    ∃ f c, sampleLog.fields[2]? = some f ∧ f.name = "IOS" ∧ f.type ≠ .group ∧
      sampleTree.rootNode.child? "IOS" = some c ∧ c.Embodies (memberBranch ⟨"IOS", 2, none⟩) ∧
      ∀ repeated own notices, (fieldOffers {} repeated 2 f).getLast? = some (.child own notices) →
        ¬ c.Embodies own := by
  refine ⟨rfl, names_sampleLog, build_sampleLog, _, _, rfl, rfl, nofun, rfl, ⟨[], 3, rfl⟩, ?_⟩
  intro repeated own notices hown hembodies
  cases hown
  have htype : "enum" = "int64" := congrArg Entry.declaredType hembodies.entry
  exact absurd htype (by decide)

end FieldAtlas
