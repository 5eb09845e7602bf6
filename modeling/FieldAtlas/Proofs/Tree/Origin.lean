import FieldAtlas.Proofs.Tree.FieldChild

/-!
# `Origin` — the fields that a node comes from

Every node but the root is there on account of a field, and so is every node above it.  `Tree.Origin`
lists these fields, the nearest first.  It is read off the declarations: the child of a node was made
for the first field that asks for its name, and what a field has below is its `fieldSource`.  The
members of a bag come from the field of the bag.

A node has one origin (`Tree.exists_origin`, `Tree.Origin.unique`).  What the origin says of the tree
is `Tree.Origin.enrolled`: the children of the node were chosen from what its source offers, and
whether these offers are marked as repeated is a question of the fields alone.
-/

namespace FieldAtlas

/-! ## Who asks for a name -/

/-- The field asks for the name, for itself or for a member of its enum. -/
def asksFor (v : Vocabulary) (name : String) (f : Field) : Bool :=
  (fieldRegistrations v 0 f).any (·.seed.name == name)

/-- What the node of a field has below; a member has nothing below. -/
def fieldSource (v : Vocabulary) (f : Field) : Source :=
  if v.isPassthrough f.name then .nothing
  else match f.type with
  | .message m | .map _ (.message m) => (messageSeed v 0 f.name false m).source
  | .scalar _ | .enum _ | .map _ _ | .group => .nothing

/-- What a source offers to the node that it is below. -/
def Source.offers (v : Vocabulary) (repeated : Bool) : Source → List Offer
  | fields m => fieldsOffers v repeated 0 m.fields
  | members field enums => enums.flatMap fun e => enumOffers e e.name field
  | nothing => []

/-- The children of the node were enrolled from the offers of the source. -/
def Place.Enrolled (v : Vocabulary) (repeated : Bool) (s : Source) (n : Node) : Prop :=
  ∃ parent start, n.children =
    Rose.numberForest Label.mk start (enrol parent [] (s.offers v repeated)).value

/-- The node comes from these fields, the nearest first, and has the source below. -/
inductive Tree.Origin (v : Vocabulary) (type : Message) (t : Tree) :
    Node → List Field → Source → Prop where
  | root : Origin v type t t.rootNode [] (.fields type)
  | field {n c : Node} {fs : List Field} {m : Message} {f : Field} :
      Origin v type t n fs (.fields m) → c ∈ n.below →
      m.fields.find? (asksFor v c.name) = some f → Origin v type t c (f :: fs) (fieldSource v f)
  | member {n c : Node} {fs : List Field} {field : String} {enums : List EnumType} :
      Origin v type t n fs (.members field enums) → c ∈ n.below → Origin v type t c fs .nothing

/-! ## From a child to its offer -/

/-- Whoever is enrolled under a name was the first to be offered under it. -/
theorem exists_offer_of_mem_enrol (parent : String) {b : Branch} {offers : List Offer}
    {taken : List String} (h : b ∈ (enrol parent taken offers).value) :
    b.label.name ∉ taken ∧ ∃ own notices taken',
      offers.find? (·.isNamed b.label.name) = some (.child own notices) ∧ b = own.settle taken' := by
  induction offers generalizing taken with
  | nil => exact absurd h List.not_mem_nil
  | cons o rest ih =>
      cases o with
      | remark n => exact ih h
      | child c notices =>
          rw [enrol] at h
          split at h
          · next htaken =>
              obtain ⟨hfree, own, notices', taken', hfirst, heq⟩ := ih h
              have hother : ¬ Offer.isNamed b.label.name (.child c notices) = true := by
                intro hname
                have hsame : c.label.name = b.label.name := by simpa [Offer.isNamed] using hname
                exact hfree (hsame ▸ List.contains_iff_mem.mp htaken)
              exact ⟨hfree, own, notices', taken', by rwa [List.find?_cons_of_neg hother], heq⟩
          · next htaken =>
              rcases List.mem_cons.mp h with rfl | h
              · have hname : (c.settle taken).label.name = c.label.name := by
                  rw [Branch.label_settle]
                refine ⟨?_, c, notices, taken, ?_, rfl⟩
                · rw [hname]
                  simpa using htaken
                · exact List.find?_cons_of_pos (by simp [Offer.isNamed, hname])
              · obtain ⟨hfree, own, notices', taken', hfirst, heq⟩ := ih h
                obtain ⟨hkey, hfree⟩ := not_or.mp (mt List.mem_append.mpr hfree)
                have hother : ¬ Offer.isNamed b.label.name (.child c notices) = true := by
                  intro hname
                  have hsame : c.label.name = b.label.name := by
                    simpa [Offer.isNamed] using hname
                  refine hkey ?_
                  rw [Branch.keys_settle, hsame]
                  exact List.mem_cons_self
                exact ⟨hfree, own, notices', taken', by rwa [List.find?_cons_of_neg hother], heq⟩

theorem Rose.exists_of_mem_numberForest {u : Rose Label} :
    ∀ {start : Nat} {bs : List Branch}, u ∈ numberForest Label.mk start bs →
      ∃ b ∈ bs, ∃ start', u = b.number Label.mk start'
  | start, b :: bs, h => by
      rcases List.mem_cons.mp h with rfl | h
      · exact ⟨b, List.mem_cons_self, start, rfl⟩
      · obtain ⟨b', hb', start', heq⟩ := exists_of_mem_numberForest h
        exact ⟨b', List.mem_cons_of_mem _ hb', start', heq⟩

/-- A child is what was first offered under its name. -/
theorem Place.exists_offer_of_mem_below {n c : Node} {parent : String} {start : Nat}
    {offers : List Offer}
    (hchildren : n.children = Rose.numberForest Label.mk start (enrol parent [] offers).value)
    (hc : c ∈ n.below) :
    ∃ b notices, offers.find? (·.isNamed c.name) = some (.child b notices) ∧ c.Embodies b := by
  obtain ⟨u, hu, rfl⟩ := List.mem_map.mp hc
  rw [hchildren] at hu
  obtain ⟨b, hb, start', rfl⟩ := Rose.exists_of_mem_numberForest hu
  obtain ⟨-, own, notices, taken, hfirst, rfl⟩ := exists_offer_of_mem_enrol parent hb
  obtain ⟨e, ts⟩ := own
  exact ⟨.node e ts, notices, hfirst, taken, start', rfl⟩

/-! ## From an offer to its field -/

section

variable {v : Vocabulary} {repeated : Bool} {position : Nat} {name : String} {f : Field}

/-- Where a field stands does not matter to the names that it asks for. -/
theorem map_name_fieldRegistrations (position : Nat) (f : Field) :
    (fieldRegistrations v position f).map (·.seed.name) =
      (fieldRegistrations v 0 f).map (·.seed.name) := by
  have hmessage : ∀ (inMap : Bool) (m : Message),
      (messageSeed v position f.name inMap m).name = (messageSeed v 0 f.name inMap m).name :=
    fun _ _ => (name_messageSeed _ _).trans (name_messageSeed _ _).symm
  rw [fieldRegistrations, fieldRegistrations]
  by_cases hpass : v.isPassthrough f.name = true
  · rw [if_pos hpass, if_pos hpass]
    rfl
  rw [if_neg hpass, if_neg hpass]
  cases f.type with
  | scalar _ | enum _ | group => rfl
  | message m => exact congrArg (fun s => [s]) (hmessage false m)
  | map key value =>
      cases value with
      | message m => exact congrArg (fun s => [s]) (hmessage true m)
      | scalar _ | enum _ | map _ _ | group => rfl

theorem OffersAnswer.any_isNamed {offers : List Offer} {requests : List Registration}
    (h : OffersAnswer v offers requests) (name : String) :
    offers.any (·.isNamed name) = requests.any (·.seed.name == name) := by
  induction h with
  | nil => rfl
  | remark _ ih => exact ih
  | @child o g _ _ ho _ ih =>
      rw [List.any_cons, List.any_cons, ih]
      match o, ho with
      | .child b notices, ⟨hfits, _, _⟩ => rw [Offer.isNamed, hfits.name]

/-- A field offers something under the names that it asks for. -/
theorem any_isNamed_fieldOffers (repeated : Bool) (position : Nat) (f : Field) (name : String) :
    (fieldOffers v repeated position f).any (·.isNamed name) = asksFor v name f := by
  have hnames : ∀ gs : List Registration, gs.any (·.seed.name == name) =
      (gs.map (·.seed.name)).any (· == name) := by
    intro gs
    rw [List.any_map]
    rfl
  rw [(fieldOffers_answer v repeated position f).any_isNamed, asksFor, hnames, hnames,
    map_name_fieldRegistrations]

/-- What is first offered under a name is offered by the first field that asks for it. -/
theorem exists_fieldOffers_of_find? {o : Offer} :
    ∀ {fields : List Field} {position : Nat},
      (fieldsOffers v repeated position fields).find? (·.isNamed name) = some o →
      ∃ f i, fields.find? (asksFor v name) = some f ∧ o ∈ fieldOffers v repeated i f
  | f :: rest, position, h => by
      rw [fieldsOffers, List.find?_append] at h
      have hasks : _ = asksFor v name f := any_isNamed_fieldOffers repeated position f name
      cases hown : (fieldOffers v repeated position f).find? (·.isNamed name) with
      | some own =>
          rw [hown, Option.some_or, Option.some.injEq] at h
          subst h
          have hmem := List.mem_of_find?_eq_some hown
          rw [List.any_eq_true.mpr ⟨own, hmem, List.find?_some hown⟩] at hasks
          exact ⟨f, position, List.find?_cons_of_pos hasks.symm, hmem⟩
      | none =>
          rw [hown, Option.none_or] at h
          have hnot : ¬ asksFor v name f = true := by
            rw [← hasks, List.any_eq_true]
            rintro ⟨o', ho', hnamed⟩
            exact List.find?_eq_none.mp hown o' ho' hnamed
          obtain ⟨g, i, hg, hmem⟩ := exists_fieldOffers_of_find? h
          exact ⟨g, i, by rwa [List.find?_cons_of_neg hnot], hmem⟩

/-! ## What is below the node of a field -/

theorem mem_enumOffers {o : Offer} {e : EnumType} {type field : String}
    (h : o ∈ enumOffers e type field) :
    (∃ u ∈ e.members, o = leafOffer (memberEntry type u)) ∨ o = leafOffer (markerEntry field) := by
  rcases List.mem_append.mp h with h | h
  · obtain ⟨u, hu, rfl⟩ := List.mem_map.mp h
    exact Or.inl ⟨u, hu, rfl⟩
  · split at h
    · exact absurd h List.not_mem_nil
    · exact Or.inr (List.mem_singleton.mp h)

/-- The branches that a field may offer, one way for each type.  A field that is passed through
offers a leaf, whatever its type. -/
inductive FieldOf.Makes (v : Vocabulary) (repeated : Bool) (position : Nat) (f : Field) :
    Branch → Prop where
  | passed (hpass : v.isPassthrough f.name = true) : Makes v repeated position f
      (.node { fieldEntry v position f.name f.comment with declaredType := f.type.name } [])
  | scalar {s : Scalar} (hpass : v.isPassthrough f.name = false) (htype : f.type = .scalar s) :
      Makes v repeated position f (.node { fieldEntry v position f.name f.comment with
        declaredType := qualified (f.cardinality == .repeated) s.name } [])
  | member {e : EnumType} {u : EnumMember} (hpass : v.isPassthrough f.name = false)
      (htype : f.type = .enum e) (hu : u ∈ e.members) :
      Makes v repeated position f (.node (memberEntry "enum" u) [])
  | marker {e : EnumType} (hpass : v.isPassthrough f.name = false) (htype : f.type = .enum e) :
      Makes v repeated position f (.node (markerEntry f.name) [])
  | scalarMap {key s : Scalar} (hpass : v.isPassthrough f.name = false)
      (htype : f.type = .map key (.scalar s)) :
      Makes v repeated position f (.node { fieldEntry v position f.name f.comment with
        declaredType := "map<" ++ key.name ++ ", " ++ s.name ++ ">" } [])
  | enumMap {key : Scalar} {e : EnumType} (hpass : v.isPassthrough f.name = false)
      (htype : f.type = .map key (.enum e)) :
      Makes v repeated position f (.node { fieldEntry v position f.name f.comment with
        declaredType := "map<" ++ key.name ++ ", " ++ e.name ++ ">" } [])
  | message {m : Message} {inMap : Bool} {b : Branch} {notices : List Notice}
      (hpass : v.isPassthrough f.name = false) (hm : f.type.Holds m)
      (hb : .child b notices = messageOffer v (fieldEntry v position f.name f.comment)
        (f.startsRepetition || repeated) inMap m) : Makes v repeated position f b

theorem makes_of_mem_fieldOffers {b : Branch} {notices : List Notice}
    (h : .child b notices ∈ fieldOffers v repeated position f) :
    f.Makes v repeated position b := by
  have hleaf : ∀ {e : Entry}, .child b notices = leafOffer e → b = .node e [] :=
    fun he => (Offer.child.inj he).1
  obtain ⟨field, number, cardinality, type, comment⟩ := f
  rw [fieldOffers] at h
  by_cases hpass : v.isPassthrough field = true
  · rw [if_pos hpass, List.mem_singleton] at h
    rw [hleaf h]
    exact .passed hpass
  rw [if_neg hpass] at h
  have hpass : v.isPassthrough field = false := Bool.eq_false_iff.mpr hpass
  cases type with
  | scalar s =>
      rw [typeOffers, List.mem_singleton] at h
      rw [hleaf h]
      exact .scalar hpass rfl
  | enum e =>
      rw [typeOffers] at h
      rcases mem_enumOffers h with ⟨u, hu, hb⟩ | hb
      · rw [hleaf hb]
        exact .member hpass rfl hu
      · rw [hleaf hb]
        exact .marker hpass rfl
  | message m =>
      rw [typeOffers, List.mem_singleton] at h
      exact .message hpass (Or.inl rfl) (by rwa [startsRepetition_message])
  | group =>
      rw [typeOffers, List.mem_singleton] at h
      cases h
  | map key value =>
      cases value with
      | scalar s =>
          rw [typeOffers, List.mem_singleton] at h
          rw [hleaf h]
          exact .scalarMap hpass rfl
      | enum e =>
          rw [typeOffers, List.mem_singleton] at h
          rw [hleaf h]
          exact .enumMap hpass rfl
      | message m =>
          rw [typeOffers, List.mem_singleton] at h
          exact .message hpass (Or.inr ⟨key, rfl⟩) (by rwa [startsRepetition_map])
      | map _ _ | group =>
          rw [typeOffers, List.mem_singleton] at h
          cases h

theorem fieldSource_of_holds {m : Message} (hpass : v.isPassthrough f.name = false)
    (hm : f.type.Holds m) : fieldSource v f = (messageSeed v 0 f.name false m).source := by
  rw [fieldSource, if_neg (Bool.eq_false_iff.mp hpass)]
  rcases hm with htype | ⟨key, htype⟩ <;> rw [htype]

theorem children_of_messageOffer {base : Entry} {inMap : Bool} {m : Message} {b : Branch}
    {notices : List Notice} (h : .child b notices = messageOffer v base repeated inMap m) :
    b.children = (enrol base.name []
      ((messageSeed v 0 base.name false m).source.offers v repeated)).value := by
  obtain ⟨type, fields, enums⟩ := m
  rw [messageOffer] at h
  unfold messageSeed
  cases hclass : v.classify ⟨type, fields, enums⟩ with
  | structural | keyedRecords =>
      rw [hclass] at h
      rw [(Offer.child.inj h).1]
      rfl
  | bag flavor =>
      rw [hclass] at h
      rw [(Offer.child.inj h).1]
      cases flavor <;> rfl

/-- What the node of a message says of itself depends on the class of the message. -/
theorem label_of_messageOffer {base : Entry} {inMap : Bool} {m : Message} {b : Branch}
    {notices : List Notice} (h : .child b notices = messageOffer v base repeated inMap m) :
    b.label = match v.classify m with
      | .structural => { base with declaredType := qualified repeated m.name }
      | .keyedRecords =>
        { base with
          declaredType := qualified repeated m.name
          shape := .keyedRecords
          leafTypes := leafIndex (leafSource v b.children) }
      | .bag flavor => { base with declaredType := m.name, shape := bagShape flavor inMap } := by
  obtain ⟨type, fields, enums⟩ := m
  rw [messageOffer] at h
  cases hclass : v.classify ⟨type, fields, enums⟩ with
  | structural | keyedRecords | bag flavor =>
      rw [hclass] at h
      rw [(Offer.child.inj h).1]
      rfl

/-- Below a node that a field offers is what was enrolled from its source. -/
theorem exists_children_of_mem_fieldOffers {b : Branch} {notices : List Notice}
    (h : .child b notices ∈ fieldOffers v repeated position f) :
    ∃ parent, b.children = (enrol parent []
      ((fieldSource v f).offers v (f.startsRepetition || repeated))).value := by
  -- A leaf has nothing below, and the source of a leaf has nothing to offer.
  have hleaf : ∀ e : Entry, fieldSource v f = .nothing → ∃ parent,
      Rose.children (.node e []) = (enrol parent []
        ((fieldSource v f).offers v (f.startsRepetition || repeated))).value := by
    intro e hsource
    rw [hsource]
    exact ⟨"", rfl⟩
  cases makes_of_mem_fieldOffers h with
  | passed hpass => exact hleaf _ (if_pos hpass)
  | scalar hpass htype | member hpass htype _ | marker hpass htype | scalarMap hpass htype
  | enumMap hpass htype =>
      refine hleaf _ ?_
      rw [fieldSource, if_neg (Bool.eq_false_iff.mp hpass), htype]
  | message hpass hm hb =>
      rw [fieldSource_of_holds hpass hm]
      exact ⟨f.name, children_of_messageOffer hb⟩

/-- A field with the fields of a message below is one that is expanded into them. -/
theorem fieldSource_eq_fields_iff {m : Message} : fieldSource v f = .fields m ↔ ExpandsTo v f m := by
  rw [fieldSource]
  constructor
  · intro h
    split at h
    · cases h
    · next hpass =>
        have hexpanded : v.isPassthrough f.name = false := Bool.eq_false_iff.mpr hpass
        split at h
        · next held htype =>
            obtain ⟨rfl, hclass, -⟩ := messageSeed_of_source h
            exact ⟨hexpanded, Or.inl htype, hclass⟩
        · next key held htype =>
            obtain ⟨rfl, hclass, -⟩ := messageSeed_of_source h
            exact ⟨hexpanded, Or.inr ⟨key, htype⟩, hclass⟩
        all_goals cases h
  · rintro ⟨hexpanded, hholds, hclass⟩
    have hseed : (messageSeed v 0 f.name false m).source = .fields m := by
      unfold messageSeed
      cases hbag : v.classify m with
      | bag flavor => exact absurd hbag (hclass flavor)
      | structural | keyedRecords => rfl
    exact (fieldSource_of_holds hexpanded hholds).trans hseed

/-- A message that is no bag has no members below it. -/
theorem fieldSource_ne_members {m : Message} (hm : f.type.Holds m)
    (hclass : ∀ flavor, v.classify m ≠ .bag flavor) (field : String) (enums : List EnumType) :
    fieldSource v f ≠ .members field enums := by
  cases hpass : v.isPassthrough f.name with
  | true =>
      rw [fieldSource, if_pos hpass]
      exact nofun
  | false =>
      rw [fieldSource_eq_fields_iff.mpr ⟨hpass, hm, hclass⟩]
      exact nofun

end

/-! ## Down the tree -/

namespace Place.Enrolled

variable {v : Vocabulary} {repeated : Bool} {m : Message} {n c : Node}

/-- A child below the node of a message is what was offered by the first field that asks for its
name. -/
theorem exists_field (h : n.Enrolled v repeated (.fields m)) (hc : c ∈ n.below) :
    ∃ f b notices i, m.fields.find? (asksFor v c.name) = some f ∧
      .child b notices ∈ fieldOffers v repeated i f ∧ c.Embodies b := by
  obtain ⟨parent, start, hchildren⟩ := h
  obtain ⟨b, notices, hfirst, hembodies⟩ := exists_offer_of_mem_below hchildren hc
  obtain ⟨f, i, hf, hmem⟩ := exists_fieldOffers_of_find? hfirst
  exact ⟨f, b, notices, i, hf, hmem, hembodies⟩

/-- Below a child is what its field has for a source. -/
theorem field (h : n.Enrolled v repeated (.fields m)) (hc : c ∈ n.below) {f : Field}
    (hf : m.fields.find? (asksFor v c.name) = some f) :
    c.Enrolled v (f.startsRepetition || repeated) (fieldSource v f) := by
  obtain ⟨g, b, notices, i, hg, hmem, hembodies⟩ := h.exists_field hc
  obtain rfl := Option.some.inj (hf.symm.trans hg)
  obtain ⟨parent, hbelow⟩ := exists_children_of_mem_fieldOffers hmem
  obtain ⟨start, hchildren⟩ := hembodies.children
  exact ⟨parent, start, hchildren.trans (congrArg _ hbelow)⟩

/-- A child below a bag is a member of one of its enums, or its marker. -/
theorem exists_member {field : String} {enums : List EnumType}
    (h : n.Enrolled v repeated (.members field enums)) (hc : c ∈ n.below) :
    ∃ e, ((∃ enum ∈ enums, ∃ u ∈ enum.members, e = memberEntry enum.name u) ∨
      e = markerEntry field) ∧ c.Embodies (.node e []) := by
  obtain ⟨parent, start, hchildren⟩ := h
  obtain ⟨b, notices, hfirst, hembodies⟩ := exists_offer_of_mem_below hchildren hc
  obtain ⟨enum, henum, hmem⟩ := List.mem_flatMap.mp (List.mem_of_find?_eq_some hfirst)
  rcases mem_enumOffers hmem with ⟨u, hu, hoffer⟩ | hoffer
  · exact ⟨_, Or.inl ⟨enum, henum, u, hu, rfl⟩, (Offer.child.inj hoffer).1 ▸ hembodies⟩
  · exact ⟨_, Or.inr rfl, (Offer.child.inj hoffer).1 ▸ hembodies⟩

theorem member {field : String} {enums : List EnumType}
    (h : n.Enrolled v repeated (.members field enums)) (hc : c ∈ n.below) :
    c.Enrolled v repeated .nothing := by
  obtain ⟨e, -, hembodies⟩ := h.exists_member hc
  obtain ⟨start, hchildren⟩ := hembodies.children
  exact ⟨"", start, hchildren⟩

theorem below_eq_nil (h : n.Enrolled v repeated .nothing) : n.below = [] := by
  obtain ⟨parent, start, hchildren⟩ := h
  rw [below, hchildren]
  rfl

end Place.Enrolled

namespace Tree

variable {v : Vocabulary} {root : String} {type : Message} {t : Tree} {n : Node} {fs : List Field}
  {s : Source}

/-- The children of a node were enrolled from the source that the node originates from.  They are
marked as repeated if one of the fields that the node comes from starts a repetition. -/
theorem Origin.enrolled (built : (build v root (some type)).value = .ok t)
    (h : t.Origin v type n fs s) : n.Enrolled v (fs.any FieldOf.startsRepetition) s := by
  induction h with
  | root =>
      obtain ⟨_, hm, -, rfl⟩ := build_eq_ok_iff.mp built
      cases hm
      exact ⟨root, 1, rfl⟩
  | field _ hc hf ih => exact ih.field hc hf
  | member _ hc ih => exact ih.member hc

theorem Origin.mem_nodes (h : t.Origin v type n fs s) : n ∈ t.nodes := by
  induction h with
  | root => exact t.rootNode_mem_nodes
  | field _ hc _ ih => exact mem_nodes_of_mem_below ih hc
  | member _ hc ih => exact mem_nodes_of_mem_below ih hc

/-- On the way to a message every field is expanded. -/
theorem Origin.exists_expandsTo {m : Message} (h : t.Origin v type n fs (.fields m)) :
    ∀ f ∈ fs, ∃ inner, ExpandsTo v f inner := by
  generalize hs : Source.fields m = s at h
  induction h generalizing m with
  | root => exact fun f hf => absurd hf List.not_mem_nil
  | field _ _ _ ih =>
      intro f hf
      rcases List.mem_cons.mp hf with rfl | hf
      · exact ⟨m, fieldSource_eq_fields_iff.mp hs.symm⟩
      · exact ih rfl f hf
  | member _ _ _ => cases hs

/-- What has members below is the node of a field that is a bag. -/
theorem Origin.exists_eq_cons {field : String} {enums : List EnumType}
    (h : t.Origin v type n fs (.members field enums)) :
    ∃ f gs, fs = f :: gs ∧ fieldSource v f = .members field enums := by
  generalize hs : Source.members field enums = s at h
  cases h with
  | root => cases hs
  | field _ _ _ => exact ⟨_, _, rfl, rfl⟩
  | member _ _ => cases hs

/-- A node that comes from a field is what this field has offered, unless the field is a bag, which
has members. -/
theorem Origin.exists_offer (built : (build v root (some type)).value = .ok t) {f : Field}
    (h : t.Origin v type n (f :: fs) s)
    (hbag : ∀ field enums, fieldSource v f ≠ .members field enums) :
    s = fieldSource v f ∧ ∃ b notices i,
      .child b notices ∈ fieldOffers v (fs.any FieldOf.startsRepetition) i f ∧ n.Embodies b := by
  generalize hfs : f :: fs = gs at h
  cases h with
  | root => cases hfs
  | field hq hc hf =>
      cases hfs
      obtain ⟨g, b, notices, i, hg, hmem, hembodies⟩ := (hq.enrolled built).exists_field hc
      obtain rfl := Option.some.inj (hf.symm.trans hg)
      exact ⟨rfl, b, notices, i, hmem, hembodies⟩
  | member hq _ =>
      obtain ⟨g, gs, heq, hsource⟩ := hq.exists_eq_cons
      rw [← hfs] at heq
      cases heq
      exact absurd hsource (hbag _ _)

/-- Every node comes from somewhere. -/
theorem exists_origin (built : (build v root (some type)).value = .ok t) :
    ∀ n ∈ t.nodes, ∃ fs s, t.Origin v type n fs s := by
  refine nodes_induction ⟨[], .fields type, .root⟩ ?_
  rintro n - ⟨fs, s, horigin⟩ c hc
  have henrolled := horigin.enrolled built
  cases s with
  | fields m =>
      obtain ⟨f, -, -, -, hf, -⟩ := henrolled.exists_field hc
      exact ⟨f :: fs, fieldSource v f, .field horigin hc hf⟩
  | members field enums => exact ⟨fs, .nothing, .member horigin hc⟩
  | nothing =>
      rw [henrolled.below_eq_nil] at hc
      exact absurd hc List.not_mem_nil

/-- A node that is neither plain nor a leaf of an enum comes from a field that holds a message, and
is what was offered for this message. -/
theorem exists_messageOffer (built : (build v root (some type)).value = .ok t) (hn : n ∈ t.nodes)
    (hplain : n.shape ≠ .plain) (hmarker : n.shape ≠ .enumMarker) :
    ∃ (f : Field) (fs : List Field) (m : Message) (b : Branch) (notices : List Notice)
      (repeated inMap : Bool) (position : Nat),
      t.Origin v type n (f :: fs) (fieldSource v f) ∧ f.type.Holds m ∧ n.Embodies b ∧
      .child b notices =
        messageOffer v (fieldEntry v position f.name f.comment) repeated inMap m := by
  rcases eq_rootNode_or_mem_below hn with rfl | ⟨q, hq, hc⟩
  · exact absurd (sound_of_build built).root_plain hplain
  obtain ⟨fs, s, horigin⟩ := exists_origin built q hq
  have henrolled := horigin.enrolled built
  cases s with
  | fields outer =>
      obtain ⟨f, b, notices, i, hf, hmem, hembodies⟩ := henrolled.exists_field hc
      rw [Place.shape, hembodies.entry] at hplain hmarker
      cases makes_of_mem_fieldOffers hmem with
      | passed | scalar | scalarMap | enumMap => exact absurd rfl hplain
      | member | marker => exact absurd rfl hmarker
      | message _ hm hb =>
          exact ⟨f, fs, _, b, _, _, _, i, .field horigin hc hf, hm, hembodies, hb⟩
  | members field enums =>
      obtain ⟨e, he, hembodies⟩ := henrolled.exists_member hc
      rw [Place.shape, hembodies.entry] at hmarker
      rcases he with ⟨_, _, _, _, rfl⟩ | rfl <;> exact absurd rfl hmarker
  | nothing =>
      rw [henrolled.below_eq_nil] at hc
      exact absurd hc List.not_mem_nil

/-- No node comes from two places. -/
theorem Origin.unique (hsound : t.Sound) (h : t.Origin v type n fs s) :
    ∀ {fs' : List Field} {s' : Source}, t.Origin v type n fs' s' → fs = fs' ∧ s = s' := by
  have hroot : ∀ {q : Node}, t.rootNode ∉ q.below := by
    intro q hq
    have habove := Place.above_of_mem_below hq
    rw [above_rootNode] at habove
    cases habove
  have hparent : ∀ {q q' c : Node}, q ∈ t.nodes → q' ∈ t.nodes → c ∈ q.below → c ∈ q'.below →
      q = q' := by
    intro q q' c hq hq' hc hc'
    exact Option.some.inj
      ((hsound.parent?_of_mem_below hq hc).symm.trans (hsound.parent?_of_mem_below hq' hc'))
  induction h with
  | root =>
      intro fs' s' h'
      cases h' with
      | root => exact ⟨rfl, rfl⟩
      | field _ hc _ | member _ hc => exact absurd hc hroot
  | field h hc hf ih =>
      intro fs' s' h'
      cases h' with
      | root => exact absurd hc hroot
      | field h' hc' hf' =>
          obtain rfl := hparent h.mem_nodes h'.mem_nodes hc hc'
          obtain ⟨rfl, hsource⟩ := ih h'
          cases hsource
          obtain rfl := Option.some.inj (hf.symm.trans hf')
          exact ⟨rfl, rfl⟩
      | member h' hc' =>
          obtain rfl := hparent h.mem_nodes h'.mem_nodes hc hc'
          cases (ih h').2
  | member h hc ih =>
      intro fs' s' h'
      cases h' with
      | root => exact absurd hc hroot
      | field h' hc' hf' =>
          obtain rfl := hparent h.mem_nodes h'.mem_nodes hc hc'
          cases (ih h').2
      | member h' hc' =>
          obtain rfl := hparent h.mem_nodes h'.mem_nodes hc hc'
          exact ⟨(ih h').1, rfl⟩

end Tree

/-! ## A log of items -/

def sampleItem : Message where
  name := "Item"
  fields := [{ name := "id", number := 1, type := .scalar .int64 }]

/-- Items in a list, in a map and passed through, a bag in a list, and a type with an unlucky
name. -/
def sampleItems : Message where
  name := "ItemLog"
  fields := [
    { name := "items", number := 1, cardinality := .repeated, type := .message sampleItem },
    { name := "item", number := 2, type := .message sampleItem },
    { name := "by_id", number := 3, type := .map .int64 (.message sampleItem) },
    { name := "serialized_reco_user_info", number := 4, type := .message sampleItem },
    { name := "attrs", number := 5, cardinality := .repeated, type := .message sampleBag },
    { name := "note", number := 6, type := .message { sampleItem with name := "UnrepeatedItem" } }]

def sampleItemsTree : Tree := .ofEntries (Tree.rootBranch {} "log" sampleItems).value

theorem build_sampleItems :
    (Tree.build {} "log" (some sampleItems)).value = .ok sampleItemsTree := rfl

/-- A child of the root comes from the first field that asks for its name. -/
theorem origin_sampleItems {c : Node} {f : Field}
    (hc : sampleItemsTree.rootNode.child? f.name = some c)
    (hf : sampleItems.fields.find? (asksFor {} c.name) = some f) :
    sampleItemsTree.Origin {} sampleItems c [f] (fieldSource {} f) :=
  .field .root (Place.mem_below_of_child? hc).1 hf

end FieldAtlas
