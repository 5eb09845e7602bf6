import FieldAtlas.Proofs.Text.Replacing
import FieldAtlas.Proofs.Tree.Origin

/-!
# `Repetition` — which nodes pass for repeated

Whether a node is repeated is read off its declared type, by the word that the builder puts in front
of it.  The word says two things.  On a scalar it says that the field itself is repeated.  On a
message it says that this field, or one above it, is a repeated message field; a map lets that
through and adds nothing (`Tree.declaredType_of_origin`).  Bags, enums, maps and fields that are
passed through never have the word in front, repeated or not.

So a node that comes from a list passes for one if the builder has written so on the line above it,
and a node that passes for one comes from a list unless the word stands in the name of a type
(`Tree.exists_origin_isFromList`).
-/

namespace FieldAtlas

/-- The builder writes on the node of the field that the field is repeated. -/
def FieldOf.writesRepetition (v : Vocabulary) (f : Field) : Bool :=
  f.cardinality == .repeated && !v.isPassthrough f.name &&
    match f.type with
    | .scalar _ => true
    | .message m =>
      match v.classify m with
      | .structural | .keyedRecords => true
      | .bag _ => false
    | .enum _ | .map _ _ | .group => false

/-- The name from the description that the builder writes as the type of the field. -/
def FieldOf.typeName? (v : Vocabulary) (f : Field) : Option String :=
  if v.isPassthrough f.name then none
  else match f.type with
  | .message m | .map _ (.message m) => some m.name
  | .map _ (.enum e) => some e.name
  | .scalar _ | .enum _ | .map _ _ | .group => none

/-- The enums that list the members of the field, if it is a bag.  Each is the type of its
members. -/
def FieldOf.bagEnums (v : Vocabulary) (f : Field) : List EnumType :=
  match fieldSource v f with
  | .members _ enums => enums
  | .fields _ | .nothing => []

/-- The word stands in the name of a type that the builder has written on the line of the node: in
that of the root, of a field on the line, or of the enum that the node is a member of. -/
def Place.HasWordInName (v : Vocabulary) (type : Message) (fs : List Field) (n : Node) : Prop :=
  Text.contains "repeated" type.name = true ∨
    (∃ f ∈ fs, ∃ name ∈ f.typeName? v, Text.contains "repeated" name = true) ∨
    (n.shape = .enumMarker ∧ ∃ f ∈ fs, ∃ e ∈ f.bagEnums v,
      n.entry.declaredType = e.name ∧ Text.contains "repeated" e.name = true)

/-! ## The word in a type -/

theorem contains_qualified (repeated : Bool) (type : String) :
    Text.contains "repeated" (qualified repeated type) =
      (repeated || Text.contains "repeated" type) := by
  cases repeated with
  | false => rfl
  | true =>
      have hprefix : "repeated".toList <+: ("repeated " ++ type).toList :=
        ⟨' ' :: type.toList, by rw [String.toList_append]; rfl⟩
      exact Text.isInfix_iff.mpr hprefix.isInfix

theorem qualified_eq_iff {repeated : Bool} {type : String} :
    qualified repeated type = "repeated " ++ type ↔ repeated = true := by
  cases repeated with
  | false =>
      refine iff_of_false (fun h => ?_) Bool.false_ne_true
      have hlength := congrArg String.length h
      rw [String.length_append] at hlength
      exact absurd hlength (Nat.ne_of_lt (Nat.lt_add_of_pos_left (by decide)))
  | true => exact iff_of_true rfl rfl

theorem not_contains_scalar (s : Scalar) : Text.contains "repeated" s.name = false := by
  cases s <;> decide

/-- The word can only come into the type of a map with the name of its values. -/
theorem contains_mapType (key : Scalar) (value : String) :
    Text.contains "repeated" ("map<" ++ key.name ++ ", " ++ value ++ ">") =
      Text.contains "repeated" value := by
  have hchars : ("map<" ++ key.name ++ ", " ++ value ++ ">").toList =
      "map".toList ++ '<' :: (key.name.toList ++ ',' :: ([] ++ ' ' :: (value.toList ++ ['>']))) := by
    simp [String.toList_append]
  have hmap : ¬ "repeated".toList <:+: "map".toList := by decide
  have hkey : ¬ "repeated".toList <:+: key.name.toList :=
    mt Text.isInfix_iff.mpr (Bool.eq_false_iff.mp (not_contains_scalar key))
  have hnil : ¬ "repeated".toList <:+: [] := by decide
  rw [Bool.eq_iff_iff, Text.contains, Text.contains, Text.isInfix_iff, Text.isInfix_iff, hchars,
    Text.infix_append_cons_iff (by decide), Text.infix_append_cons_iff (by decide),
    Text.infix_append_cons_iff (by decide), Text.infix_append_cons_iff (by decide)]
  simp only [hmap, hkey, hnil, false_or, or_false]

/-! ## What a field writes -/

section

variable {v : Vocabulary} {inherited : Bool} {position : Nat} {f : Field} {b : Branch}
  {notices : List Notice}

/-- A message writes its name, and the qualifier unless it is a bag. -/
theorem declaredType_of_messageOffer {base : Entry} {repeated inMap : Bool} {m : Message}
    (h : .child b notices = messageOffer v base repeated inMap m) :
    b.label.declaredType =
      match v.classify m with
      | .structural | .keyedRecords => qualified repeated m.name
      | .bag _ => m.name := by
  rw [label_of_messageOffer h]
  cases v.classify m <;> rfl

theorem not_contains_fieldType (type : FieldType) : Text.contains "repeated" type.name = false := by
  have henum : Text.contains "repeated" "enum" = false := by decide
  have hmessage : Text.contains "repeated" "message" = false := by decide
  have hgroup : Text.contains "repeated" "group" = false := by decide
  cases type with
  | scalar s => exact not_contains_scalar s
  | enum _ => exact henum
  | message _ | map _ _ => exact hmessage
  | group => exact hgroup

/-- On the node of a message the qualifier counts unless it is a bag. -/
theorem isRepeated_of_messageOffer {base : Entry} {repeated inMap : Bool} {m : Message}
    (h : .child b notices = messageOffer v base repeated inMap m) (field : String) :
    b.label.isRepeated = true ↔
      (repeated = true ∧ ∃ inner, (messageSeed v 0 field false m).source = .fields inner) ∨
        Text.contains "repeated" m.name = true := by
  rw [Entry.isRepeated, declaredType_of_messageOffer h]
  unfold messageSeed
  cases hclass : v.classify m with
  | structural | keyedRecords => simp [contains_qualified]
  | bag flavor => cases flavor <;> simp

/-- A message field writes what it starts, unless it is a bag. -/
theorem writesRepetition_iff {m : Message} (hpass : v.isPassthrough f.name = false)
    (hm : f.type.Holds m) :
    f.writesRepetition v = true ↔
      f.startsRepetition = true ∧ ∃ inner, fieldSource v f = .fields inner := by
  rw [fieldSource_of_holds hpass hm]
  rcases hm with htype | ⟨key, htype⟩
  · have hstarts : f.startsRepetition = (f.cardinality == .repeated) := by
      rw [FieldOf.startsRepetition, htype]
      exact Bool.and_true _
    rw [hstarts]
    unfold messageSeed
    cases hclass : v.classify m with
    | structural | keyedRecords => simp [FieldOf.writesRepetition, hpass, htype, hclass]
    | bag flavor => cases flavor <;> simp [FieldOf.writesRepetition, hpass, htype, hclass]
  · simp [FieldOf.writesRepetition, FieldOf.startsRepetition, FieldType.message?, htype]

/-- The word is on the node that a field offers if the field writes it there, if the field is
expanded and is repeated from above, or if it stands in a name. -/
theorem isRepeated_iff_of_mem_fieldOffers
    (h : .child b notices ∈ fieldOffers v inherited position f) :
    b.label.isRepeated = true ↔
      f.writesRepetition v = true ∨ (inherited = true ∧ ∃ m, ExpandsTo v f m) ∨
        ∃ name ∈ f.typeName? v, Text.contains "repeated" name = true := by
  simp only [← fieldSource_eq_fields_iff]
  -- A leaf has the word as its type has it.
  have hleaf : ∀ e : Entry, (Rose.label (.node e [])).isRepeated =
      Text.contains "repeated" e.declaredType := fun _ => rfl
  cases makes_of_mem_fieldOffers h with
  | passed hpass =>
      rw [hleaf, not_contains_fieldType f.type]
      simp [FieldOf.writesRepetition, FieldOf.typeName?, fieldSource, hpass]
  | scalar hpass htype =>
      rw [hleaf, contains_qualified, not_contains_scalar]
      simp [FieldOf.writesRepetition, FieldOf.typeName?, fieldSource, hpass, htype]
  | @member e u hpass htype _ =>
      have henum : Text.contains "repeated" (memberEntry "enum" u).declaredType = false :=
        not_contains_fieldType (.enum e)
      rw [hleaf, henum]
      simp [FieldOf.writesRepetition, FieldOf.typeName?, fieldSource, hpass, htype]
  | marker hpass htype =>
      have hmarker : Text.contains "repeated" (markerEntry f.name).declaredType = false :=
        not_contains_scalar .int64
      rw [hleaf, hmarker]
      simp [FieldOf.writesRepetition, FieldOf.typeName?, fieldSource, hpass, htype]
  | scalarMap hpass htype =>
      rw [hleaf, contains_mapType, not_contains_scalar]
      simp [FieldOf.writesRepetition, FieldOf.typeName?, fieldSource, hpass, htype]
  | enumMap hpass htype =>
      rw [hleaf, contains_mapType]
      simp [FieldOf.writesRepetition, FieldOf.typeName?, fieldSource, hpass, htype]
  | @message m _ _ _ hpass hm hb =>
      have hname : f.typeName? v = some m.name := by
        rw [FieldOf.typeName?, if_neg (Bool.eq_false_iff.mp hpass)]
        rcases hm with htype | ⟨key, htype⟩ <;> rw [htype]
      rw [isRepeated_of_messageOffer hb f.name, ← fieldSource_of_holds hpass hm, hname,
        writesRepetition_iff hpass hm, Bool.or_eq_true, or_and_right, or_assoc]
      simp

theorem startsRepetition_iff :
    f.startsRepetition = true ↔ f.cardinality = .repeated ∧ ∃ inner, f.type = .message inner := by
  rw [FieldOf.startsRepetition, Bool.and_eq_true, beq_iff_eq]
  refine and_congr_right fun _ => ?_
  cases f.type <;> simp [FieldType.message?]

theorem ExpandsTo.writesRepetition {m : Message} (h : ExpandsTo v f m)
    (hstarts : f.startsRepetition = true) : f.writesRepetition v = true :=
  (writesRepetition_iff h.expanded h.holds).mpr ⟨hstarts, m, fieldSource_eq_fields_iff.mpr h⟩

theorem cardinality_of_writesRepetition (h : f.writesRepetition v = true) :
    f.cardinality = .repeated := by
  rw [FieldOf.writesRepetition, Bool.and_eq_true, Bool.and_eq_true] at h
  exact beq_iff_eq.mp h.1.1

end

/-! ## Along the line of a node -/

theorem Place.isFromList_of_mem_below {n c : Node} (hc : c ∈ n.below) :
    c.isFromList = (c.entry.isRepeated || n.isFromList) := by
  rw [isFromList, above_of_mem_below hc, List.any_cons]
  rfl

theorem Place.Embodies.declaredType_eq {n : Node} {b : Branch} (h : n.Embodies b) :
    n.entry.declaredType = b.label.declaredType := by
  rw [h.entry]

theorem Place.Embodies.isRepeated_eq {n : Node} {b : Branch} (h : n.Embodies b) :
    n.entry.isRepeated = b.label.isRepeated :=
  congrArg (Text.contains "repeated") h.declaredType_eq

/-- What the types say above a node they say above the nodes below it. -/
theorem Place.HasWordInName.below {v : Vocabulary} {type : Message} {gs fs : List Field}
    {n c : Node} (h : n.HasWordInName v type gs) (hmarker : n.shape ≠ .enumMarker)
    (hsub : gs ⊆ fs) : c.HasWordInName v type fs := by
  rcases h with hroot | ⟨f, hf, hname⟩ | ⟨hmarker', -⟩
  · exact Or.inl hroot
  · exact Or.inr (Or.inl ⟨f, hsub hf, hname⟩)
  · exact absurd hmarker' hmarker

namespace Tree

variable {v : Vocabulary} {root : String} {type : Message} {t : Tree} {n : Node} {fs : List Field}
  {s : Source}

theorem isFromList_rootNode (built : (build v root (some type)).value = .ok t) :
    t.rootNode.isFromList = true ↔
      (∃ f ∈ [], FieldOf.writesRepetition v f = true) ∨ t.rootNode.HasWordInName v type [] := by
  obtain ⟨_, hm, -, rfl⟩ := build_eq_ok_iff.mp built
  cases hm
  rw [Place.isFromList, above_rootNode, List.any_nil, Bool.or_false]
  constructor
  · exact fun hword => Or.inr (Or.inl hword)
  · rintro (⟨f, hf, -⟩ | hword | ⟨f, hf, -⟩ | ⟨hmarker, -⟩)
    · exact absurd hf List.not_mem_nil
    · exact hword
    · exact absurd hf List.not_mem_nil
    · cases hmarker

/-- The step down to the node of a field.  A marker has nothing below, so a word in the name of an
enum is not handed down. -/
theorem Origin.isFromList_field (built : (build v root (some type)).value = .ok t) {m : Message}
    (h : t.Origin v type n fs (.fields m)) {c : Node} (hc : c ∈ n.below) {f : Field}
    (hf : m.fields.find? (asksFor v c.name) = some f)
    (ih : n.isFromList = true ↔
      (∃ g ∈ fs, g.writesRepetition v = true) ∨ n.HasWordInName v type fs) :
    c.isFromList = true ↔
      (∃ g ∈ f :: fs, g.writesRepetition v = true) ∨ c.HasWordInName v type (f :: fs) := by
  obtain ⟨g, b, notices, i, hg, hmem, hembodies⟩ := (h.enrolled built).exists_field hc
  obtain rfl := Option.some.inj (hf.symm.trans hg)
  have hself := isRepeated_iff_of_mem_fieldOffers hmem
  rw [← hembodies.isRepeated_eq] at hself
  rw [Place.isFromList_of_mem_below hc, Bool.or_eq_true]
  constructor
  · rintro (hown | habove)
    · rcases hself.mp hown with hwrites | ⟨hinherited, -⟩ | ⟨name, hname, hword⟩
      · exact Or.inl ⟨f, List.mem_cons_self, hwrites⟩
      · -- What is inherited was started by a field that is expanded, and such a field writes it.
        obtain ⟨g, hg, hstarts⟩ := List.any_eq_true.mp hinherited
        obtain ⟨inner, hexpands⟩ := h.exists_expandsTo g hg
        exact Or.inl ⟨g, List.mem_cons_of_mem _ hg, hexpands.writesRepetition hstarts⟩
      · exact Or.inr (Or.inr (Or.inl ⟨f, List.mem_cons_self, name, hname, hword⟩))
    · rcases ih.mp habove with ⟨g, hg, hwrites⟩ | hword
      · exact Or.inl ⟨g, List.mem_cons_of_mem _ hg, hwrites⟩
      · have hmarker := (sound_of_build built).shape_ne_marker h.mem_nodes hc
        exact Or.inr (hword.below hmarker (List.subset_cons_self _ _))
  · rintro (⟨g, hg, hwrites⟩ | hword | ⟨g, hg, hname⟩ | ⟨-, g, hg, e, he, htype, hword⟩)
    · rcases List.mem_cons.mp hg with rfl | hg
      · exact Or.inl (hself.mpr (Or.inl hwrites))
      · exact Or.inr (ih.mpr (Or.inl ⟨g, hg, hwrites⟩))
    · exact Or.inr (ih.mpr (Or.inr (Or.inl hword)))
    · rcases List.mem_cons.mp hg with rfl | hg
      · exact Or.inl (hself.mpr (Or.inr (Or.inr hname)))
      · exact Or.inr (ih.mpr (Or.inr (Or.inr (Or.inl ⟨g, hg, hname⟩))))
    · rw [Entry.isRepeated, htype]
      exact Or.inl hword

/-- The step down to a member, which is typed by its enum. -/
theorem Origin.isFromList_member (built : (build v root (some type)).value = .ok t) {field : String}
    {enums : List EnumType} (h : t.Origin v type n fs (.members field enums)) {c : Node}
    (hc : c ∈ n.below)
    (ih : n.isFromList = true ↔
      (∃ g ∈ fs, g.writesRepetition v = true) ∨ n.HasWordInName v type fs) :
    c.isFromList = true ↔
      (∃ g ∈ fs, g.writesRepetition v = true) ∨ c.HasWordInName v type fs := by
  obtain ⟨e, hmember, hembodies⟩ := (h.enrolled built).exists_member hc
  have htype : c.entry.declaredType = e.declaredType := hembodies.declaredType_eq
  rw [Place.isFromList_of_mem_below hc, Bool.or_eq_true]
  constructor
  · rintro (hown | habove)
    · rw [hembodies.isRepeated_eq] at hown
      rcases hmember with ⟨enum, henum, u, -, rfl⟩ | rfl
      · obtain ⟨f, gs, rfl, hsource⟩ := h.exists_eq_cons
        have hlisted : enum ∈ f.bagEnums v := by rwa [FieldOf.bagEnums, hsource]
        have hmarker : c.shape = .enumMarker := congrArg Entry.shape hembodies.entry
        exact Or.inr (Or.inr (Or.inr
          ⟨hmarker, f, List.mem_cons_self, enum, hlisted, htype, hown⟩))
      · exact absurd hown (Bool.eq_false_iff.mp (not_contains_scalar .int64))
    · rcases ih.mp habove with hwrites | hword
      · exact Or.inl hwrites
      · have hmarker := (sound_of_build built).shape_ne_marker h.mem_nodes hc
        exact Or.inr (hword.below hmarker (List.Subset.refl _))
  · rintro (hwrites | hword | hname | ⟨-, f, hf, enum, henum, htype, hword⟩)
    · exact Or.inr (ih.mpr (Or.inl hwrites))
    · exact Or.inr (ih.mpr (Or.inr (Or.inl hword)))
    · exact Or.inr (ih.mpr (Or.inr (Or.inr (Or.inl hname))))
    · rw [Entry.isRepeated, htype]
      exact Or.inl hword

/-- A node passes for repeated exactly if a field that it comes from writes so, or a name does. -/
theorem Origin.isFromList_iff (built : (build v root (some type)).value = .ok t)
    (h : t.Origin v type n fs s) :
    n.isFromList = true ↔
      (∃ f ∈ fs, f.writesRepetition v = true) ∨ n.HasWordInName v type fs := by
  induction h with
  | root => exact isFromList_rootNode built
  | field h hc hf ih => exact h.isFromList_field built hc hf ih
  | member h hc ih => exact h.isFromList_member built hc ih

/-- Every node passes for repeated exactly if one of the fields that it comes from is a repeated
scalar, or a repeated message that is expanded, or if the word stands in the name of a type.  Where
neither a name nor a repeated bag, enum, map or field that is passed through is in the way, it does
so exactly if it comes from a repeated field. -/
theorem exists_origin_isFromList (built : (build v root (some type)).value = .ok t) :
    ∀ n ∈ t.nodes, ∃ fs s, t.Origin v type n fs s ∧
      (n.isFromList = true ↔
        (∃ f ∈ fs, f.writesRepetition v = true) ∨ n.HasWordInName v type fs) ∧
      ((∀ f ∈ fs, f.cardinality = .repeated → f.writesRepetition v = true) →
        ¬ n.HasWordInName v type fs →
        (n.isFromList = true ↔ ∃ f ∈ fs, f.cardinality = .repeated)) := by
  intro n hn
  obtain ⟨fs, s, horigin⟩ := exists_origin built n hn
  have hiff := horigin.isFromList_iff built
  refine ⟨fs, s, horigin, hiff, fun hwrites hword => ?_⟩
  rw [hiff, or_iff_left hword]
  constructor
  · rintro ⟨f, hf, hrepeated⟩
    exact ⟨f, hf, cardinality_of_writesRepetition hrepeated⟩
  · rintro ⟨f, hf, hrepeated⟩
    exact ⟨f, hf, hwrites f hf hrepeated⟩

/-- The items of the list are repeated, and so is a field within them. -/
theorem isFromList_items_id :
    ∃ n, sampleItemsTree.rootNode.walk? ["items", "id"] = some n ∧ n.isFromList = true := by
  obtain ⟨n, id, items, hn, horigin, hitems, hid, hplain, hnames⟩ :
      ∃ n id items, sampleItemsTree.rootNode.walk? ["items", "id"] = some n ∧
        sampleItemsTree.Origin {} sampleItems n [id, items] .nothing ∧
        (items.cardinality = .repeated ∧ items.writesRepetition {} = true) ∧
        id.cardinality = .singular ∧ n.shape = .plain ∧
        items.typeName? {} = some "Item" ∧ id.typeName? {} = none :=
    ⟨_, sampleItem.fields.head nofun, sampleItems.fields.head nofun, rfl,
      .field (origin_sampleItems rfl rfl) List.mem_cons_self rfl, ⟨rfl, rfl⟩, rfl, rfl, rfl, rfl⟩
  obtain ⟨fs, s, horigin', -, hiff⟩ :=
    exists_origin_isFromList build_sampleItems n horigin.mem_nodes
  obtain ⟨rfl, -⟩ := horigin.unique (sound_of_build build_sampleItems) horigin'
  have hwrites : ∀ f ∈ [id, items], f.cardinality = .repeated →
      f.writesRepetition {} = true := by
    intro f hf hrepeated
    rcases List.mem_pair.mp hf with rfl | rfl
    · rw [hid] at hrepeated
      cases hrepeated
    · exact hitems.2
  have hword : ¬ n.HasWordInName {} sampleItems [id, items] := by
    rintro (hroot | ⟨f, hf, name, hname, hword⟩ | ⟨hmarker, -⟩)
    · exact absurd hroot (by decide)
    · rcases List.mem_pair.mp hf with rfl | rfl
      · rw [hnames.2] at hname
        cases hname
      · rw [hnames.1] at hname
        cases hname
        exact absurd hword (by decide)
    · rw [hplain] at hmarker
      cases hmarker
  exact ⟨n, hn, (hiff hwrites hword).mpr ⟨items, by simp, hitems.1⟩⟩

/-- A bag in a list does not pass for repeated, and a type with an unlucky name does. -/
theorem isFromList_of_bag_and_name :
    validate sampleItems = .ok () ∧
    (build {} "log" (some sampleItems)).value = .ok sampleItemsTree ∧
    (∃ n f, sampleItemsTree.rootNode.child? "attrs" = some n ∧
      sampleItemsTree.Origin {} sampleItems n [f] (fieldSource {} f) ∧
      f.cardinality = .repeated ∧ n.isFromList = false) ∧
    ∃ n f, sampleItemsTree.rootNode.child? "note" = some n ∧
      sampleItemsTree.Origin {} sampleItems n [f] (fieldSource {} f) ∧
      f.cardinality = .singular ∧ n.isFromList = true := by
  refine ⟨rfl, build_sampleItems, ⟨_, _, rfl, origin_sampleItems rfl rfl, rfl, ?_⟩,
    ⟨_, _, rfl, origin_sampleItems rfl rfl, rfl, ?_⟩⟩
  · rfl
  · rfl

/-- The node of a message that is expanded has the qualifier if one of the fields that it comes
from, the nearest included, is a repeated message field.  A scalar has it by its own field alone. -/
theorem declaredType_of_origin (built : (build v root (some type)).value = .ok t) {f : Field}
    (h : t.Origin v type n (f :: fs) s) (hpass : v.isPassthrough f.name = false) :
    (∀ m, f.type.Holds m → (∀ flavor, v.classify m ≠ .bag flavor) →
      (n.entry.declaredType = "repeated " ++ m.name ↔
        ∃ g ∈ f :: fs, g.cardinality = .repeated ∧ ∃ inner, g.type = .message inner) ∧
      ((∀ g ∈ f :: fs, g.cardinality = .repeated → ∀ inner, g.type ≠ .message inner) →
        n.entry.declaredType = m.name)) ∧
    ∀ scalar, f.type = .scalar scalar → n.entry.declaredType =
      if f.cardinality = .repeated then "repeated " ++ scalar.name else scalar.name := by
  constructor
  · intro m hholds hclass
    have hexpands : ExpandsTo v f m := ⟨hpass, hholds, hclass⟩
    obtain ⟨-, b, notices, i, hmem, hembodies⟩ :=
      h.exists_offer built (fieldSource_ne_members hholds hclass)
    obtain ⟨notices', hoffers⟩ :=
      hexpands.exists_fieldOffers_eq (fs.any FieldOf.startsRepetition) i
    rw [hoffers, List.mem_singleton] at hmem
    have htype : n.entry.declaredType =
        qualified ((f :: fs).any FieldOf.startsRepetition) m.name := by
      rw [hembodies.declaredType_eq, (Offer.child.inj hmem).1]
      exact declaredType_expandedEntry _ _ _
    have hany : (f :: fs).any FieldOf.startsRepetition = true ↔
        ∃ g ∈ f :: fs, g.cardinality = .repeated ∧ ∃ inner, g.type = .message inner := by
      simp only [List.any_eq_true, startsRepetition_iff]
    rw [htype]
    refine ⟨qualified_eq_iff.trans hany, fun hnone => ?_⟩
    have hflag : (f :: fs).any FieldOf.startsRepetition = false := by
      rw [← Bool.not_eq_true, hany]
      rintro ⟨g, hg, hrepeated, inner, hinner⟩
      exact hnone g hg hrepeated inner hinner
    rw [hflag]
    rfl
  · intro scalar htype
    obtain ⟨field, number, cardinality, type, comment⟩ := f
    cases htype
    have hsource : fieldSource v ⟨field, number, cardinality, .scalar scalar, comment⟩ = .nothing :=
      if_neg (Bool.eq_false_iff.mp hpass)
    obtain ⟨-, b, notices, i, hmem, hembodies⟩ :=
      h.exists_offer built (by rw [hsource]; exact nofun)
    rw [fieldOffers, if_neg (Bool.eq_false_iff.mp hpass), typeOffers, List.mem_singleton] at hmem
    rw [hembodies.declaredType_eq, (Offer.child.inj hmem).1]
    cases cardinality <;> rfl

/-- The items of the list have the qualifier. -/
theorem declaredType_of_items :
    ∃ n, sampleItemsTree.rootNode.child? "items" = some n ∧
      n.entry.declaredType = "repeated Item" := by
  obtain ⟨n, f, hn, horigin, hpass, htype, hrepeated⟩ :
      ∃ n f, sampleItemsTree.rootNode.child? "items" = some n ∧
        sampleItemsTree.Origin {} sampleItems n [f] (fieldSource {} f) ∧
        ({} : Vocabulary).isPassthrough f.name = false ∧ f.type = .message sampleItem ∧
        f.cardinality = .repeated :=
    ⟨_, _, rfl, origin_sampleItems rfl rfl, rfl, rfl, rfl⟩
  obtain ⟨hmessage, -⟩ := declaredType_of_origin build_sampleItems horigin hpass
  obtain ⟨hiff, -⟩ := hmessage sampleItem (Or.inl htype) nofun
  exact ⟨n, hn, hiff.mpr ⟨f, List.mem_singleton_self f, hrepeated, sampleItem, htype⟩⟩

/-- A field that is passed through says that it is a message, and not which. -/
theorem declaredType_of_passthrough :
    (build {} "log" (some sampleItems)).value = .ok sampleItemsTree ∧
    ∃ n f, sampleItemsTree.rootNode.child? "serialized_reco_user_info" = some n ∧
      sampleItemsTree.Origin {} sampleItems n [f] (fieldSource {} f) ∧
      f.type = .message sampleItem ∧ (∀ flavor, ({} : Vocabulary).classify sampleItem ≠ .bag flavor) ∧
      f.cardinality = .singular ∧ n.entry.declaredType ≠ sampleItem.name := by
  refine ⟨build_sampleItems, _, _, rfl, origin_sampleItems rfl rfl, rfl, nofun, rfl, ?_⟩
  exact (by decide : "message" ≠ "Item")

end Tree

end FieldAtlas
