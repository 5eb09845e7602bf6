import FieldAtlas.Proofs.Description.Order

/-!
# `FirstDefect` — validation finds the first of all defects

Validation stops at the first defect that it meets.  What it could have met is said here without any
search: `Flaw` has one constructor for each way in which a description can be out of order, at any
depth, and gives it a place.

A place is a list of numbers, and places are compared as words are.  In the places of a message, 0
is its name, `i + 1` begins what concerns the field at position `i`, and the number behind those of
the fields stands for its nested enums.  Of a field, 0 is the name, 1 its repetition, and 2 begins
what concerns its type, which for a message continues with the places of this message.

`IsFirst` says that an option holds the first of the flaws.  It is kept by each of the steps of
which the search is made (`IsFirst.orElse`, `IsFirst.cons`), and so it holds of every description
(`isFirst_message`).
-/

namespace FieldAtlas

/-! ## Flaws and their places -/

namespace FieldType

/-- The type is an enum, or a map to that enum. -/
def HoldsEnum (type : FieldType) (e : EnumType) : Prop :=
  type = .enum e ∨ ∃ key, type = .map key (.enum e)

/-- The type is a map to maps or to groups. -/
def IsUnsupportedMap (type : FieldType) : Prop :=
  ∃ key value, type = .map key value ∧ (value = .group ∨ ∃ key' value', value = .map key' value')

end FieldType

/-- The description has this defect at this place. -/
inductive Flaw : Message → List Nat → Defect → Prop
  | nameless {m : Message} : m.name = "" → Flaw m [0] .namelessMessage
  | namelessField {m : Message} {i : Nat} {f : Field} :
      m.fields[i]? = some f → f.name = "" → Flaw m [i + 1, 0] (.namelessField f.number m.name)
  | repeatedField {m : Message} {i : Nat} {f : Field} :
      m.fields[i]? = some f → f.name ∈ (m.fields.take i).map (·.name) →
        Flaw m [i + 1, 1] (.repeatedField f.name m.name)
  | mapValue {m : Message} {i : Nat} {f : Field} :
      m.fields[i]? = some f → f.type.IsUnsupportedMap → Flaw m [i + 1, 2] (.mapValue m.name f.name)
  | namelessEnum {m : Message} {i : Nat} {f : Field} {e : EnumType} :
      m.fields[i]? = some f → f.type.HoldsEnum e → e.name = "" →
        Flaw m [i + 1, 2] (.namelessFieldEnum m.name f.name)
  /-- A flaw of a message that is the type of a field, or of the values of a map. -/
  | inside {m n : Message} {i : Nat} {f : Field} {place : List Nat} {d : Defect} :
      m.fields[i]? = some f → f.type.Holds n → Flaw n place d → Flaw m ((i + 1) :: 2 :: place) d
  | nestedEnum {m : Message} {e : EnumType} :
      e ∈ m.enums → e.name = "" → Flaw m [m.fields.length + 1] (.namelessNestedEnum m.name)

/-- The flaws of a type, at their places within it. -/
inductive TypeFlaw (message field : String) (type : FieldType) : List Nat → Defect → Prop
  | mapValue : type.IsUnsupportedMap → TypeFlaw message field type [] (.mapValue message field)
  | namelessEnum {e : EnumType} :
      type.HoldsEnum e → e.name = "" →
        TypeFlaw message field type [] (.namelessFieldEnum message field)
  | inside {n : Message} {place : List Nat} {d : Defect} :
      type.Holds n → Flaw n place d → TypeFlaw message field type place d

/-- The flaws of a field behind fields of these names, at their places within it. -/
inductive FieldFlaw (message : String) (before : List String) (f : Field) :
    List Nat → Defect → Prop
  | nameless : f.name = "" → FieldFlaw message before f [0] (.namelessField f.number message)
  | repeated :
      f.name ∈ before → FieldFlaw message before f [1] (.repeatedField f.name message)
  | type {place : List Nat} {d : Defect} :
      TypeFlaw message f.name f.type place d → FieldFlaw message before f (2 :: place) d

/-- The flaws of fields, the first of them at position `start`, behind fields of the names
`seen`. -/
def FieldsFlaw (message : String) (seen : List String) (start : Nat) (fields : List Field)
    (place : List Nat) (d : Defect) : Prop :=
  ∃ i f rest, fields[i]? = some f ∧ place = (start + i + 1) :: rest ∧
    FieldFlaw message (seen ++ (fields.take i).map (·.name)) f rest d

/-- The flaws of a message are that it has no name, those of its fields, and that a nested enum has
no name. -/
theorem flaw_iff {m : Message} {place : List Nat} {d : Defect} :
    Flaw m place d ↔ (place = [0] ∧ d = .namelessMessage ∧ m.name = "") ∨
      FieldsFlaw m.name [] 0 m.fields place d ∨
      (place = [m.fields.length + 1] ∧ d = .namelessNestedEnum m.name ∧
        ∃ e ∈ m.enums, e.name = "") := by
  have hfield : ∀ {i : Nat} {f : Field} {rest : List Nat}, m.fields[i]? = some f →
      FieldFlaw m.name ((m.fields.take i).map (·.name)) f rest d →
        FieldsFlaw m.name [] 0 m.fields ((i + 1) :: rest) d := by
    intro i f rest hf hflaw
    exact ⟨i, f, rest, hf, by rw [Nat.zero_add], hflaw⟩
  constructor
  · intro h
    cases h with
    | nameless hname => exact Or.inl ⟨rfl, rfl, hname⟩
    | namelessField hf hname => exact Or.inr (Or.inl (hfield hf (.nameless hname)))
    | repeatedField hf hagain => exact Or.inr (Or.inl (hfield hf (.repeated hagain)))
    | mapValue hf htype => exact Or.inr (Or.inl (hfield hf (.type (.mapValue htype))))
    | namelessEnum hf htype hname =>
        exact Or.inr (Or.inl (hfield hf (.type (.namelessEnum htype hname))))
    | inside hf htype hinner =>
        exact Or.inr (Or.inl (hfield hf (.type (.inside htype hinner))))
    | nestedEnum he hname => exact Or.inr (Or.inr ⟨rfl, rfl, _, he, hname⟩)
  · rintro (⟨rfl, rfl, hname⟩ | ⟨i, f, rest, hf, rfl, hflaw⟩ | ⟨rfl, rfl, e, he, hname⟩)
    · exact .nameless hname
    · rw [Nat.zero_add]
      cases hflaw with
      | nameless hname => exact .namelessField hf hname
      | repeated hagain => exact .repeatedField hf hagain
      | type htype =>
          cases htype with
          | mapValue htype => exact .mapValue hf htype
          | namelessEnum htype hname => exact .namelessEnum hf htype hname
          | inside htype hinner => exact .inside hf htype hinner
    · exact .nestedEnum he hname

/-! ## The first of things with places -/

/-- The option holds the thing whose place is before all others, or there is nothing. -/
def IsFirst {α : Type} (S : List Nat → α → Prop) : Option α → Prop
  | none => ∀ place a, ¬ S place a
  | some a => ∃ place, S place a ∧
      ∀ place' a', S place' a' → (place' = place ∧ a' = a) ∨ place < place'

namespace IsFirst

variable {α : Type} {S T : List Nat → α → Prop} {o o' : Option α}

theorem congr (h : IsFirst S o) (hST : ∀ place a, S place a ↔ T place a) : IsFirst T o := by
  obtain rfl : S = T := funext fun place => funext fun a => propext (hST place a)
  exact h

/-- There is one thing at most, at one place. -/
theorem single (place : List Nat) (a : α) (P : Prop) [Decidable P] :
    IsFirst (fun place' a' => place' = place ∧ a' = a ∧ P) (if P then some a else none) := by
  split
  · next hP => exact ⟨place, ⟨rfl, rfl, hP⟩, fun _ _ h => Or.inl ⟨h.1, h.2.1⟩⟩
  · next hP => exact fun _ _ h => hP h.2.2

/-- What stands before all of the second kind is looked for first. -/
theorem orElse (hS : IsFirst S o) (hT : IsFirst T o')
    (hbefore : ∀ place a place' a', S place a → T place' a' → place < place') :
    IsFirst (fun place a => S place a ∨ T place a) (o <|> o') := by
  cases o with
  | some a =>
      obtain ⟨place, ha, hfirst⟩ := hS
      refine ⟨place, Or.inl ha, fun place' a' h => ?_⟩
      rcases h with h | h
      · exact hfirst place' a' h
      · exact Or.inr (hbefore place a place' a' ha h)
  | none =>
      refine congr hT fun place a => ?_
      exact ⟨Or.inr, fun h => h.resolve_left (hS place a)⟩

/-- A number in front of all places changes nothing. -/
theorem cons (h : IsFirst S o) (k : Nat) :
    IsFirst (fun place a => ∃ rest, place = k :: rest ∧ S rest a) o := by
  cases o with
  | none =>
      rintro place a ⟨rest, -, ha⟩
      exact h rest a ha
  | some a =>
      obtain ⟨rest, ha, hfirst⟩ := h
      refine ⟨k :: rest, ⟨rest, rfl, ha⟩, ?_⟩
      rintro place' a' ⟨rest', rfl, ha'⟩
      rcases hfirst rest' a' ha' with ⟨rfl, rfl⟩ | hlt
      · exact Or.inl ⟨rfl, rfl⟩
      · exact Or.inr (List.Lex.cons hlt)

/-- Nothing is found exactly if there is nothing. -/
theorem eq_none_iff (h : IsFirst S o) : o = none ↔ ∀ place a, ¬ S place a := by
  cases o with
  | none => exact iff_of_true rfl h
  | some a =>
      obtain ⟨place, ha, -⟩ := h
      exact iff_of_false nofun fun hnone => hnone place a ha

/-- What is found is what nothing is before. -/
theorem eq_some_iff (h : IsFirst S o) {a : α} :
    o = some a ↔ ∃ place, S place a ∧ ∀ place' a', S place' a' → ¬ place' < place := by
  cases o with
  | none =>
      refine iff_of_false nofun ?_
      rintro ⟨place, ha, -⟩
      exact h place a ha
  | some b =>
      obtain ⟨first, hb, hfirst⟩ := h
      constructor
      · rintro ⟨⟩
        refine ⟨first, hb, fun place' a' ha' hlt => ?_⟩
        rcases hfirst place' a' ha' with ⟨rfl, -⟩ | hlater
        · exact List.lt_irrefl _ hlt
        · exact List.lt_asymm hlt hlater
      · rintro ⟨place, ha, hbefore⟩
        rcases hfirst place a ha with ⟨-, rfl⟩ | hlt
        · rfl
        · exact absurd hlt (hbefore first b hb)

end IsFirst

/-! ## The search -/

theorem typeFlaw_iff {message field : String} {type : FieldType} {place : List Nat} {d : Defect} :
    TypeFlaw message field type place d ↔
      (place = [] ∧ d = .mapValue message field ∧ type.IsUnsupportedMap) ∨
      (place = [] ∧ d = .namelessFieldEnum message field ∧ ∃ e, type.HoldsEnum e ∧ e.name = "") ∨
      ∃ n, type.Holds n ∧ Flaw n place d := by
  constructor
  · intro h
    cases h with
    | mapValue htype => exact Or.inl ⟨rfl, rfl, htype⟩
    | namelessEnum htype hname => exact Or.inr (Or.inl ⟨rfl, rfl, _, htype, hname⟩)
    | inside htype hinner => exact Or.inr (Or.inr ⟨_, htype, hinner⟩)
  · rintro (⟨rfl, rfl, htype⟩ | ⟨rfl, rfl, e, htype, hname⟩ | ⟨n, htype, hinner⟩)
    · exact .mapValue htype
    · exact .namelessEnum htype hname
    · exact .inside htype hinner

theorem fieldFlaw_iff {message : String} {before : List String} {f : Field} {place : List Nat}
    {d : Defect} :
    FieldFlaw message before f place d ↔
      (place = [0] ∧ d = .namelessField f.number message ∧ f.name = "") ∨
      (place = [1] ∧ d = .repeatedField f.name message ∧ f.name ∈ before) ∨
      ∃ rest, place = 2 :: rest ∧ TypeFlaw message f.name f.type rest d := by
  constructor
  · intro h
    cases h with
    | nameless hname => exact Or.inl ⟨rfl, rfl, hname⟩
    | repeated hagain => exact Or.inr (Or.inl ⟨rfl, rfl, hagain⟩)
    | type htype => exact Or.inr (Or.inr ⟨_, rfl, htype⟩)
  · rintro (⟨rfl, rfl, hname⟩ | ⟨rfl, rfl, hagain⟩ | ⟨rest, rfl, htype⟩)
    · exact .nameless hname
    · exact .repeated hagain
    · exact .type htype

/-- Of the names before a field it only matters which they are. -/
theorem FieldFlaw.congr {message : String} {before before' : List String} {f : Field}
    {place : List Nat} {d : Defect} (h : ∀ name, name ∈ before ↔ name ∈ before') :
    FieldFlaw message before f place d ↔ FieldFlaw message before' f place d := by
  rw [fieldFlaw_iff, fieldFlaw_iff, h]

/-- The flaws of a first field, and those of the others behind it. -/
theorem fieldsFlaw_cons {message : String} {seen : List String} {start : Nat} {f : Field}
    {fields : List Field} {place : List Nat} {d : Defect} :
    FieldsFlaw message seen start (f :: fields) place d ↔
      (∃ rest, place = (start + 1) :: rest ∧ FieldFlaw message seen f rest d) ∨
        FieldsFlaw message (f.name :: seen) (start + 1) fields place d := by
  have hnames : ∀ (i : Nat) (name : String),
      name ∈ seen ++ ((f :: fields).take (i + 1)).map (·.name) ↔
        name ∈ (f.name :: seen) ++ (fields.take i).map (·.name) := by
    intro i name
    rw [List.take_succ_cons, List.map_cons]
    exact List.perm_middle.mem_iff
  constructor
  · rintro ⟨i, g, rest, hg, rfl, hflaw⟩
    cases i with
    | zero =>
        obtain rfl : f = g := Option.some.inj hg
        rw [List.take_zero, List.map_nil, List.append_nil] at hflaw
        exact Or.inl ⟨rest, rfl, hflaw⟩
    | succ i =>
        have hstart : start + (i + 1) + 1 = start + 1 + i + 1 := by omega
        rw [hstart]
        exact Or.inr ⟨i, g, rest, hg, rfl, (FieldFlaw.congr (hnames i)).mp hflaw⟩
  · rintro (⟨rest, rfl, hflaw⟩ | ⟨i, g, rest, hg, rfl, hflaw⟩)
    · refine ⟨0, f, rest, rfl, rfl, ?_⟩
      rwa [List.take_zero, List.map_nil, List.append_nil]
    · have hstart : start + 1 + i + 1 = start + (i + 1) + 1 := by omega
      rw [hstart]
      exact ⟨i + 1, g, rest, hg, rfl, (FieldFlaw.congr (hnames i)).mpr hflaw⟩

theorem ite_some_else {α : Type} (P : Prop) [Decidable P] (a : α) (o : Option α) :
    (if P then some a else o) = ((if P then some a else none) <|> o) := by
  split
  · rfl
  · rfl

theorem isFirst_field (before : List String) {message : String} {f : Field} {o : Option Defect}
    (htype : IsFirst (TypeFlaw message f.name f.type) o) :
    IsFirst (FieldFlaw message before f)
      ((if f.name = "" then some (.namelessField f.number message) else none) <|>
        ((if f.name ∈ before then some (.repeatedField f.name message) else none) <|> o)) := by
  have hname := IsFirst.single [0] (Defect.namelessField f.number message) (f.name = "")
  have hagain := IsFirst.single [1] (Defect.repeatedField f.name message) (f.name ∈ before)
  refine (hname.orElse (hagain.orElse (htype.cons 2) ?_) ?_).congr fun _ _ => fieldFlaw_iff.symm
  · rintro _ _ _ _ ⟨rfl, -⟩ ⟨rest, rfl, -⟩
    exact List.Lex.rel (by omega)
  · rintro _ _ _ _ ⟨rfl, -⟩ (⟨rfl, -⟩ | ⟨rest, rfl, -⟩)
    · exact List.Lex.rel (by omega)
    · exact List.Lex.rel (by omega)

mutual
/-- What validation finds in a message is the first of its flaws. -/
theorem isFirst_message : ∀ m : MessageOf FieldType, IsFirst (Flaw m) (messageDefect? m)
  | ⟨name, fields, enums⟩ => by
      have hname := IsFirst.single [0] Defect.namelessMessage (name = "")
      have hfields := isFirst_fields name [] 0 fields
      have hnested := IsFirst.single [fields.length + 1] (Defect.namelessNestedEnum name)
        (enums.any (·.name == "") = true)
      rw [messageDefect?, ite_some_else]
      refine (hname.orElse (hfields.orElse hnested ?_) ?_).congr fun place d => ?_
      · rintro _ _ _ _ ⟨i, f, rest, hf, rfl, -⟩ ⟨rfl, -⟩
        have hi : i < fields.length := (List.getElem?_eq_some_iff.mp hf).1
        exact List.Lex.rel (by omega)
      · rintro _ _ _ _ ⟨rfl, -⟩ (⟨i, f, rest, -, rfl, -⟩ | ⟨rfl, -⟩)
        · exact List.Lex.rel (by omega)
        · exact List.Lex.rel (by omega)
      · rw [flaw_iff]
        simp

theorem isFirst_fields (message : String) (seen : List String) (start : Nat) :
    ∀ fields : List (FieldOf FieldType),
      IsFirst (FieldsFlaw message seen start fields) (fieldsDefect? message seen fields)
  | [] => by
      rintro place d ⟨i, f, rest, hf, -⟩
      cases hf
  | ⟨name, number, cardinality, type, comment⟩ :: rest => by
      have hfield := (isFirst_field seen (f := ⟨name, number, cardinality, type, comment⟩)
        (isFirst_type message name type)).cons (start + 1)
      have hrest := isFirst_fields message (name :: seen) (start + 1) rest
      have hsplit :
          fieldsDefect? message seen (⟨name, number, cardinality, type, comment⟩ :: rest) =
          (((if name = "" then some (.namelessField number message) else none) <|>
            ((if name ∈ seen then some (.repeatedField name message) else none) <|>
              typeDefect? message name type)) <|> fieldsDefect? message (name :: seen) rest) := by
        rw [fieldsDefect?]
        split
        · rfl
        · split
          · rfl
          · rfl
      rw [hsplit]
      refine (hfield.orElse hrest ?_).congr fun _ _ => fieldsFlaw_cons.symm
      rintro _ _ _ _ ⟨_, rfl, -⟩ ⟨i, _, _, -, rfl, -⟩
      exact List.Lex.rel (by omega)

theorem isFirst_type (message field : String) :
    ∀ type : FieldType, IsFirst (TypeFlaw message field type) (typeDefect? message field type)
  | .scalar _ | .group | .map _ (.scalar _) => by
      intro place d h
      simp [typeFlaw_iff, FieldType.IsUnsupportedMap, FieldType.HoldsEnum, FieldType.Holds] at h
  | .enum e | .map _ (.enum e) => by
      have henum := IsFirst.single [] (Defect.namelessFieldEnum message field) (e.name = "")
      simp only [typeDefect?]
      refine henum.congr fun place d => ?_
      simp [typeFlaw_iff, FieldType.IsUnsupportedMap, FieldType.HoldsEnum, FieldType.Holds]
  | .message m | .map _ (.message m) => by
      simp only [typeDefect?]
      refine (isFirst_message m).congr fun place d => ?_
      simp [typeFlaw_iff, FieldType.IsUnsupportedMap, FieldType.HoldsEnum, FieldType.Holds]
  | .map _ .group | .map _ (.map _ _) => by
      have hmap := IsFirst.single [] (Defect.mapValue message field) True
      simp only [typeDefect?]
      refine hmap.congr fun place d => ?_
      simp [typeFlaw_iff, FieldType.IsUnsupportedMap, FieldType.HoldsEnum, FieldType.Holds]
end

/-! ## Descriptions in order -/

namespace Message

/-- The second message is the first, or is held by the fields of a message that is reached. -/
inductive Reaches : Message → Message → Prop
  | refl (m : Message) : Reaches m m
  | field {m n k : Message} {f : Field} :
      f ∈ m.fields → f.type.Holds n → Reaches n k → Reaches m k

/-- The message is in order, whatever is to be said of the messages that its fields hold. -/
structure InOrder (m : Message) : Prop where
  named : m.name ≠ ""
  fields_named : ∀ f ∈ m.fields, f.name ≠ ""
  fields_distinct : (m.fields.map (·.name)).Nodup
  maps_supported : ∀ f ∈ m.fields, ¬ f.type.IsUnsupportedMap
  enums_named : ∀ f ∈ m.fields, ∀ e, f.type.HoldsEnum e → e.name ≠ ""
  nested_named : ∀ e ∈ m.enums, e.name ≠ ""

end Message

/-- A message without defects is in order. -/
theorem inOrder_of_messageDefect? {m : Message} (h : messageDefect? m = none) : m.InOrder := by
  have hnone := (isFirst_message m).eq_none_iff.mp h
  obtain ⟨hname, hfields, hdistinct, hnested⟩ := messageDefect?_eq_none_iff.mp h
  refine ⟨hname, fun f hf => (hfields f hf).1, hdistinct, fun f hf hmap => ?_,
    fun f hf e he hempty => ?_, hnested⟩
  · obtain ⟨i, hi⟩ := List.mem_iff_getElem?.mp hf
    exact hnone _ _ (.mapValue hi hmap)
  · obtain ⟨i, hi⟩ := List.mem_iff_getElem?.mp hf
    exact hnone _ _ (.namelessEnum hi he hempty)

/-- A message without defects reaches none that has any. -/
theorem messageDefect?_of_reaches {m n : Message} (h : m.Reaches n)
    (horder : messageDefect? m = none) : messageDefect? n = none := by
  induction h with
  | refl => exact horder
  | field hf hholds _ ih =>
      have htype := ((messageDefect?_eq_none_iff.mp horder).2.1 _ hf).2
      exact ih (messageDefect?_of_typeDefect? htype hholds)

/-- Every flaw is one of a message that is reached. -/
theorem Flaw.exists_reaches {m : Message} {place : List Nat} {d : Defect} (h : Flaw m place d) :
    ∃ n, m.Reaches n ∧ ¬ n.InOrder := by
  induction h with
  | @nameless m hname => exact ⟨m, .refl m, fun h => h.named hname⟩
  | @namelessField m i f hf hname =>
      exact ⟨m, .refl m, fun h => h.fields_named f (List.mem_of_getElem? hf) hname⟩
  | @repeatedField m i f hf hagain =>
      refine ⟨m, .refl m, fun h => ?_⟩
      have hbehind : f.name ∈ (m.fields.map (·.name)).drop i := by
        rw [← List.map_drop]
        refine List.mem_map_of_mem (List.mem_of_getElem? (i := 0) ?_)
        rw [List.getElem?_drop, Nat.add_zero, hf]
      rw [List.map_take] at hagain
      exact List.disjoint_take_drop h.fields_distinct (Nat.le_refl i) hagain hbehind
  | @mapValue m i f hf hmap =>
      exact ⟨m, .refl m, fun h => h.maps_supported f (List.mem_of_getElem? hf) hmap⟩
  | @namelessEnum m i f e hf he hname =>
      exact ⟨m, .refl m, fun h => h.enums_named f (List.mem_of_getElem? hf) e he hname⟩
  | inside hf hholds _ ih =>
      obtain ⟨n, hreaches, hn⟩ := ih
      exact ⟨n, .field (List.mem_of_getElem? hf) hholds hreaches, hn⟩
  | @nestedEnum m e he hname => exact ⟨m, .refl m, fun h => h.nested_named e he hname⟩

/-- There are no defects exactly if every message that is reached is in order. -/
theorem messageDefect?_eq_none_iff_inOrder {m : Message} :
    messageDefect? m = none ↔ ∀ n, m.Reaches n → n.InOrder := by
  constructor
  · intro h n hreaches
    exact inOrder_of_messageDefect? (messageDefect?_of_reaches hreaches h)
  · intro h
    refine (isFirst_message m).eq_none_iff.mpr fun place d hflaw => ?_
    obtain ⟨n, hreaches, hn⟩ := hflaw.exists_reaches
    exact hn (h n hreaches)

theorem validate_eq_ok_iff {m : Message} : validate m = .ok () ↔ messageDefect? m = none := by
  rw [validate]
  cases messageDefect? m with
  | none => exact iff_of_true rfl rfl
  | some d => exact iff_of_false nofun nofun

theorem validate_eq_error_iff {m : Message} {d : Defect} :
    validate m = .error d ↔ messageDefect? m = some d := by
  rw [validate]
  cases messageDefect? m with
  | none => exact iff_of_false nofun nofun
  | some d' => simp

end FieldAtlas
