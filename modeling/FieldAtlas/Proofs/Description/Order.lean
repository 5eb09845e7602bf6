import FieldAtlas.Description.Validation
import Mathlib.Data.List.Nodup

/-!
# `Order` — what a description in order is made of

Validation looks for the first defect and stops there.  That it finds none says something about
every part, and the two recursions of the search are undone here one level at a time: a list of
fields is in order if each field is and no two of them share a name (`fieldsDefect?_eq_none_iff`),
and a message is if its fields are and it has its names (`messageDefect?_eq_none_iff`).
-/

namespace FieldAtlas

/-- The type is a message, or a map to that message. -/
def FieldType.Holds (type : FieldType) (m : Message) : Prop :=
  type = .message m ∨ ∃ key, type = .map key (.message m)

/-- What has been seen only matters as names that may not come again. -/
theorem fieldsDefect?_eq_none_iff {message : String} {fields : List Field} :
    ∀ {seen : List String}, fieldsDefect? message seen fields = none ↔
      (∀ f ∈ fields, f.name ≠ "" ∧ typeDefect? message f.name f.type = none) ∧
      (fields.map (·.name)).Nodup ∧ ∀ f ∈ fields, f.name ∉ seen := by
  induction fields with
  | nil => simp [fieldsDefect?]
  | cons f rest ih =>
      intro seen
      obtain ⟨name, number, cardinality, type, comment⟩ := f
      rw [fieldsDefect?]
      by_cases hname : name = ""
      · simp [hname]
      by_cases hseen : name ∈ seen
      · simp [hname, hseen]
      have hfirst : (typeDefect? message name type <|>
            fieldsDefect? message (name :: seen) rest) = none ↔
          typeDefect? message name type = none ∧
            fieldsDefect? message (name :: seen) rest = none := by
        cases typeDefect? message name type <;> simp
      rw [if_neg hname, if_neg hseen, hfirst, ih, List.map_cons, List.nodup_cons,
        List.forall_mem_cons, List.forall_mem_cons]
      simp only [List.mem_cons, List.mem_map, not_or, not_exists, not_and]
      constructor
      · rintro ⟨htype, hrest, hnodup, hfresh⟩
        exact ⟨⟨⟨hname, htype⟩, hrest⟩, ⟨fun g hg => (hfresh g hg).1, hnodup⟩, hseen,
          fun g hg => (hfresh g hg).2⟩
      · rintro ⟨⟨⟨-, htype⟩, hrest⟩, ⟨hdiffer, hnodup⟩, -, hfresh⟩
        exact ⟨htype, hrest, hnodup, fun g hg => ⟨hdiffer g hg, hfresh g hg⟩⟩

theorem messageDefect?_eq_none_iff {m : Message} :
    messageDefect? m = none ↔ m.name ≠ "" ∧
      (∀ f ∈ m.fields, f.name ≠ "" ∧ typeDefect? m.name f.name f.type = none) ∧
      (m.fields.map (·.name)).Nodup ∧ ∀ e ∈ m.enums, e.name ≠ "" := by
  obtain ⟨name, fields, enums⟩ := m
  rw [messageDefect?]
  by_cases hname : name = ""
  · simp [hname]
  have hparts : (fieldsDefect? name [] fields <|>
        if enums.any (·.name == "") then some (.namelessNestedEnum name) else none) = none ↔
      fieldsDefect? name [] fields = none ∧ ∀ e ∈ enums, e.name ≠ "" := by
    cases fieldsDefect? name [] fields <;> simp
  rw [if_neg hname, hparts, fieldsDefect?_eq_none_iff]
  simp [hname, and_assoc]

/-- A type that is a message, or a map to it, has the defects of the message. -/
theorem typeDefect?_of_holds {message field : String} {type : FieldType} {m : Message}
    (htype : type.Holds m) : typeDefect? message field type = messageDefect? m := by
  rcases htype with rfl | ⟨key, rfl⟩
  · rw [typeDefect?]
  · rw [typeDefect?, typeDefect?]

/-- A message that is the type of a field, or of the values of a map, is in order if the type is. -/
theorem messageDefect?_of_typeDefect? {message field : String} {type : FieldType} {m : Message}
    (horder : typeDefect? message field type = none) (htype : type.Holds m) :
    messageDefect? m = none := by
  rwa [typeDefect?_of_holds htype] at horder

end FieldAtlas
