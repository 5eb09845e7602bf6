import FieldAtlas.Proofs.Tree.Invariant

/-!
# `Names` — where the names in a tree come from

Every name in a tree is the name of the root or is written in the description, as the name of a
field or of a member of an enum.  The induction goes down the tree and carries, with the name of a
node, the names that its source may still hand to the nodes below (`Source.names`).

`Tree.forall_names` turns a condition on the names of a description into one on the nodes of its
tree.
-/

namespace FieldAtlas

/-! ## Names of a description -/

def EnumType.names (e : EnumType) : List String := e.members.map (·.name)

mutual
/-- The names of the fields and of the members of enums, at every depth. -/
def messageNames : MessageOf FieldType → List String
  | ⟨_, fields, enums⟩ => fieldsNames fields ++ enums.flatMap EnumType.names

def fieldsNames : List (FieldOf FieldType) → List String
  | [] => []
  | ⟨name, _, _, type, _⟩ :: rest => name :: (typeNames type ++ fieldsNames rest)

def typeNames : FieldType → List String
  | .scalar _ | .group => []
  | .enum e => e.names
  | .message m => messageNames m
  | .map _ value => typeNames value
end

example : messageNames sampleHistory =
    ["photo_id", "labels", "name_value", "int_value", "UNKNOWN_NAME"] := by
  decide

/-- The names that a source may hand to the nodes below. -/
def Source.names : Source → List String
  | fields m => messageNames m
  | members field enums => field :: enums.flatMap EnumType.names
  | nothing => []

/-! ## Requests -/

/-- A seed has its own name and those of its source from a list. -/
structure Seed.NamedIn (names : List String) (x : Seed) : Prop where
  name : x.name ∈ names
  below : x.source.names ⊆ names

section

variable {v : Vocabulary} {position : Nat} {field : String} {names : List String} {g : Registration}

theorem Seed.NamedIn.mono {x : Seed} {more : List String} (h : x.NamedIn names)
    (hsub : names ⊆ more) : x.NamedIn more :=
  ⟨hsub h.name, List.Subset.trans h.below hsub⟩

theorem namedIn_leafRegistration :
    (leafRegistration position field).seed.NamedIn [field] :=
  ⟨List.mem_singleton_self field, List.nil_subset _⟩

theorem namedIn_of_mem_enumRegistrations {e : EnumType} (h : g ∈ enumRegistrations field e) :
    g.seed.NamedIn (field :: e.names) := by
  rcases List.mem_append.mp h with h | h
  · obtain ⟨member, hmember, rfl⟩ := List.mem_map.mp h
    exact ⟨List.mem_cons_of_mem _ (List.mem_map_of_mem hmember), List.nil_subset _⟩
  · split at h
    · exact absurd h List.not_mem_nil
    · rw [List.mem_singleton.mp h]
      exact ⟨List.mem_cons_self, List.nil_subset _⟩

theorem enums_names_subset (m : Message) : m.enums.flatMap EnumType.names ⊆ messageNames m := by
  obtain ⟨name, fields, enums⟩ := m
  rw [messageNames]
  exact List.subset_append_right _ _

theorem namedIn_messageSeed (inMap : Bool) (m : Message) :
    (messageSeed v position field inMap m).NamedIn (field :: messageNames m) := by
  have hmembers : (memberEnums v m).flatMap EnumType.names ⊆ messageNames m := by
    intro name hname
    obtain ⟨e, he, hname⟩ := List.mem_flatMap.mp hname
    exact enums_names_subset m (List.mem_flatMap_of_mem (List.mem_of_mem_filter he) hname)
  unfold messageSeed
  split
  · exact ⟨List.mem_cons_self, List.subset_cons_self _ _⟩
  · exact ⟨List.mem_cons_self, List.subset_cons_self _ _⟩
  · exact ⟨List.mem_cons_self, List.cons_subset_cons _ hmembers⟩
  · exact ⟨List.mem_cons_self, List.cons_subset_cons _ hmembers⟩
  · exact ⟨List.mem_cons_self, List.cons_subset_cons _ hmembers⟩

theorem namedIn_of_mem_typeRegistrations :
    ∀ {type : FieldType}, g ∈ typeRegistrations v position field type →
      g.seed.NamedIn (field :: typeNames type)
  | .scalar _, h | .map _ (.scalar _), h | .map _ (.enum _), h => by
      rw [List.mem_singleton.mp h]
      exact namedIn_leafRegistration.mono (List.cons_subset_cons _ (List.nil_subset _))
  | .message m, h | .map _ (.message m), h => by
      rw [List.mem_singleton.mp h]
      simp only [typeNames]
      exact namedIn_messageSeed _ m
  | .enum e, h => by
      simp only [typeNames]
      exact namedIn_of_mem_enumRegistrations h
  | .group, h | .map _ (.map _ _), h | .map _ .group, h => absurd h List.not_mem_nil

theorem namedIn_of_mem_fieldRegistrations {f : Field}
    (h : g ∈ fieldRegistrations v position f) : g.seed.NamedIn (f.name :: typeNames f.type) := by
  rw [fieldRegistrations] at h
  split at h
  · rw [List.mem_singleton.mp h]
    exact namedIn_leafRegistration.mono (List.cons_subset_cons _ (List.nil_subset _))
  · exact namedIn_of_mem_typeRegistrations h

theorem namedIn_of_mem_fieldsRegistrations :
    ∀ {position : Nat} {fields : List Field}, g ∈ fieldsRegistrations v position fields →
      g.seed.NamedIn (fieldsNames fields)
  | position, ⟨name, number, cardinality, type, comment⟩ :: rest, h => by
      rw [fieldsNames, ← List.cons_append]
      rcases List.mem_append.mp h with h | h
      · exact (namedIn_of_mem_fieldRegistrations h).mono (List.subset_append_left _ _)
      · exact (namedIn_of_mem_fieldsRegistrations h).mono (List.subset_append_right _ _)

/-- What a source declares has its names from the source. -/
theorem Source.namedIn_of_mem_register {s : Source} {x : Seed} (h : x ∈ (s.register v).seeds) :
    x.NamedIn s.names := by
  obtain ⟨g, hg, rfl⟩ := s.exists_registration_of_mem_seeds v h
  cases s with
  | fields m =>
      obtain ⟨name, fields, enums⟩ := m
      have hnamed := namedIn_of_mem_fieldsRegistrations hg
      simp only [names, messageNames]
      exact hnamed.mono (List.subset_append_left _ _)
  | members field enums =>
      obtain ⟨e, he, hg⟩ := List.mem_flatMap.mp hg
      refine (namedIn_of_mem_enumRegistrations hg).mono (List.cons_subset_cons _ ?_)
      exact fun name hname => List.mem_flatMap_of_mem he hname
  | nothing => exact absurd hg List.not_mem_nil

end

/-! ## Nodes -/

/-- A condition that the root's name and the names of a description meet is met by every node. -/
theorem Tree.forall_names {v : Vocabulary} {root : String} {type : Message} {t : Tree}
    (built : (build v root (some type)).value = .ok t) {P : String → Prop}
    (hnames : ∀ name ∈ root :: messageNames type, P name) : ∀ n ∈ t.nodes, P n.name := by
  have hdown : ∀ n ∈ t.nodes, n.name ∈ root :: messageNames type ∧
      ∃ s, n.Declared v s ∧ s.names ⊆ root :: messageNames type := by
    refine nodes_induction ?_ ?_
    · obtain ⟨_, hm, -, rfl⟩ := build_eq_ok_iff.mp built
      cases hm
      exact ⟨List.mem_cons_self, _, (exists_declared built).1, List.subset_cons_self _ _⟩
    · rintro n - ⟨-, s, hs, hsub⟩ c hc
      obtain ⟨x, hx, hfits, hdeclared⟩ := exists_of_mem_forall₂ hs.forall₂_below hc
      have hnamed := (Source.namedIn_of_mem_register hx).mono hsub
      refine ⟨?_, x.source, hdeclared, hnamed.below⟩
      have hname : c.name = x.name := hfits.name
      rw [hname]
      exact hnamed.name
  exact fun n hn => hnames _ (hdown n hn).1

end FieldAtlas
