import FieldAtlas.Classification
import FieldAtlas.Tree.Entry
import Mathlib.Data.List.Nodup

/-!
# `Registration` — who gets which key, declared

The children of a node answer to keys, and a key belongs to whoever asks for it first.  This
module says who asks, in which order and for what, one level of the tree at a time:

* `Source` is what the children of a node are declared by: the fields of a message, the members
  of some enums, or nothing;
* `Source.registrations` lists the requests of a source in order of declaration;
* `Register.add` grants one request, and `Source.register` is the left fold of all of them.

Nothing here builds a tree.  A child is a `Seed`, which names its own source, so that
`Source.follow` can walk down any number of levels without growing anything.  That the tree
of a description has the children which the fold says is proved elsewhere.

Two facts about registers carry over to every tree that is grown from them: a key is granted once
(`Source.nodup_keys_register`), and the shape of a seed says whether it has children and of
which kind (`Seed.valid_of_mem_register`).
-/

namespace FieldAtlas

/-- What the children of a node are declared by. -/
inductive Source where
  /-- The fields of a message that is expanded. -/
  | fields (type : Message)
  /-- The members of enums, below a field of the given name. -/
  | members (field : String) (enums : List EnumType)
  /-- A leaf has no children. -/
  | nothing

/-- A child as its declaration has it. -/
structure Seed where
  name : String
  shape : Shape
  ordinal : Int
  source : Source

/-- A request of a child for its name as a key, and for its ordinal as a second one if it is
numbered. -/
structure Registration where
  seed : Seed
  numbered : Bool := false

/-! ## Requests in order of declaration -/

/-- The leaf of a field. -/
def leafRegistration (position : Nat) (field : String) : Registration :=
  ⟨⟨field, .plain, position, .nothing⟩, false⟩

/-- Every member by name and number, and then the field itself, unless it has no name. -/
def enumRegistrations (field : String) (e : EnumType) : List Registration :=
  e.members.map (fun v => ⟨⟨v.name, .enumMarker, v.number.toInt, .nothing⟩, true⟩) ++
    if field = "" then [] else [⟨⟨field, .enumMarker, 0, .nothing⟩, false⟩]

/-- The nested enums that list the members of a bag. -/
def memberEnums (v : Vocabulary) (m : Message) : List EnumType :=
  m.enums.filter (v.isMemberEnum ·.name)

/-- The node of a message-typed field: its shape is up to the class of the message and, for the
bags of one flavor, to whether a map holds it. -/
def messageSeed (v : Vocabulary) (position : Nat) (field : String) (inMap : Bool) (m : Message) :
    Seed :=
  match v.classify m, inMap with
  | .structural, _ => ⟨field, .plain, position, .fields m⟩
  | .keyedRecords, _ => ⟨field, .keyedRecords, position, .fields m⟩
  | .bag .list, _ => ⟨field, .listBag, position, .members field (memberEnums v m)⟩
  | .bag .map, false => ⟨field, .mapBag, position, .members field (memberEnums v m)⟩
  | .bag .map, true => ⟨field, .labelMap, position, .members field (memberEnums v m)⟩

/-- What a field asks for by its type. -/
def typeRegistrations (v : Vocabulary) (position : Nat) (field : String) :
    FieldType → List Registration
  | .scalar _ | .map _ (.scalar _) | .map _ (.enum _) => [leafRegistration position field]
  | .message m => [⟨messageSeed v position field false m, false⟩]
  | .map _ (.message m) => [⟨messageSeed v position field true m, false⟩]
  | .enum e => enumRegistrations field e
  | .group | .map _ (.map _ _) | .map _ .group => []

/-- What a field asks for; a passthrough field is a leaf whatever its type. -/
def fieldRegistrations (v : Vocabulary) (position : Nat) (f : Field) : List Registration :=
  if v.isPassthrough f.name then [leafRegistration position f.name]
  else typeRegistrations v position f.name f.type

/-- The requests of the fields of a message, the first of them at the given position. -/
def fieldsRegistrations (v : Vocabulary) (position : Nat) : List Field → List Registration
  | [] => []
  | f :: rest => fieldRegistrations v position f ++ fieldsRegistrations v (position + 1) rest

namespace Source

/-- Every request of a source, in order. -/
def registrations (v : Vocabulary) : Source → List Registration
  | fields m => fieldsRegistrations v 0 m.fields
  | members field enums => enums.flatMap (enumRegistrations field)
  | nothing => []

end Source

/-! ## The fold -/

/-- The children so far, and the keys with the position of the child that each leads to. -/
structure Register where
  seeds : List Seed := []
  index : List (String × Nat) := []

namespace Register

def keys (r : Register) : List String := r.index.map Prod.fst

/-- Gives a key to the child at a position, unless it is taken. -/
def enter (r : Register) (key : String) (position : Nat) : Register :=
  if key ∈ r.keys then r else { r with index := r.index ++ [(key, position)] }

/-- Grants a request.  A child whose name is taken is turned away, and its number with it. -/
def add (r : Register) (g : Registration) : Register :=
  if g.seed.name ∈ r.keys then r
  else
    let named := { r with seeds := r.seeds ++ [g.seed] }.enter g.seed.name r.seeds.length
    if g.numbered then named.enter (Decimal.text g.seed.ordinal) r.seeds.length else named

/-- The child under a key. -/
def child? (r : Register) (key : String) : Option Seed :=
  (r.index.lookup key).bind (r.seeds[·]?)

end Register

namespace Source

/-- The children of a source and their keys: every request granted in turn. -/
def register (v : Vocabulary) (s : Source) : Register :=
  (s.registrations v).foldl Register.add {}

/-- The source that a list of keys leads to. -/
def follow (v : Vocabulary) : Source → List String → Option Source
  | s, [] => some s
  | s, key :: rest => ((s.register v).child? key).bind (follow v ·.source rest)

end Source

/-! ## A small log

Every rule of the fold turns somebody away in it: `IOS` the field comes after `IOS` the platform,
the device number `1` is asked for twice, and a member of the bag has the name of the bag. -/

/-- A bag that lists its members. -/
def sampleBag : Message where
  name := "CommonInfoAttr"
  fields := [
    { name := "name_value", number := 1, type := .scalar .int64 },
    { name := "int_value", number := 2, type := .scalar .int64 }]
  enums := [{ name := "NameOne", members := [⟨"APP_LIST", 2, none⟩, ⟨"attrs", 7, none⟩] }]

/-- A bag with one placeholder. -/
def sampleLabels : Message where
  name := "LabelAttr"
  fields := sampleBag.fields
  enums := [{ name := "Name", members := [⟨"UNKNOWN_NAME", 0, none⟩] }]

def sampleHistory : Message where
  name := "SimpleLiveInfos"
  fields := [
    { name := "photo_id", number := 1, type := .scalar .int64 },
    { name := "labels", number := 2, type := .map .int64 (.message sampleLabels) }]

def sampleLog : Message where
  name := "Log"
  fields := [
    { name := "os", number := 1,
      type := .enum ⟨"Os", [⟨"ANDROID", 1, none⟩, ⟨"TABLET", 1, none⟩, ⟨"IOS", 2, none⟩]⟩ },
    { name := "attrs", number := 2, cardinality := .repeated, type := .message sampleBag },
    { name := "IOS", number := 3, type := .scalar .int64 },
    { name := "history", number := 4, type := .map .int64 (.message sampleHistory) },
    { name := "labels", number := 5, type := .map .int64 (.message sampleLabels) }]

example : (Source.register {} (.fields sampleLog)).index =
    [("ANDROID", 0), ("1", 0), ("TABLET", 1), ("IOS", 2), ("2", 2), ("os", 3), ("attrs", 4),
      ("history", 5), ("labels", 6)] := by
  decide

/-! ## Registers grant a key once -/

namespace Register

theorem nodup_keys_enter {r : Register} (h : r.keys.Nodup) (key : String) (position : Nat) :
    (r.enter key position).keys.Nodup := by
  rw [enter]
  split
  · exact h
  · next hfree =>
      rw [keys, List.map_append, List.nodup_append]
      refine ⟨h, List.nodup_singleton key, fun k hk l hl hkl => ?_⟩
      rw [hkl, List.mem_singleton.mp hl] at hk
      exact hfree hk

theorem nodup_keys_add {r : Register} (h : r.keys.Nodup) (g : Registration) :
    (r.add g).keys.Nodup := by
  rw [add]
  split
  · exact h
  · have hnamed := nodup_keys_enter (r := { r with seeds := r.seeds ++ [g.seed] }) h g.seed.name
      r.seeds.length
    dsimp only
    split
    · exact nodup_keys_enter hnamed _ _
    · exact hnamed

theorem seeds_enter (r : Register) (key : String) (position : Nat) :
    (r.enter key position).seeds = r.seeds := by
  rw [enter]
  split <;> rfl

theorem mem_seeds_add {r : Register} {g : Registration} {s : Seed} (h : s ∈ (r.add g).seeds) :
    s ∈ r.seeds ∨ s = g.seed := by
  rw [add] at h
  split at h
  · exact Or.inl h
  · have hseeds : s ∈ r.seeds ++ [g.seed] := by
      dsimp only at h
      split at h <;> simpa only [seeds_enter] using h
    simpa using hseeds

end Register

namespace Source

variable (v : Vocabulary) (s : Source)

theorem nodup_keys_register : (s.register v).keys.Nodup := by
  have hfold : ∀ (gs : List Registration) (r : Register), r.keys.Nodup →
      (gs.foldl Register.add r).keys.Nodup := by
    intro gs
    induction gs with
    | nil => exact fun _ h => h
    | cons g gs ih => exact fun r h => ih _ (Register.nodup_keys_add h g)
  exact hfold _ {} List.nodup_nil

/-- A seed of the register was asked for. -/
theorem exists_registration_of_mem_seeds {x : Seed} (h : x ∈ (s.register v).seeds) :
    ∃ g ∈ s.registrations v, g.seed = x := by
  have hfold : ∀ (gs : List Registration) (r : Register),
      x ∈ (gs.foldl Register.add r).seeds → x ∈ r.seeds ∨ ∃ g ∈ gs, g.seed = x := by
    intro gs
    induction gs with
    | nil => exact fun _ h => Or.inl h
    | cons g gs ih =>
        intro r h
        rcases ih _ h with h | ⟨g', hg', rfl⟩
        · rcases Register.mem_seeds_add h with h | rfl
          · exact Or.inl h
          · exact Or.inr ⟨g, List.mem_cons_self, rfl⟩
        · exact Or.inr ⟨g', List.mem_cons_of_mem _ hg', rfl⟩
  exact (hfold _ {} h).resolve_left List.not_mem_nil

end Source

/-! ## What a shape says about the source -/

/-- The shape of a node against the source of its children. -/
structure Shape.Suits (shape : Shape) (s : Source) : Prop where
  marker : shape = .enumMarker → s = .nothing
  members : shape.isBag = true ∨ shape = .labelMap → ∃ field enums, s = .members field enums

/-- What is asked for suits its own source, and the number of a marker is a signed word. -/
structure Seed.Valid (s : Seed) : Prop where
  suits : s.shape.Suits s.source
  ordinal : s.shape = .enumMarker → s.ordinal ≤ Decimal.maxKey

theorem toInt_le_maxKey (n : Int64) : n.toInt ≤ Decimal.maxKey := by
  have := n.toInt_lt
  simp only [Decimal.maxKey]
  omega

theorem Seed.valid_of_mem_enumRegistrations {field : String} {e : EnumType} {g : Registration}
    (h : g ∈ enumRegistrations field e) : g.seed.Valid ∧ g.seed.shape = .enumMarker := by
  rcases List.mem_append.mp h with h | h
  · obtain ⟨m, -, rfl⟩ := List.mem_map.mp h
    exact ⟨⟨⟨fun _ => rfl, by simp [Shape.isBag]⟩, fun _ => toInt_le_maxKey m.number⟩, rfl⟩
  · split at h
    · exact absurd h List.not_mem_nil
    · rw [List.mem_singleton] at h
      subst h
      exact ⟨⟨⟨fun _ => rfl, by simp [Shape.isBag]⟩, fun _ => by simp⟩, rfl⟩

theorem messageSeed_valid (v : Vocabulary) (position : Nat) (field : String) (inMap : Bool)
    (m : Message) : (messageSeed v position field inMap m).Valid := by
  unfold messageSeed
  split <;> exact ⟨⟨by simp, by simp [Shape.isBag]⟩, by simp⟩

theorem leafRegistration_valid (position : Nat) (field : String) :
    (leafRegistration position field).seed.Valid :=
  ⟨⟨fun _ => rfl, by simp [leafRegistration, Shape.isBag]⟩, by simp [leafRegistration]⟩

theorem Seed.valid_of_mem_typeRegistrations {v : Vocabulary} {position : Nat} {field : String} :
    ∀ {type : FieldType} {g : Registration}, g ∈ typeRegistrations v position field type →
      g.seed.Valid
  | .scalar _, _, h | .map _ (.scalar _), _, h | .map _ (.enum _), _, h => by
      rw [typeRegistrations, List.mem_singleton] at h
      exact h ▸ leafRegistration_valid position field
  | .message m, _, h | .map _ (.message m), _, h => by
      rw [typeRegistrations, List.mem_singleton] at h
      exact h ▸ messageSeed_valid v position field _ m
  | .enum e, _, h => (valid_of_mem_enumRegistrations h).1
  | .group, _, h | .map _ (.map _ _), _, h | .map _ .group, _, h => absurd h List.not_mem_nil

theorem Seed.valid_of_mem_fieldRegistrations {v : Vocabulary} {position : Nat} {f : Field}
    {g : Registration} (h : g ∈ fieldRegistrations v position f) : g.seed.Valid := by
  rw [fieldRegistrations] at h
  split at h
  · rw [List.mem_singleton] at h
    exact h ▸ leafRegistration_valid position f.name
  · exact valid_of_mem_typeRegistrations h

theorem Seed.valid_of_mem_fieldsRegistrations {v : Vocabulary} {g : Registration} :
    ∀ {position : Nat} {fields : List Field}, g ∈ fieldsRegistrations v position fields →
      g.seed.Valid
  | _, _ :: _, h => by
      rw [fieldsRegistrations, List.mem_append] at h
      rcases h with h | h
      · exact valid_of_mem_fieldRegistrations h
      · exact valid_of_mem_fieldsRegistrations h

theorem Seed.valid_of_mem_register {v : Vocabulary} {s : Source} {x : Seed}
    (h : x ∈ (s.register v).seeds) : x.Valid := by
  obtain ⟨g, hg, rfl⟩ := s.exists_registration_of_mem_seeds v h
  cases s with
  | fields m => exact valid_of_mem_fieldsRegistrations hg
  | members field enums =>
      obtain ⟨e, -, hg⟩ := List.mem_flatMap.mp hg
      exact (valid_of_mem_enumRegistrations hg).1
  | nothing => exact absurd hg List.not_mem_nil

/-- Below a bag or a label map there are markers only. -/
theorem Seed.marker_of_mem_members {v : Vocabulary} {field : String} {enums : List EnumType}
    {x : Seed} (h : x ∈ ((Source.members field enums).register v).seeds) :
    x.shape = .enumMarker := by
  obtain ⟨g, hg, rfl⟩ := Source.exists_registration_of_mem_seeds v _ h
  obtain ⟨e, -, hg⟩ := List.mem_flatMap.mp hg
  exact (valid_of_mem_enumRegistrations hg).2

end FieldAtlas
