import FieldAtlas.Proofs.Description.FirstDefect
import FieldAtlas.Proofs.Tree.Registration
import FieldAtlas.Tree.Construction

/-!
# `Validated` — what validation promises the builder

The builder takes any description.  A map to maps or to groups has no place in the tree, so it
passes over the field and reports that.  Validation refuses such a map wherever it stands, and the
builder goes nowhere that validation has not been: into messages, and into maps to messages.  So a
tree that is built of a description in order is built without that report, whatever the vocabulary
(`skipsNoMap_build`).

`validate_exact` puts this beside what validation itself answers.
-/

namespace FieldAtlas

/-- Among the notices is none of a map that was passed over. -/
def SkipsNoMap (notices : List Notice) : Prop :=
  ∀ type field, Notice.skippedMapValue type field ∉ notices

theorem skipsNoMap_nil : SkipsNoMap [] := fun _ _ => List.not_mem_nil

theorem SkipsNoMap.append {first last : List Notice} (hfirst : SkipsNoMap first)
    (hlast : SkipsNoMap last) : SkipsNoMap (first ++ last) := by
  intro type field h
  rcases List.mem_append.mp h with h | h
  · exact hfirst type field h
  · exact hlast type field h

theorem SkipsNoMap.cons {notice : Notice} {notices : List Notice}
    (hfirst : ∀ type field, notice ≠ .skippedMapValue type field) (hrest : SkipsNoMap notices) :
    SkipsNoMap (notice :: notices) := by
  intro type field h
  rcases List.mem_cons.mp h with h | h
  · exact hfirst type field h.symm
  · exact hrest type field h

/-- The notices that come with an offer. -/
def Offer.notices : Offer → List Notice
  | .child _ notices => notices
  | .remark notice => [notice]

/-! ## Enrolling and nodes -/

/-- Enrolling adds no report but that of a key that is taken. -/
theorem skipsNoMap_enrol (parent : String) :
    ∀ {offers : List Offer} (taken : List String), (∀ o ∈ offers, SkipsNoMap o.notices) →
      SkipsNoMap (enrol parent taken offers).notices
  | [], _, _ => skipsNoMap_nil
  | .remark notice :: rest, taken, h => by
      have hnotice : SkipsNoMap [notice] := h (.remark notice) List.mem_cons_self
      have hrest := skipsNoMap_enrol parent taken fun o ho => h o (List.mem_cons_of_mem _ ho)
      exact hnotice.append hrest
  | .child branch notices :: rest, taken, h => by
      have hnotices : SkipsNoMap notices := h (.child branch notices) List.mem_cons_self
      have hrest : ∀ taken : List String, SkipsNoMap (enrol parent taken rest).notices :=
        fun taken => skipsNoMap_enrol parent taken fun o ho => h o (List.mem_cons_of_mem _ ho)
      rw [enrol]
      split
      · exact .cons nofun (hrest taken)
      · exact hnotices.append (hrest _)

theorem skipsNoMap_leafNotices (source : List Branch) : SkipsNoMap (leafNotices source) := by
  intro type field h
  obtain ⟨b, -, h⟩ := List.mem_flatMap.mp h
  obtain ⟨_, -, h⟩ := List.mem_map.mp h
  cases h

theorem skipsNoMap_enumOffers (e : EnumType) (type field : String) :
    ∀ o ∈ enumOffers e type field, SkipsNoMap o.notices := by
  intro o ho
  rcases List.mem_append.mp ho with ho | ho
  · obtain ⟨member, -, rfl⟩ := List.mem_map.mp ho
    exact skipsNoMap_nil
  · split at ho
    · exact absurd ho List.not_mem_nil
    · rw [List.mem_singleton.mp ho]
      exact skipsNoMap_nil

theorem skipsNoMap_bagOffer (v : Vocabulary) (base : Entry) (flavor : BagFlavor) (inMap : Bool)
    (type : String) (enums : List EnumType) :
    SkipsNoMap (bagOffer v base flavor inMap type enums).notices := by
  refine skipsNoMap_enrol _ _ fun o ho => ?_
  obtain ⟨e, -, ho⟩ := List.mem_flatMap.mp ho
  exact skipsNoMap_enumOffers e _ _ o ho

theorem skipsNoMap_messageNode {v : Vocabulary} {base : Entry} {type : String} {keyed : Bool}
    {children : Noted (List Branch)} (h : SkipsNoMap children.notices) :
    SkipsNoMap (messageNode v base type keyed children).notices := by
  cases keyed with
  | true => exact h.append (skipsNoMap_leafNotices _)
  | false => exact h

/-! ## Fields and messages -/

section

variable (v : Vocabulary)

mutual
/-- What a message without defects offers comes without a report on maps. -/
theorem skipsNoMap_messageOffer (base : Entry) (repeated inMap : Bool) :
    ∀ m : MessageOf FieldType, messageDefect? m = none →
      SkipsNoMap (messageOffer v base repeated inMap m).notices
  | ⟨name, fields, enums⟩, h => by
      have hfields := skipsNoMap_fieldsOffers repeated 0 fields
        fun f hf => ⟨_, _, ((messageDefect?_eq_none_iff.mp h).2.1 f hf).2⟩
      rw [messageOffer]
      split
      · exact skipsNoMap_bagOffer v base _ inMap name enums
      · exact skipsNoMap_messageNode (skipsNoMap_enrol _ _ hfields)
      · exact skipsNoMap_messageNode (skipsNoMap_enrol _ _ hfields)

theorem skipsNoMap_fieldsOffers (repeated : Bool) (ordinal : Nat) :
    ∀ fields : List (FieldOf FieldType),
      (∀ f ∈ fields, ∃ message field, typeDefect? message field f.type = none) →
        ∀ o ∈ fieldsOffers v repeated ordinal fields, SkipsNoMap o.notices
  | [], _, o, ho => absurd ho List.not_mem_nil
  | f :: rest, h, o, ho => by
      rw [fieldsOffers] at ho
      rcases List.mem_append.mp ho with ho | ho
      · exact skipsNoMap_fieldOffers repeated ordinal f (h f List.mem_cons_self) o ho
      · exact skipsNoMap_fieldsOffers repeated (ordinal + 1) rest
          (fun g hg => h g (List.mem_cons_of_mem _ hg)) o ho

theorem skipsNoMap_fieldOffers (repeated : Bool) (ordinal : Nat) :
    ∀ f : FieldOf FieldType, (∃ message field, typeDefect? message field f.type = none) →
      ∀ o ∈ fieldOffers v repeated ordinal f, SkipsNoMap o.notices
  | ⟨name, number, cardinality, type, comment⟩, h, o, ho => by
      rw [fieldOffers] at ho
      split at ho
      · rw [List.mem_singleton.mp ho]
        exact skipsNoMap_nil
      · exact skipsNoMap_typeOffers _ repeated _ type h o ho

theorem skipsNoMap_typeOffers (base : Entry) (repeated own : Bool) :
    ∀ type : FieldType, (∃ message field, typeDefect? message field type = none) →
      ∀ o ∈ typeOffers v base repeated own type, SkipsNoMap o.notices
  | .scalar _, _, o, ho | .map _ (.scalar _), _, o, ho | .map _ (.enum _), _, o, ho => by
      rw [List.mem_singleton.mp ho]
      exact skipsNoMap_nil
  | .enum e, _, o, ho => skipsNoMap_enumOffers e _ _ o ho
  | .group, _, o, ho => by
      rw [List.mem_singleton.mp ho]
      exact .cons nofun skipsNoMap_nil
  | .message m, ⟨_, _, h⟩, o, ho => by
      rw [List.mem_singleton.mp ho]
      exact skipsNoMap_messageOffer base _ _ m (messageDefect?_of_typeDefect? h (Or.inl rfl))
  | .map key (.message m), ⟨_, _, h⟩, o, ho => by
      rw [List.mem_singleton.mp ho]
      exact skipsNoMap_messageOffer base _ _ m
        (messageDefect?_of_typeDefect? h (Or.inr ⟨key, rfl⟩))
  | .map _ (.map _ _), ⟨_, _, h⟩, _, _ | .map _ .group, ⟨_, _, h⟩, _, _ => by
      -- It is here that the report would come from.
      cases h
end

end

/-- Building a tree of a description without defects passes over no map. -/
theorem skipsNoMap_build {m : Message} (h : messageDefect? m = none) (v : Vocabulary)
    (root : String) : SkipsNoMap (Tree.build v root (some m)).notices := by
  have hbranch : SkipsNoMap (Tree.rootBranch v root m).notices :=
    skipsNoMap_enrol _ _ <| skipsNoMap_fieldsOffers v false 0 m.fields
      fun f hf => ⟨_, _, ((messageDefect?_eq_none_iff.mp h).2.1 f hf).2⟩
  rw [Tree.build]
  split
  · exact .cons nofun (hbranch.append (.cons nofun (.cons nofun skipsNoMap_nil)))
  · exact .cons nofun skipsNoMap_nil

/-! ## Validation -/

/-- Validation accepts a description if every message that it reaches is in order, and answers with
the first of its flaws otherwise.  Of what it accepts the builder passes over no map. -/
theorem validate_exact (m : Message) :
    (validate m = .ok () ↔ ∀ n, m.Reaches n → n.InOrder) ∧
    (∀ d, validate m = .error d ↔
      ∃ place, Flaw m place d ∧ ∀ place' d', Flaw m place' d' → ¬ place' < place) ∧
    (validate m = .ok () → ∀ v root type field,
      Notice.skippedMapValue type field ∉ (Tree.build v root (some m)).notices) := by
  refine ⟨?_, fun d => ?_, fun h v root => ?_⟩
  · exact validate_eq_ok_iff.trans messageDefect?_eq_none_iff_inOrder
  · exact validate_eq_error_iff.trans (isFirst_message m).eq_some_iff
  · exact skipsNoMap_build (validate_eq_ok_iff.mp h) v root

/-- A field comes twice in the message that a map holds, and behind the map a field has no name. -/
def flawedLog : Message where
  name := "Log"
  fields := [
    { name := "history", number := 1
      type := .map .int64 (.message { sampleHistory with
        fields := sampleHistory.fields ++ sampleHistory.fields }) },
    { name := "", number := 2, type := .group }]

/-- The small log is in order, and of the flaws of the other one the deeper comes first. -/
theorem validate_exact_flawedLog :
    (validate sampleLog = .ok () ∧ ∀ v root type field,
      Notice.skippedMapValue type field ∉ (Tree.build v root (some sampleLog)).notices) ∧
    validate flawedLog = .error (.repeatedField "photo_id" "SimpleLiveInfos") ∧
    ∃ place, Flaw flawedLog place (.repeatedField "photo_id" "SimpleLiveInfos") ∧
      ∀ place' d', Flaw flawedLog place' d' → ¬ place' < place := by
  have hok : validate sampleLog = .ok () := rfl
  have herror : validate flawedLog = .error (.repeatedField "photo_id" "SimpleLiveInfos") := rfl
  obtain ⟨-, -, hbuild⟩ := validate_exact sampleLog
  obtain ⟨-, hfirst, -⟩ := validate_exact flawedLog
  exact ⟨⟨hok, hbuild hok⟩, herror, (hfirst _).mp herror⟩

end FieldAtlas
