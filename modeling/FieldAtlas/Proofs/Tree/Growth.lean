import FieldAtlas.Proofs.Tree.Registration
import FieldAtlas.Tree.Construction
import Mathlib.Data.List.Forall2

/-!
# `Growth` — a tree grows as its declarations say

`Rose.GrownFrom` compares a whole tree with a source: the keys of its children and what they
lead to are the register of the source, and every child is grown from the source that its
seed names.  The induction over a description is done once, here, and everything that holds of
every node of every built tree is read off the register afterwards.

The comparison is local at each level: a list of offers *answers* a list of requests when they
agree one by one, remarks aside, and `enrol_eq_register` says that enrolling the one and granting
the other come to the same.
-/

namespace FieldAtlas

/-- The keys of a list of siblings, each with the position of its owner; the first owner
stands at `i`. -/
def keyIndex (i : Nat) : List Entry → List (String × Nat)
  | [] => []
  | e :: es => e.keys.map (·, i) ++ keyIndex (i + 1) es

/-- The entry is what the seed says, and no more than the builder may add to it. -/
structure Entry.Fits (e : Entry) (s : Seed) : Prop where
  name : e.name = s.name
  shape : e.shape = s.shape
  ordinal : e.ordinal = s.ordinal
  numbered : e.numbered = true → e.shape = .enumMarker
  leafTypes : e.shape ≠ .keyedRecords → e.leafTypes = []

namespace Rose

variable {α : Type}

mutual
/-- The children of the tree are those of the source, at every level.  `entry` reads the entry
off a label. -/
def GrownFrom (entry : α → Entry) (v : Vocabulary) : Rose α → Source → Prop
  | node _ ts, s =>
    keyIndex 0 (ts.map (entry ·.label)) = (s.register v).index ∧
      ForestGrownFrom entry v ts (s.register v).seeds

def ForestGrownFrom (entry : α → Entry) (v : Vocabulary) : List (Rose α) → List Seed → Prop
  | [], [] => True
  | t :: ts, s :: seeds =>
    (entry t.label).Fits s ∧ t.GrownFrom entry v s.source ∧ ForestGrownFrom entry v ts seeds
  | _, _ => False
end

/-- Numbering leaves the entries of siblings as they are. -/
theorem entries_numberForest :
    ∀ (start : Nat) (ts : List (Rose Entry)),
      (numberForest Label.mk start ts).map (Label.entry ·.label) = ts.map label
  | _, [] => rfl
  | start, node e us :: ts => by
      rw [numberForest, List.map_cons, entries_numberForest, List.map_cons]
      rfl

theorem grownFrom_iff {entry : α → Entry} {v : Vocabulary} {t : Rose α} {s : Source} :
    t.GrownFrom entry v s ↔
      keyIndex 0 (t.children.map (entry ·.label)) = (s.register v).index ∧
        ForestGrownFrom entry v t.children (s.register v).seeds := by
  cases t with
  | node a ts => rw [GrownFrom, children]

mutual
/-- Numbering keeps what a tree is grown from. -/
theorem GrownFrom.number {v : Vocabulary} :
    ∀ {t : Rose Entry} {s : Source} (start : Nat), t.GrownFrom id v s →
      (t.number Label.mk start).GrownFrom Label.entry v s
  | node _ _, _, start, h => by
      rw [Rose.number, GrownFrom, entries_numberForest]
      exact ⟨h.1, h.2.numberForest (start + 1)⟩

theorem ForestGrownFrom.numberForest {v : Vocabulary} :
    ∀ {ts : List (Rose Entry)} {seeds : List Seed} (start : Nat), ForestGrownFrom id v ts seeds →
      ForestGrownFrom Label.entry v (Rose.numberForest Label.mk start ts) seeds
  | [], [], _, _ => trivial
  | node e us :: _, _ :: _, start, h =>
      ⟨h.1, h.2.1.number start, h.2.2.numberForest (start + (node e us).size)⟩
end

/-- A leaf has nothing to be grown from. -/
theorem grownFrom_nothing {entry : α → Entry} {v : Vocabulary} {a : α} {ts : List (Rose α)} :
    (node a ts).GrownFrom entry v .nothing ↔ ts = [] := by
  cases ts <;> simp [GrownFrom, ForestGrownFrom, keyIndex, Source.register, Source.registrations]

end Rose

/-! ## Enrolling and granting -/

namespace Branch

theorem label_settle (taken : List String) (b : Branch) :
    (b.settle taken).label = { b.label with
      numbered := b.label.numbered &&
        !(b.label.name :: taken).contains (Decimal.text b.label.ordinal) } := by
  cases b with
  | node e ts => rfl

theorem children_settle (taken : List String) (b : Branch) :
    (b.settle taken).children = b.children := by
  cases b with
  | node e ts => rfl

/-- What has been settled has its name for a key, and its number if that was free. -/
theorem keys_settle (taken : List String) (b : Branch) :
    (b.settle taken).keys = b.label.name ::
      if b.label.numbered ∧ Decimal.text b.label.ordinal ∉ b.label.name :: taken
      then [Decimal.text b.label.ordinal] else [] := by
  simp only [keys, Entry.keys, label_settle]
  by_cases hn : b.label.numbered <;>
    by_cases ht : Decimal.text b.label.ordinal ∈ b.label.name :: taken <;> simp [hn, ht]

end Branch

theorem Entry.Fits.settle {b : Branch} {s : Seed} (h : b.label.Fits s) (taken : List String) :
    (b.settle taken).label.Fits s := by
  rw [Branch.label_settle]
  refine ⟨h.name, h.shape, h.ordinal, fun hn => ?_, h.leafTypes⟩
  simp only [Bool.and_eq_true] at hn
  exact h.numbered hn.1

theorem Rose.GrownFrom.settle {b : Branch} {v : Vocabulary} {s : Source}
    (h : b.GrownFrom id v s) (taken : List String) : (b.settle taken).GrownFrom id v s := by
  rw [Rose.grownFrom_iff, Branch.children_settle]
  exact Rose.grownFrom_iff.mp h

/-- The offer is a child that the request describes. -/
def Offer.Answers (v : Vocabulary) (g : Registration) : Offer → Prop
  | .child b _ =>
    b.label.Fits g.seed ∧ b.label.numbered = g.numbered ∧ b.GrownFrom id v g.seed.source
  | .remark _ => False

/-- The offers answer the requests in order, with remarks anywhere between them. -/
inductive OffersAnswer (v : Vocabulary) : List Offer → List Registration → Prop where
  | nil : OffersAnswer v [] []
  | remark {n : Notice} {os : List Offer} {gs : List Registration} :
      OffersAnswer v os gs → OffersAnswer v (.remark n :: os) gs
  | child {o : Offer} {g : Registration} {os : List Offer} {gs : List Registration} :
      o.Answers v g → OffersAnswer v os gs → OffersAnswer v (o :: os) (g :: gs)

namespace OffersAnswer

variable {v : Vocabulary}

theorem single {o : Offer} {g : Registration} (h : o.Answers v g) : OffersAnswer v [o] [g] :=
  .child h .nil

theorem append {os os' : List Offer} {gs gs' : List Registration} (h : OffersAnswer v os gs)
    (h' : OffersAnswer v os' gs') : OffersAnswer v (os ++ os') (gs ++ gs') := by
  induction h with
  | nil => exact h'
  | remark _ ih => exact .remark ih
  | child hg _ ih => exact .child hg ih

/-- Offers that answer one request each, made from the same list. -/
theorem map {α : Type} {f : α → Offer} {g : α → Registration} {xs : List α}
    (h : ∀ x ∈ xs, (f x).Answers v (g x)) : OffersAnswer v (xs.map f) (xs.map g) := by
  induction xs with
  | nil => exact .nil
  | cons x xs ih =>
      exact .child (h x List.mem_cons_self) (ih fun y hy => h y (List.mem_cons_of_mem _ hy))

theorem flatMap {α : Type} {f : α → List Offer} {g : α → List Registration} {xs : List α}
    (h : ∀ x ∈ xs, OffersAnswer v (f x) (g x)) :
    OffersAnswer v (xs.flatMap f) (xs.flatMap g) := by
  induction xs with
  | nil => exact .nil
  | cons x xs ih =>
      rw [List.flatMap_cons, List.flatMap_cons]
      exact (h x List.mem_cons_self).append (ih fun y hy => h y (List.mem_cons_of_mem _ hy))

end OffersAnswer

namespace Register

theorem keys_mk (seeds : List Seed) (index extra : List (String × Nat)) :
    (Register.mk seeds (index ++ extra)).keys =
      (Register.mk seeds index).keys ++ extra.map Prod.fst := by
  simp [keys]

/-- Granting the request of a child that an enrolling node settles gives it the same keys. -/
theorem add_settle {r : Register} {g : Registration} {b : Branch} {taken : List String}
    (hkeys : ∀ key, key ∈ taken ↔ key ∈ r.keys) (hfits : b.label.Fits g.seed)
    (hnum : b.label.numbered = g.numbered) (hfree : g.seed.name ∉ r.keys) :
    r.add g =
      ⟨r.seeds ++ [g.seed],
        r.index ++ (b.settle taken).keys.map fun key => (key, r.seeds.length)⟩ := by
  let named : Register := ⟨r.seeds ++ [g.seed], r.index ++ [(g.seed.name, r.seeds.length)]⟩
  have hnamed : Register.enter { r with seeds := r.seeds ++ [g.seed] } g.seed.name
      r.seeds.length = named := if_neg hfree
  have hmem : ∀ key, key ∈ named.keys ↔ key ∈ g.seed.name :: taken := by
    intro key
    rw [keys_mk, List.mem_append, List.mem_cons, hkeys key, or_comm]
    simp [keys]
  rw [add, if_neg hfree, hnamed, Branch.keys_settle, hfits.name, hfits.ordinal, hnum]
  cases hg : g.numbered with
  | false => simp [named]
  | true =>
      by_cases ht : Decimal.text g.seed.ordinal ∈ g.seed.name :: taken
      · simp only [enter, if_pos ((hmem _).mpr ht), if_true, ht, not_true_eq_false, and_false,
          if_false, List.map_cons, List.map_nil, named]
      · simp only [enter, if_neg (mt (hmem _).mp ht), if_true, ht, not_false_eq_true, and_self,
          List.map_cons, List.map_nil, named, List.append_assoc, List.cons_append, List.nil_append]

end Register

open Register in
/-- Enrolling offers under a node and granting the requests that they answer come to the same:
the same keys, for children grown from the seeds. -/
theorem enrol_eq_register {v : Vocabulary} (parent : String) {offers : List Offer}
    {requests : List Registration} (h : OffersAnswer v offers requests) :
    ∀ (taken : List String) (r : Register), (∀ key, key ∈ taken ↔ key ∈ r.keys) →
      ∃ new, requests.foldl add r =
          ⟨r.seeds ++ new,
            r.index ++ keyIndex r.seeds.length ((enrol parent taken offers).value.map Rose.label)⟩ ∧
        Rose.ForestGrownFrom id v (enrol parent taken offers).value new := by
  induction h with
  | nil => intro taken r _; exact ⟨[], by simp [enrol, keyIndex], trivial⟩
  | remark _ ih => intro taken r hkeys; exact ih taken r hkeys
  | @child o g os gs ho _ ih =>
      intro taken r hkeys
      match o, ho with
      | .child b notices, ⟨hfits, hnum, hgrown⟩ =>
          by_cases htaken : b.label.name ∈ taken
          · have hadd : r.add g = r := by
              rw [add, if_pos ((hkeys _).mp (hfits.name ▸ htaken))]
            simp only [List.foldl_cons, hadd, enrol, List.contains_eq_mem, htaken, decide_true,
              if_true]
            exact ih taken r hkeys
          · have hadd := add_settle hkeys hfits hnum
              (mt (hkeys _).mpr (hfits.name ▸ htaken))
            have hkeys' : ∀ key, key ∈ (b.settle taken).keys ++ taken ↔ key ∈ (r.add g).keys := by
              intro key
              rw [hadd, keys_mk, List.mem_append, List.mem_append, List.map_map, hkeys key,
                or_comm]
              simp [keys, Function.comp_def]
            obtain ⟨new, hfold, hforest⟩ := ih _ _ hkeys'
            refine ⟨g.seed :: new, ?_, ?_⟩
            · rw [List.foldl_cons, hfold, hadd]
              simp [enrol, htaken, keyIndex, Branch.keys]
            · simp only [enrol, List.contains_eq_mem, htaken, decide_false, Bool.false_eq_true,
                if_false]
              exact ⟨hfits.settle taken, hgrown.settle taken, hforest⟩

/-- A node whose children were enrolled from answers to the requests of a source is grown from
that source. -/
theorem grownFrom_enrol {v : Vocabulary} {s : Source} {offers : List Offer}
    (h : OffersAnswer v offers (s.registrations v)) (e : Entry) (parent : String) :
    (Rose.node e (enrol parent [] offers).value).GrownFrom id v s := by
  obtain ⟨new, hfold, hforest⟩ := enrol_eq_register parent h [] {} (by simp [Register.keys])
  rw [Rose.GrownFrom, Source.register, hfold]
  exact ⟨rfl, hforest⟩

/-! ## The induction over a description -/

section Offers

variable (v : Vocabulary)

theorem leafOffer_answers {e : Entry} {g : Registration} (hfits : e.Fits g.seed)
    (hnum : e.numbered = g.numbered) (hsource : g.seed.source = .nothing) :
    (leafOffer e).Answers v g :=
  ⟨hfits, hnum, hsource ▸ Rose.grownFrom_nothing.mpr rfl⟩

/-- The leaf of a field, with whatever type is written on it. -/
theorem fieldLeaf_answers (position : Nat) (field : String) (comment : Option String)
    (type : String) :
    (leafOffer { fieldEntry v position field comment with declaredType := type }).Answers v
      (leafRegistration position field) :=
  leafOffer_answers v ⟨rfl, rfl, rfl, fun h => absurd h Bool.false_ne_true, fun _ => rfl⟩
    rfl rfl

theorem enumOffers_answer (e : EnumType) (type field : String) :
    OffersAnswer v (enumOffers e type field) (enumRegistrations field e) := by
  refine OffersAnswer.append (OffersAnswer.map fun m _ => ?_) ?_
  · exact leafOffer_answers v ⟨rfl, rfl, rfl, fun _ => rfl, fun _ => rfl⟩ rfl rfl
  · by_cases hfield : field = ""
    · rw [if_pos hfield, if_pos hfield]
      exact .nil
    · rw [if_neg hfield, if_neg hfield]
      exact .single
        (leafOffer_answers v ⟨rfl, rfl, rfl, fun _ => rfl, fun _ => rfl⟩ rfl rfl)

theorem bagOffer_answers (position : Nat) (field : String) (comment : Option String)
    (flavor : BagFlavor) (inMap : Bool) (m : Message) (hclass : v.classify m = .bag flavor) :
    (bagOffer v (fieldEntry v position field comment) flavor inMap m.name m.enums).Answers v
      ⟨messageSeed v position field inMap m, false⟩ := by
  have hmembers : OffersAnswer v
      ((m.enums.filter (v.isMemberEnum ·.name)).flatMap fun e => enumOffers e e.name field)
      ((Source.members field (memberEnums v m)).registrations v) :=
    OffersAnswer.flatMap fun e _ => enumOffers_answer v e e.name field
  have hseed : messageSeed v position field inMap m =
      ⟨field, bagShape flavor inMap, position, .members field (memberEnums v m)⟩ := by
    cases flavor <;> cases inMap <;> simp [messageSeed, hclass, bagShape]
  rw [hseed]
  exact ⟨⟨rfl, rfl, rfl, fun h => absurd h Bool.false_ne_true, fun _ => rfl⟩, rfl,
    grownFrom_enrol hmembers _ field⟩

/-- The node of a message that is expanded, be it plain or keyed. -/
theorem messageNode_answers (position : Nat) (field : String) (comment : Option String)
    (inMap keyed : Bool) (type : String) (m : Message) {offers : List Offer}
    (hclass : v.classify m = if keyed then .keyedRecords else .structural)
    (hfields : OffersAnswer v offers (fieldsRegistrations v 0 m.fields)) :
    (messageNode v (fieldEntry v position field comment) type keyed
        (enrol field [] offers)).Answers v ⟨messageSeed v position field inMap m, false⟩ := by
  cases keyed with
  | false =>
      have hseed : messageSeed v position field inMap m = ⟨field, .plain, position, .fields m⟩ := by
        simp [messageSeed, hclass]
      rw [hseed]
      exact ⟨⟨rfl, rfl, rfl, fun h => absurd h Bool.false_ne_true, fun _ => rfl⟩, rfl,
        grownFrom_enrol hfields _ field⟩
  | true =>
      have hseed : messageSeed v position field inMap m =
          ⟨field, .keyedRecords, position, .fields m⟩ := by
        simp [messageSeed, hclass]
      rw [hseed]
      exact ⟨⟨rfl, rfl, rfl, fun h => absurd h Bool.false_ne_true, fun h => absurd rfl h⟩, rfl,
        grownFrom_enrol hfields _ field⟩

mutual
theorem messageOffer_answers (position : Nat) (field : String) (comment : Option String)
    (repeated inMap : Bool) :
    ∀ m : MessageOf FieldType,
      (messageOffer v (fieldEntry v position field comment) repeated inMap m).Answers v
        ⟨messageSeed v position field inMap m, false⟩
  | ⟨name, fields, enums⟩ => by
      have hfields := fieldsOffers_answer repeated 0 fields
      rw [messageOffer]
      cases hclass : v.classify ⟨name, fields, enums⟩ with
      | bag flavor => exact bagOffer_answers v position field comment flavor inMap _ hclass
      | structural =>
          exact messageNode_answers v position field comment inMap false _ _ hclass hfields
      | keyedRecords =>
          exact messageNode_answers v position field comment inMap true _ _ hclass hfields

theorem fieldsOffers_answer (repeated : Bool) :
    ∀ (position : Nat) (fields : List (FieldOf FieldType)),
      OffersAnswer v (fieldsOffers v repeated position fields)
        (fieldsRegistrations v position fields)
  | _, [] => .nil
  | position, f :: rest => by
      rw [fieldsOffers, fieldsRegistrations]
      exact (fieldOffers_answer repeated position f).append
        (fieldsOffers_answer repeated (position + 1) rest)

theorem fieldOffers_answer (repeated : Bool) (position : Nat) :
    ∀ f : FieldOf FieldType,
      OffersAnswer v (fieldOffers v repeated position f) (fieldRegistrations v position f)
  | ⟨name, number, cardinality, type, comment⟩ => by
      have htype := typeOffers_answer position name comment repeated (cardinality == .repeated) type
      rw [fieldOffers, fieldRegistrations]
      by_cases hpass : v.isPassthrough name = true
      · rw [if_pos hpass, if_pos hpass]
        exact .single (fieldLeaf_answers v position name comment _)
      · rw [if_neg hpass, if_neg hpass]
        exact htype

theorem typeOffers_answer (position : Nat) (field : String) (comment : Option String)
    (repeated own : Bool) :
    ∀ type : FieldType,
      OffersAnswer v (typeOffers v (fieldEntry v position field comment) repeated own type)
        (typeRegistrations v position field type)
  | .scalar _ => .single (fieldLeaf_answers v position field comment _)
  | .enum e => enumOffers_answer v e "enum" field
  | .message m => .single (messageOffer_answers position field comment (own || repeated) false m)
  | .map _ (.message m) => .single (messageOffer_answers position field comment repeated true m)
  | .map _ (.scalar _) => .single (fieldLeaf_answers v position field comment _)
  | .map _ (.enum _) => .single (fieldLeaf_answers v position field comment _)
  | .map _ (.map _ _) => .remark .nil
  | .map _ .group => .remark .nil
  | .group => .remark .nil
end

end Offers

/-- The root grows from the fields of its message. -/
theorem rootBranch_grownFrom (v : Vocabulary) (root : String) (m : Message) :
    (Tree.rootBranch v root m).value.GrownFrom id v (.fields m) :=
  grownFrom_enrol (fieldsOffers_answer v false 0 m.fields) _ root

end FieldAtlas
