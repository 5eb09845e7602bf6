import FieldAtlas.Description.Validation
import FieldAtlas.Proofs.Path.Printing
import FieldAtlas.Proofs.Tree.Invariant

/-!
# `FirstOffer` — the branch that stands under a name

A node enrols what is offered to it in order, and the first that asks for a name has it, unless the
name is written like a number and a member got it as such.  So under a name that no number has
stands the first branch that was offered under this name (`find?_enrol`), and the node under the
name is that branch with everything below it (`Place.exists_child?_of_children`).

The fields of a message make their offers one after another.  A field that holds an enum offers its
members first, and then there is at most one offer for the field itself (`exists_fieldOffers_eq`).
Hence under the name of a field stands either what the field offers for itself, or a member of an
enum that was offered before (`find?_fieldsOffers`).
-/

namespace FieldAtlas

/-! ## Names and numbers -/

/-- No number is written like this. -/
def NoNumber (key : String) : Prop := ∀ i : Int, Decimal.text i ≠ key

theorem not_isAlpha_of_isDigit {c : Char} (h : c.isDigit = true) : ¬ c.isAlpha = true := by
  intro halpha
  have hdigit : c.toNat ≤ 57 := (Char.isDigit_iff_toNat.mp h).2
  have hletter : 65 ≤ c.toNat := by
    rcases Bool.or_eq_true_iff.mp halpha with hupper | hlower
    · exact UInt32.le_iff_toNat_le.mp (of_decide_eq_true hupper).1
    · have hfrom := (Bool.and_eq_true_iff.mp hlower).1
      have hlow : 97 ≤ c.toNat := UInt32.le_iff_toNat_le.mp (of_decide_eq_true hfrom)
      omega
  omega

/-- A number begins with a digit or a minus, and no identifier does. -/
theorem NoNumber.of_isIdentifier {name : String} (h : isIdentifier name = true) :
    NoNumber name := by
  rintro i rfl
  have hchars : (Decimal.text i).toList = Decimal.chars i := String.toList_ofList
  rw [isIdentifier, hchars] at h
  cases hdigits : Decimal.chars i with
  | nil => simp [hdigits] at h
  | cons c rest =>
      have hfirst : c.isAlpha = true ∨ c = '_' := by
        simp only [hdigits, Bool.and_eq_true, Bool.or_eq_true, beq_iff_eq] at h
        exact h.1
      have hnumber : c.isDigit = true ∨ c = '-' := by
        cases i with
        | ofNat n =>
            have hsame : Decimal.digits n = c :: rest := hdigits
            exact Or.inl (Decimal.isDigit_of_mem_digits (n := n) (by simp [hsame]))
        | negSucc n => exact Or.inr (List.cons.inj hdigits).1.symm
      rcases hnumber with hdigit | rfl
      · rcases hfirst with halpha | rfl
        · exact not_isAlpha_of_isDigit hdigit halpha
        · exact absurd hdigit (by decide)
      · exact absurd hfirst (by decide)

/-! ## Who is enrolled -/

/-- The offer is a child of this name. -/
def Offer.isNamed (name : String) : Offer → Bool
  | .child b _ => b.label.name == name
  | .remark _ => false

theorem Branch.mem_keys_settle {key : String} (h : NoNumber key) (taken : List String)
    (b : Branch) : key ∈ (b.settle taken).keys ↔ key = b.label.name := by
  rw [keys_settle, List.mem_cons]
  refine or_iff_left fun hnumber => ?_
  split at hnumber
  · exact h _ (List.mem_singleton.mp hnumber).symm
  · exact absurd hnumber List.not_mem_nil

/-- The first branch that is offered under a free name is enrolled under it. -/
theorem find?_enrol (parent : String) {key : String} (hkey : NoNumber key) {b : Branch}
    {notices : List Notice} :
    ∀ (offers : List Offer) {taken : List String}, key ∉ taken →
      offers.find? (·.isNamed key) = some (.child b notices) →
      ∃ taken', (enrol parent taken offers).value.find? (·.keys.contains key) =
        some (b.settle taken')
  | [], _, _, hfirst => by cases hfirst
  | .remark _ :: rest, taken, hfree, hfirst => find?_enrol parent hkey rest hfree hfirst
  | .child c more :: rest, taken, hfree, hfirst => by
      by_cases hname : c.label.name = key
      · rw [List.find?_cons_of_pos (by simpa [Offer.isNamed] using hname)] at hfirst
        obtain ⟨rfl, rfl⟩ := Offer.child.inj (Option.some.inj hfirst)
        have htaken : ¬ taken.contains c.label.name = true := by simpa [hname] using hfree
        refine ⟨taken, ?_⟩
        rw [enrol, if_neg htaken]
        refine List.find?_cons_of_pos ?_
        rw [List.contains_iff_mem, Branch.mem_keys_settle hkey, hname]
      · rw [List.find?_cons_of_neg (by simpa [Offer.isNamed] using hname)] at hfirst
        have hother : key ∉ (c.settle taken).keys :=
          mt (Branch.mem_keys_settle hkey taken c).mp (Ne.symm hname)
        rw [enrol]
        split
        · exact find?_enrol parent hkey rest hfree hfirst
        · have hstill : key ∉ (c.settle taken).keys ++ taken := by simp [hother, hfree]
          obtain ⟨taken', hfound⟩ := find?_enrol parent hkey rest hstill hfirst
          refine ⟨taken', ?_⟩
          rw [← hfound]
          exact List.find?_cons_of_neg (by simpa using hother)

/-! ## The node under a key -/

/-- The node and all that is below it are the branch, enrolled and numbered. -/
def Place.Embodies (n : Node) (b : Branch) : Prop :=
  ∃ taken start, Rose.node n.label n.children = (b.settle taken).number Label.mk start

namespace Place.Embodies

variable {n : Node} {b : Branch}

/-- All that enrolling may change of an entry is whether its number leads to it. -/
theorem entry (h : n.Embodies b) : n.entry = { b.label with numbered := n.entry.numbered } := by
  obtain ⟨taken, start, hnode⟩ := h
  obtain ⟨e, ts⟩ := b
  obtain ⟨hlabel, -⟩ := Rose.node.inj hnode
  rw [Place.entry, hlabel]
  rfl

theorem children (h : n.Embodies b) :
    ∃ start, n.children = Rose.numberForest Label.mk start b.children := by
  obtain ⟨taken, start, hnode⟩ := h
  obtain ⟨e, ts⟩ := b
  exact ⟨start + 1, (Rose.node.inj hnode).2⟩

end Place.Embodies

/-- Numbering leaves siblings where they are. -/
theorem Rose.find?_numberForest {P : Entry → Bool} {b : Branch} :
    ∀ {bs : List Branch} (start : Nat), bs.find? (P ·.label) = some b →
      ∃ start', (numberForest Label.mk start bs).find? (P ·.label.entry) =
        some (b.number Label.mk start')
  | [], _, h => by cases h
  | .node e ts :: bs, start, h => by
      have hlabel : P ((node e ts).number Label.mk start).label.entry = P (label (.node e ts)) :=
        rfl
      rw [numberForest]
      cases hP : P (label (.node e ts)) with
      | true =>
          simp only [List.find?_cons, hP, Option.some.injEq] at h
          obtain rfl := h
          exact ⟨start, by simp only [List.find?_cons, hlabel, hP]⟩
      | false =>
          simp only [List.find?_cons, hP] at h
          obtain ⟨start', hfound⟩ := find?_numberForest (start + (node e ts).size) h
          exact ⟨start', by simp only [List.find?_cons, hlabel, hP, hfound]⟩

/-- The node under a key is the first of the branches below that answers to it. -/
theorem Place.exists_child?_of_find? {n : Node} {key : String} {start : Nat} {bs : List Branch}
    {b : Branch} (hchildren : n.children = Rose.numberForest Label.mk start bs)
    (hfirst : bs.find? (·.keys.contains key) = some b) :
    ∃ c start', n.child? key = some c ∧
      Rose.node c.label c.children = b.number Label.mk start' := by
  obtain ⟨start', hnumbered⟩ :=
    Rose.find?_numberForest (P := fun e => e.keys.contains key) start hfirst
  have hentry : (fun u : Rose Label => (u.place (n.label :: n.above)).entry.keys.contains key) =
      fun u => u.label.entry.keys.contains key := by
    funext u
    rw [entry_place]
  refine ⟨(b.number Label.mk start').place (n.label :: n.above), start', ?_, ?_⟩
  · rw [child?, below, List.find?_map, hchildren]
    show Option.map _ (List.find? (fun u => _) _) = _
    rw [Function.comp_def, hentry, hnumbered]
    rfl
  · obtain ⟨e, ts⟩ := b
    rfl

/-- The node under a name is the first branch that was offered under it. -/
theorem Place.exists_child?_of_children {n : Node} {parent key : String} {start : Nat}
    {offers : List Offer} {b : Branch} {notices : List Notice} (hkey : NoNumber key)
    (hchildren : n.children = Rose.numberForest Label.mk start (enrol parent [] offers).value)
    (hfirst : offers.find? (·.isNamed key) = some (.child b notices)) :
    ∃ c, n.child? key = some c ∧ c.Embodies b := by
  obtain ⟨taken, henrolled⟩ := find?_enrol parent hkey offers List.not_mem_nil hfirst
  obtain ⟨c, start', hc, hnode⟩ := exists_child?_of_find? hchildren henrolled
  exact ⟨c, hc, taken, start', hnode⟩

/-! ## The offers of a field -/

/-- The members that a field puts beside itself: those of its enum, unless it is passed through. -/
def fieldMembers (v : Vocabulary) (f : Field) : List EnumMember :=
  if v.isPassthrough f.name then [] else (f.type.enum?.map (·.members)).getD []

/-- A member as it is put beside a field. -/
def memberBranch (e : EnumMember) : Branch := .node (memberEntry "enum" e) []

def memberOffer (e : EnumMember) : Offer := .child (memberBranch e) []

/-- What a field offers for itself: a child of its name that is taken for no member of an enum, or a
remark, or nothing. -/
inductive OwnOffers (field : String) : List Offer → Prop
  | child {b : Branch} {notices : List Notice} : b.label.name = field →
      (b.label.shape = .enumMarker → b.label.declaredType ≠ "enum") →
      OwnOffers field [.child b notices]
  | remark (notice : Notice) : OwnOffers field [.remark notice]
  | nothing : OwnOffers field []

theorem OwnOffers.leaf {e : Entry} {field : String} (hname : e.name = field)
    (hshape : e.shape ≠ .enumMarker) : OwnOffers field [leafOffer e] :=
  .child hname fun hmarker => absurd hmarker hshape

theorem exists_messageOffer_eq (v : Vocabulary) (base : Entry) (hplain : base.shape = .plain)
    (repeated inMap : Bool) (m : Message) :
    ∃ b notices, messageOffer v base repeated inMap m = .child b notices ∧
      b.label.name = base.name ∧ b.label.numbered = base.numbered ∧
      b.label.shape ≠ .enumMarker := by
  obtain ⟨name, fields, enums⟩ := m
  rw [messageOffer]
  cases v.classify ⟨name, fields, enums⟩ with
  | bag flavor =>
      refine ⟨_, _, rfl, rfl, rfl, ?_⟩
      show bagShape flavor inMap ≠ .enumMarker
      cases flavor <;> cases inMap <;> exact nofun
  | structural =>
      refine ⟨_, _, rfl, rfl, rfl, ?_⟩
      show base.shape ≠ .enumMarker
      rw [hplain]
      exact nofun
  | keyedRecords => exact ⟨_, _, rfl, rfl, rfl, nofun⟩

/-- A field offers its members, and then itself, if it is in order and no group. -/
theorem exists_fieldOffers_eq (v : Vocabulary) (repeated : Bool) (position : Nat) (f : Field) :
    ∃ own, fieldOffers v repeated position f =
        (fieldMembers v f).map memberOffer ++ own ∧
      OwnOffers f.name own ∧
      (f.name ≠ "" → f.type ≠ .group → ∀ message, typeDefect? message f.name f.type = none →
        ∃ b notices, own = [.child b notices]) := by
  obtain ⟨name, number, cardinality, type, comment⟩ := f
  rw [fieldOffers, fieldMembers]
  by_cases hpass : v.isPassthrough name = true
  · rw [if_pos hpass, if_pos hpass]
    exact ⟨_, rfl, .leaf rfl nofun, fun _ _ _ _ => ⟨_, _, rfl⟩⟩
  rw [if_neg hpass, if_neg hpass]
  have hmessage : ∀ (repeated inMap : Bool) (m : Message), ∃ b notices,
      messageOffer v (fieldEntry v position name comment) repeated inMap m = .child b notices ∧
        OwnOffers name [.child b notices] := by
    intro repeated inMap m
    obtain ⟨b, notices, hoffer, hname, -, hshape⟩ :=
      exists_messageOffer_eq v (fieldEntry v position name comment) rfl repeated inMap m
    exact ⟨b, notices, hoffer, .child hname fun hmarker => absurd hmarker hshape⟩
  cases type with
  | scalar s => exact ⟨_, rfl, .leaf rfl nofun, fun _ _ _ _ => ⟨_, _, rfl⟩⟩
  | enum e =>
      refine ⟨_, rfl, ?_, fun hname _ _ _ => ?_⟩
      · show OwnOffers name (if name = "" then [] else [leafOffer (markerEntry name)])
        split
        · exact .nothing
        · have htype : "int64" ≠ "enum" := by decide
          exact .child rfl fun _ => htype
      · show ∃ b notices, (if name = "" then [] else [leafOffer (markerEntry name)]) = _
        rw [if_neg hname]
        exact ⟨_, _, rfl⟩
  | message m =>
      obtain ⟨b, notices, hoffer, hown⟩ := hmessage (cardinality == .repeated || repeated) false m
      exact ⟨_, congrArg (fun o => [o]) hoffer, hown, fun _ _ _ _ => ⟨b, notices, rfl⟩⟩
  | group => exact ⟨_, rfl, .remark _, fun _ hgroup => absurd rfl hgroup⟩
  | map key value =>
      cases value with
      | scalar s => exact ⟨_, rfl, .leaf rfl nofun, fun _ _ _ _ => ⟨_, _, rfl⟩⟩
      | enum e => exact ⟨_, rfl, .leaf rfl nofun, fun _ _ _ _ => ⟨_, _, rfl⟩⟩
      | message m =>
          obtain ⟨b, notices, hoffer, hown⟩ := hmessage repeated true m
          exact ⟨_, congrArg (fun o => [o]) hoffer, hown, fun _ _ _ _ => ⟨b, notices, rfl⟩⟩
      | map _ _ => exact ⟨_, rfl, .remark _, fun _ _ _ horder => by cases horder⟩
      | group => exact ⟨_, rfl, .remark _, fun _ _ _ horder => by cases horder⟩

/-! ## The first offer under the name of a field -/

section

variable {v : Vocabulary} {repeated : Bool} {key : String}

theorem find?_memberOffers (members : List EnumMember) :
    (members.map memberOffer).find? (·.isNamed key) =
      (members.find? (·.name == key)).map memberOffer := by
  rw [List.find?_map]
  rfl

theorem OwnOffers.find?_eq_none {field : String} {own : List Offer} (h : OwnOffers field own)
    (hne : field ≠ key) : own.find? (·.isNamed key) = none := by
  cases h with
  | nothing => rfl
  | remark notice => rfl
  | child hname _ =>
      rw [List.find?_singleton, if_neg]
      simpa [Offer.isNamed, hname] using hne

theorem fieldsOffers_append (position : Nat) (front back : List Field) :
    fieldsOffers v repeated position (front ++ back) =
      fieldsOffers v repeated position front ++
        fieldsOffers v repeated (position + front.length) back := by
  induction front generalizing position with
  | nil => rfl
  | cons f front ih =>
      rw [List.cons_append, fieldsOffers, fieldsOffers, ih, List.append_assoc, List.length_cons,
        Nat.add_assoc, Nat.add_comm 1]

/-- Fields of other names offer nothing under a name but members of it. -/
theorem find?_fieldsOffers {fields : List Field} (hother : ∀ f ∈ fields, f.name ≠ key)
    (position : Nat) : (fieldsOffers v repeated position fields).find? (·.isNamed key) =
      ((fields.flatMap (fieldMembers v)).find? (·.name == key)).map memberOffer := by
  induction fields generalizing position with
  | nil => rfl
  | cons f rest ih =>
      obtain ⟨own, hoffers, hown, -⟩ := exists_fieldOffers_eq v repeated position f
      obtain ⟨hf, hrest⟩ := List.forall_mem_cons.mp hother
      rw [fieldsOffers, hoffers, List.find?_append, List.find?_append, find?_memberOffers,
        hown.find?_eq_none hf, ih hrest, List.flatMap_cons, List.find?_append]
      cases (fieldMembers v f).find? (·.name == key) <;> simp

/-- Under the name of a field the field comes first, unless a member of the name comes before. -/
theorem find?_fieldsOffers_field {front : List Field} {f : Field} {own : Branch}
    {notices : List Notice} (back : List Field) (hother : ∀ g ∈ front, g.name ≠ f.name)
    (hoffers : fieldOffers v repeated front.length f =
      (fieldMembers v f).map memberOffer ++ [.child own notices])
    (hname : own.label.name = f.name) :
    ∃ notices', (fieldsOffers v repeated 0 (front ++ f :: back)).find? (·.isNamed f.name) =
      some (.child ((((front ++ [f]).flatMap (fieldMembers v)).find? (·.name == f.name)).elim own
        memberBranch) notices') := by
  have hown : Offer.isNamed f.name (.child own notices) = true := by
    simpa [Offer.isNamed] using hname
  rw [fieldsOffers_append, List.find?_append, find?_fieldsOffers hother, Nat.zero_add, fieldsOffers,
    hoffers, List.find?_append, List.find?_append, find?_memberOffers, List.find?_cons_of_pos hown,
    List.flatMap_append, List.flatMap_singleton, List.find?_append]
  cases (front.flatMap (fieldMembers v)).find? (·.name == f.name) with
  | some e => exact ⟨[], rfl⟩
  | none =>
      cases (fieldMembers v f).find? (·.name == f.name) with
      | some e => exact ⟨[], rfl⟩
      | none => exact ⟨notices, rfl⟩

end

end FieldAtlas
