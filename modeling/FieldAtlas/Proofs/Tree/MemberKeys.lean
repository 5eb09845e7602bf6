import FieldAtlas.Proofs.Tree.FieldChild
import FieldAtlas.Proofs.Tree.Members
import Mathlib.Data.List.Find

/-!
# `MemberKeys` — who has a number among the enums of a message

The enums of a message share one set of keys with each other and with its fields, and the first to
ask for a key has it.  A member that comes too late for its name is not there at all, and a member
that comes too late for its number only is there under its name alone.

Where no name is written like a number the two contests come apart.  The names are settled first:
`firstAskers` are the requests that get theirs.  Among these the first member of a number has the
number (`Register.child?_foldl`), so a member has both its keys exactly if it is the one
(`Tree.member_has_both_keys_iff`).
-/

namespace FieldAtlas

/-- The requests that are the first to ask for their names, once the names `taken` are gone. -/
def firstAskers (taken : List String) : List Registration → List Registration
  | [] => []
  | g :: rest =>
    if g.seed.name ∈ taken then firstAskers taken rest
    else g :: firstAskers (g.seed.name :: taken) rest

/-- The request asks for this number as a key. -/
def Registration.asksNumber (number : Int) (g : Registration) : Bool :=
  g.numbered && g.seed.ordinal == number

/-- The name of the member that has a number below the node of a message: of the members that are
the first to ask for their names, the first with this number. -/
def numberHolder? (v : Vocabulary) (m : Message) (number : Int) : Option String :=
  ((firstAskers [] ((Source.fields m).registrations v)).find? (·.asksNumber number)).map
    (·.seed.name)

/-! ## Names first, numbers second -/

section

variable {g : Registration} {taken : List String}

theorem Registration.text_mem_keys_iff (hname : NoNumber g.seed.name) {number : Int} :
    Decimal.text number ∈ g.keys ↔ g.asksNumber number = true := by
  have hother : Decimal.text number ≠ g.seed.name := hname number
  have hsame : Decimal.text number = Decimal.text g.seed.ordinal ↔ g.seed.ordinal = number :=
    ⟨fun h => (Decimal.text_injective h).symm, fun h => h ▸ rfl⟩
  by_cases hnumbered : g.numbered = true
  · simp [keys, asksNumber, hnumbered, hother, hsame]
  · simp [keys, asksNumber, hnumbered, hother]

theorem mem_of_mem_firstAskers {gs : List Registration} (h : g ∈ firstAskers taken gs) :
    g ∈ gs := by
  induction gs generalizing taken with
  | nil => exact h
  | cons x gs ih =>
      rw [firstAskers] at h
      split at h
      · exact List.mem_cons_of_mem _ (ih h)
      · rcases List.mem_cons.mp h with rfl | h
        · exact List.mem_cons_self
        · exact List.mem_cons_of_mem _ (ih h)

/-- A request that nobody before it stands in the way of is found. -/
theorem find?_firstAskers {before after : List Registration} {p : Registration → Bool}
    (hp : p g = true) (hfree : g.seed.name ∉ taken)
    (hbefore : ∀ x ∈ before, x.seed.name ≠ g.seed.name ∧ p x = false) :
    (firstAskers taken (before ++ g :: after)).find? p = some g := by
  induction before generalizing taken with
  | nil =>
      rw [List.nil_append, firstAskers, if_neg hfree]
      exact List.find?_cons_of_pos hp
  | cons x before ih =>
      obtain ⟨⟨hname, hx⟩, hrest⟩ := List.forall_mem_cons.mp hbefore
      rw [List.cons_append, firstAskers]
      split
      · exact ih hfree hrest
      · have hstill : g.seed.name ∉ x.seed.name :: taken := by
          intro hmem
          rcases List.mem_cons.mp hmem with heq | hmem
          · exact hname heq.symm
          · exact hfree hmem
        rw [List.find?_cons_of_neg (by simp [hx])]
        exact ih hstill hrest

end

namespace Register

variable {r : Register} {g : Registration} {key : String}

/-- Every key leads to a child. -/
def Full (r : Register) : Prop := ∀ key ∈ r.keys, ∃ x, r.child? key = some x

/-- A request whose name is free puts its child under all of its keys that are free. -/
theorem child?_add (hfull : r.Full) (hfree : g.seed.name ∉ r.keys) :
    (r.add g).child? key = (r.child? key).or (if key ∈ g.keys then some g.seed else none) := by
  by_cases htaken : key ∈ r.keys
  · obtain ⟨x, hx⟩ := hfull key htaken
    rw [child?_add_of_some hx, hx, Option.some_or]
  · have hnone : r.child? key = none := by rw [child?, lookup_eq_none_iff.mpr htaken]; rfl
    rw [hnone, Option.none_or]
    by_cases hkey : key ∈ g.keys
    · rw [if_pos hkey, child?_add_of_free hfree hkey htaken]
    · rw [if_neg hkey, child?, lookup_add hfree, lookup_eq_none_iff.mpr htaken, if_neg hkey]
      rfl

theorem Full.add (hfull : r.Full) : (r.add g).Full := by
  intro key hkey
  by_cases hfree : g.seed.name ∈ r.keys
  · rw [Register.add, if_pos hfree] at hkey ⊢
    exact hfull key hkey
  · rcases mem_keys_of_mem_keys_add hkey with hold | hnew
    · obtain ⟨x, hx⟩ := hfull key hold
      exact ⟨x, child?_add_of_some hx⟩
    · rw [child?_add hfull hfree, if_pos hnew]
      cases r.child? key with
      | some x => exact ⟨x, rfl⟩
      | none => exact ⟨g.seed, rfl⟩

/-- Where no name is written like a number, what is under a key was there before or belongs to the
first request for the key among those that get their names. -/
theorem child?_foldl {gs : List Registration} :
    ∀ {r : Register} {taken : List String}, r.Full → (∀ g ∈ gs, NoNumber g.seed.name) →
      (∀ g ∈ gs, g.seed.name ∈ taken ↔ g.seed.name ∈ r.keys) →
      (gs.foldl Register.add r).child? key =
        (r.child? key).or (((firstAskers taken gs).find? (key ∈ ·.keys)).map (·.seed)) := by
  induction gs with
  | nil =>
      intro r taken _ _ _
      exact (Option.or_none).symm
  | cons g gs ih =>
      intro r taken hfull hnames htaken
      obtain ⟨-, hnames'⟩ := List.forall_mem_cons.mp hnames
      obtain ⟨hg, htaken'⟩ := List.forall_mem_cons.mp htaken
      rw [List.foldl_cons, firstAskers]
      by_cases hgone : g.seed.name ∈ taken
      · rw [if_pos hgone, Register.add, if_pos (hg.mp hgone)]
        exact ih hfull hnames' htaken'
      · have hfree : g.seed.name ∉ r.keys := mt hg.mpr hgone
        have hstep : ∀ x ∈ gs,
            x.seed.name ∈ g.seed.name :: taken ↔ x.seed.name ∈ (r.add g).keys := by
          intro x hx
          -- A name is no number, so the number of the request is no matter.
          have hkeys : x.seed.name ∈ g.keys ↔ x.seed.name = g.seed.name := by
            rw [Registration.keys, List.mem_cons]
            refine or_iff_left fun hnumber => ?_
            split at hnumber
            · exact hnames' x hx _ (List.mem_singleton.mp hnumber).symm
            · exact absurd hnumber List.not_mem_nil
          have hadd : x.seed.name ∈ (r.add g).keys ↔
              x.seed.name ∈ r.keys ∨ x.seed.name ∈ g.keys := by
            rw [← not_iff_not, ← lookup_eq_none_iff, lookup_add hfree, Option.or_eq_none_iff,
              lookup_eq_none_iff]
            simp
          rw [hadd, hkeys, List.mem_cons, htaken' x hx]
          exact Or.comm
        rw [if_neg hgone, ih hfull.add hnames' hstep, child?_add hfull hfree, Option.or_assoc,
          List.find?_cons]
        congr 1
        by_cases hkey : key ∈ g.keys <;> simp [hkey]

end Register

/-! ## What the fields of a message ask for -/

section

variable {v : Vocabulary} {f : Field} {g : Registration}

/-- A field asks for numbers on behalf of its members only. -/
theorem mem_fieldRegistrations {position : Nat} (h : g ∈ fieldRegistrations v position f) :
    (∃ e ∈ fieldMembers v f, g = memberRegistration e) ∨
      g.numbered = false ∧ g.seed.name = f.name := by
  rw [fieldRegistrations] at h
  by_cases hpass : v.isPassthrough f.name = true
  · rw [if_pos hpass, List.mem_singleton] at h
    exact Or.inr ⟨h ▸ rfl, h ▸ rfl⟩
  rw [if_neg hpass] at h
  rw [fieldMembers, if_neg hpass]
  cases htype : f.type with
  | scalar s =>
      rw [htype, typeRegistrations, List.mem_singleton] at h
      exact Or.inr ⟨h ▸ rfl, h ▸ rfl⟩
  | enum e =>
      rw [htype] at h
      rcases List.mem_append.mp h with h | h
      · obtain ⟨member, hmember, rfl⟩ := List.mem_map.mp h
        exact Or.inl ⟨member, hmember, rfl⟩
      · split at h
        · exact absurd h List.not_mem_nil
        · rw [List.mem_singleton] at h
          exact Or.inr ⟨h ▸ rfl, h ▸ rfl⟩
  | message m =>
      rw [htype, typeRegistrations, List.mem_singleton] at h
      exact Or.inr ⟨h ▸ rfl, h ▸ name_messageSeed _ _⟩
  | group =>
      rw [htype] at h
      exact absurd h List.not_mem_nil
  | map key value =>
      rw [htype] at h
      cases value with
      | scalar _ | enum _ =>
          rw [typeRegistrations, List.mem_singleton] at h
          exact Or.inr ⟨h ▸ rfl, h ▸ rfl⟩
      | message m =>
          rw [typeRegistrations, List.mem_singleton] at h
          exact Or.inr ⟨h ▸ rfl, h ▸ name_messageSeed _ _⟩
      | map _ _ | group => exact absurd h List.not_mem_nil

theorem fieldsRegistrations_append (position : Nat) (front back : List Field) :
    fieldsRegistrations v position (front ++ back) =
      fieldsRegistrations v position front ++
        fieldsRegistrations v (position + front.length) back := by
  induction front generalizing position with
  | nil => rfl
  | cons f front ih =>
      rw [List.cons_append, fieldsRegistrations, fieldsRegistrations, ih, List.append_assoc,
        List.length_cons, Nat.add_assoc, Nat.add_comm 1]

/-- Only members ask for numbers. -/
theorem shape_of_numbered {m : Message} (h : g ∈ (Source.fields m).registrations v)
    (hnumbered : g.numbered = true) : g.seed.shape = .enumMarker := by
  obtain ⟨f, -, position, hg⟩ := exists_field_of_mem_fieldsRegistrations h
  rcases mem_fieldRegistrations hg with ⟨e, -, rfl⟩ | ⟨hnot, -⟩
  · rfl
  · rw [hnot] at hnumbered
    cases hnumbered

/-- What is asked for before a member: by the fields before, and by the members before it. -/
theorem exists_registrations_eq {m : Message} {position : Nat} {e : EnumType} {u : EnumMember}
    {front back : List EnumMember} (hf : m.fields[position]? = some f)
    (hpass : v.isPassthrough f.name = false) (htype : f.type = .enum e)
    (hmembers : e.members = front ++ u :: back) :
    ∃ after, (Source.fields m).registrations v =
      fieldsRegistrations v 0 (m.fields.take position) ++ front.map memberRegistration ++
        memberRegistration u :: after := by
  obtain ⟨hlt, hget⟩ := List.getElem?_eq_some_iff.mp hf
  have hfields : m.fields = m.fields.take position ++ f :: m.fields.drop (position + 1) := by
    rw [← hget, ← List.drop_eq_getElem_cons hlt, List.take_append_drop]
  have hown : ∃ marker, ∀ i, fieldRegistrations v i f = front.map memberRegistration ++
      memberRegistration u :: (back.map memberRegistration ++ marker) := by
    refine ⟨if f.name = "" then [] else [⟨⟨f.name, .enumMarker, 0, .nothing⟩, false⟩], fun i => ?_⟩
    rw [fieldRegistrations, if_neg (Bool.eq_false_iff.mp hpass), htype, typeRegistrations,
      enumRegistrations, hmembers, List.map_append, List.append_assoc]
    rfl
  obtain ⟨marker, hown⟩ := hown
  refine ⟨back.map memberRegistration ++ marker ++
    fieldsRegistrations v (0 + (m.fields.take position).length + 1) (m.fields.drop (position + 1)),
    ?_⟩
  calc fieldsRegistrations v 0 m.fields
      = fieldsRegistrations v 0 (m.fields.take position ++ f :: m.fields.drop (position + 1)) :=
        congrArg _ hfields
    _ = _ := by
        rw [fieldsRegistrations_append, fieldsRegistrations, hown]
        simp only [List.append_assoc, List.cons_append]

/-- A member whose keys no field before its own wants, for itself or for a member, has its number,
if the members of its own enum differ from each other. -/
theorem numberHolder?_of_unrivalled {m : Message} {position : Nat} {e : EnumType} {u : EnumMember}
    (hf : m.fields[position]? = some f) (hpass : v.isPassthrough f.name = false)
    (htype : f.type = .enum e) (hu : u ∈ e.members) (hnames : (e.members.map (·.name)).Nodup)
    (hnumbers : (e.members.map (·.number)).Nodup)
    (hrivals : ∀ h ∈ m.fields.take position, h.name ≠ u.name ∧
      ∀ other ∈ fieldMembers v h, other.name ≠ u.name ∧ other.number ≠ u.number) :
    numberHolder? v m u.number.toInt = some u.name := by
  obtain ⟨front, back, hmembers⟩ := List.append_of_mem hu
  obtain ⟨after, hrequests⟩ := exists_registrations_eq hf hpass htype hmembers
  have hmember : ∀ other : EnumMember, other.name ≠ u.name → other.number ≠ u.number →
      (memberRegistration other).seed.name ≠ (memberRegistration u).seed.name ∧
        (memberRegistration other).asksNumber u.number.toInt = false := by
    intro other hname hnumber
    refine ⟨hname, ?_⟩
    simpa [Registration.asksNumber, memberRegistration, Int64.toInt_inj] using hnumber
  have hbefore : ∀ x ∈ fieldsRegistrations v 0 (m.fields.take position) ++
      front.map memberRegistration, x.seed.name ≠ (memberRegistration u).seed.name ∧
        x.asksNumber u.number.toInt = false := by
    intro x hx
    rcases List.mem_append.mp hx with hx | hx
    · obtain ⟨h, hh, i, hi⟩ := exists_field_of_mem_fieldsRegistrations hx
      obtain ⟨hname, hothers⟩ := hrivals h hh
      rcases mem_fieldRegistrations hi with ⟨other, hother, rfl⟩ | ⟨hnot, hxname⟩
      · exact hmember other (hothers other hother).1 (hothers other hother).2
      · exact ⟨hxname ▸ hname, by simp [Registration.asksNumber, hnot]⟩
    · obtain ⟨other, hfront, rfl⟩ := List.mem_map.mp hx
      rw [hmembers, List.map_append, List.map_cons, List.nodup_append] at hnames hnumbers
      exact hmember other (hnames.2.2 _ (List.mem_map_of_mem hfront) _ List.mem_cons_self)
        (hnumbers.2.2 _ (List.mem_map_of_mem hfront) _ List.mem_cons_self)
  have hfound : (memberRegistration u).asksNumber u.number.toInt = true := by
    simp [Registration.asksNumber, memberRegistration]
  rw [numberHolder?, hrequests, find?_firstAskers hfound List.not_mem_nil hbefore]
  rfl

end

/-! ## Below the node of a message -/

/-- Going down, a source hands on names that it has. -/
theorem Source.names_subset_of_follow {v : Vocabulary} {s below : Source} {keys : List String}
    (h : Source.follow v s keys = some below) : below.names ⊆ s.names := by
  induction keys generalizing s with
  | nil =>
      cases h
      exact List.Subset.refl _
  | cons key rest ih =>
      obtain ⟨x, hx, hrest⟩ := Option.bind_eq_some_iff.mp h
      obtain ⟨i, -, hseed⟩ := Option.bind_eq_some_iff.mp hx
      exact List.Subset.trans (ih hrest)
        (Source.namedIn_of_mem_register (List.mem_of_getElem? hseed)).below

/-- Under a number stands the member that has it. -/
theorem child?_number {v : Vocabulary} {m : Message}
    (hnames : ∀ name ∈ messageNames m, isIdentifier name = true) (number : Int) :
    ((Source.fields m).register v).child? (Decimal.text number) =
      ((firstAskers [] ((Source.fields m).registrations v)).find? (·.asksNumber number)).map
        (·.seed) := by
  have hplain : ∀ g ∈ (Source.fields m).registrations v, NoNumber g.seed.name := by
    intro g hg
    have hname := (namedIn_of_mem_fieldsRegistrations hg).name
    exact .of_isIdentifier (hnames _ (fieldsNames_subset m hname))
  have hfull : Register.Full {} := fun key hkey => absurd hkey List.not_mem_nil
  have hnone : ∀ g ∈ (Source.fields m).registrations v,
      g.seed.name ∈ ([] : List String) ↔ g.seed.name ∈ Register.keys {} := by
    simp [Register.keys]
  rw [Source.register, Register.child?_foldl hfull hplain hnone]
  have hsame : (firstAskers [] ((Source.fields m).registrations v)).find?
        (fun g => decide (Decimal.text number ∈ g.keys)) =
      (firstAskers [] ((Source.fields m).registrations v)).find? (·.asksNumber number) := by
    refine List.find?_congr fun g hg => ?_
    rw [Bool.eq_iff_iff, decide_eq_true_iff]
    exact Registration.text_mem_keys_iff (hplain g (mem_of_mem_firstAskers hg))
  rw [hsame]
  rfl

/-- The node has both keys of a member: one leaf under the name and under the number, and it is the
leaf of that name and that number. -/
def Place.HasBothKeys (n : Node) (u : EnumMember) : Prop :=
  ∃ c, n.child? u.name = some c ∧ n.child? (Decimal.text u.number.toInt) = some c ∧
    c.shape = .enumMarker ∧ c.name = u.name ∧ c.entry.ordinal = u.number.toInt

theorem Place.Declared.hasBothKeys_iff {v : Vocabulary} {n : Node} {m : Message}
    (hn : n.Declared v (.fields m)) (hnames : ∀ name ∈ messageNames m, isIdentifier name = true)
    {u : EnumMember} :
    n.HasBothKeys u ↔ numberHolder? v m u.number.toInt = some u.name := by
  have hnumber := child?_number (v := v) hnames u.number.toInt
  rw [numberHolder?, Option.map_eq_some_iff]
  constructor
  · rintro ⟨c, -, hc, -, hname, -⟩
    have hchild := hn.child? (Decimal.text u.number.toInt)
    rw [hc, hnumber] at hchild
    cases hfound : (firstAskers [] ((Source.fields m).registrations v)).find?
        (·.asksNumber u.number.toInt) with
    | none => simp [hfound] at hchild
    | some g =>
        rw [hfound, Option.map_some, Option.rel_some_some] at hchild
        exact ⟨g, rfl, hchild.1.name.symm.trans hname⟩
  · rintro ⟨g, hfound, hname⟩
    rw [hfound, Option.map_some] at hnumber
    obtain ⟨c, hc, hfits, -⟩ := hn.exists_child? hnumber
    have hasks := List.find?_some hfound
    simp only [Registration.asksNumber, Bool.and_eq_true, beq_iff_eq] at hasks
    have hmem := mem_of_mem_firstAskers (List.mem_of_find?_eq_some hfound)
    have hcname : c.name = u.name := hfits.name.trans hname
    -- Whoever is found under a number is found under its name as well.
    have hown := hn.wellFormed.child?_name (mem_below_of_child? hc).1
    rw [hcname] at hown
    exact ⟨c, hown, hc, hfits.shape.trans (shape_of_numbered hmem hasks.1), hcname,
      hfits.ordinal.trans hasks.2⟩

/-- Below every node that a message is expanded at, one leaf stands under the name and under the
number of a member exactly if this member has the number: if, of the members that are the first to
ask for their names, it is the first with this number.  So it is whenever no field before its own
wants the name or the number, for itself or for a member. -/
theorem Tree.member_has_both_keys_iff {v : Vocabulary} {root : String} {type : Message} {t : Tree}
    (built : (build v root (some type)).value = .ok t)
    (hnames : ∀ name ∈ messageNames type, isIdentifier name = true) {keys : List String} {n : Node}
    (hn : t.rootNode.walk? keys = some n) {m : Message}
    (hsource : Source.follow v (.fields type) keys = some (.fields m)) {position : Nat} {f : Field}
    (hf : m.fields[position]? = some f) (hpass : v.isPassthrough f.name = false) {e : EnumType}
    (htype : f.type = .enum e) {u : EnumMember} (hu : u ∈ e.members) :
    (n.HasBothKeys u ↔ numberHolder? v m u.number.toInt = some u.name) ∧
    ((e.members.map (·.name)).Nodup → (e.members.map (·.number)).Nodup →
      (∀ h ∈ m.fields.take position, h.name ≠ u.name ∧
        ∀ other ∈ fieldMembers v h, other.name ≠ u.name ∧ other.number ≠ u.number) →
      n.HasBothKeys u) := by
  have hdeclared : n.Declared v (.fields m) := by
    have hwalk := (exists_declared built).1.walk? keys
    rw [hn, hsource, Option.rel_some_some] at hwalk
    exact hwalk
  have hbelow : ∀ name ∈ messageNames m, isIdentifier name = true :=
    fun name hname => hnames name (Source.names_subset_of_follow hsource hname)
  have hiff := hdeclared.hasBothKeys_iff hbelow (u := u)
  refine ⟨hiff, fun hdistinct hdistinct' hrivals => hiff.mpr ?_⟩
  exact numberHolder?_of_unrivalled hf hpass htype hu hdistinct hdistinct' hrivals

/-! ## A log of devices

Two enums and a field that shares its name with a member. -/

def sampleDevices : Message where
  name := "DeviceLog"
  fields := [
    { name := "IOS", number := 1, type := .scalar .int64 },
    { name := "os", number := 2,
      type := .enum ⟨"Os", [⟨"ANDROID", 1, none⟩, ⟨"IOS", 2, none⟩]⟩ },
    { name := "net", number := 3,
      type := .enum ⟨"Net", [⟨"WIFI", 1, none⟩, ⟨"MOBILE", 2, none⟩]⟩ }]

def sampleDevicesTree : Tree := .ofEntries (Tree.rootBranch {} "log" sampleDevices).value

theorem build_sampleDevices :
    (Tree.build {} "log" (some sampleDevices)).value = .ok sampleDevicesTree := rfl

theorem names_sampleDevices :
    ∀ name ∈ messageNames sampleDevices, isIdentifier name = true := by
  decide +kernel

/-- `MOBILE` has the number 2, since the member `IOS` has come too late for its name; `WIFI` has
come too late for the number 1. -/
theorem Tree.member_has_both_keys_mobile :
    sampleDevicesTree.rootNode.HasBothKeys ⟨"MOBILE", 2, none⟩ ∧
      ¬ sampleDevicesTree.rootNode.HasBothKeys ⟨"WIFI", 1, none⟩ := by
  have hroot : sampleDevicesTree.rootNode.walk? [] = some sampleDevicesTree.rootNode := rfl
  have hnet : sampleDevices.fields[2]? = some _ := rfl
  obtain ⟨hmobile, -⟩ := member_has_both_keys_iff build_sampleDevices names_sampleDevices hroot rfl
    hnet rfl rfl (u := ⟨"MOBILE", 2, none⟩) (by decide)
  obtain ⟨hwifi, -⟩ := member_has_both_keys_iff build_sampleDevices names_sampleDevices hroot rfl
    hnet rfl rfl (u := ⟨"WIFI", 1, none⟩) (by decide)
  exact ⟨hmobile.mpr (by decide), mt hwifi.mp (by decide)⟩

/-- The field `IOS` has taken the name of the member, so that its number leads elsewhere. -/
theorem Tree.member_without_keys :
    validate sampleDevices = .ok () ∧
    (∀ name ∈ messageNames sampleDevices, isIdentifier name = true) ∧
    (∀ f ∈ sampleDevices.fields, ∀ e, f.type = .enum e →
      (e.members.map (·.name)).Nodup ∧ (e.members.map (·.number)).Nodup) ∧
    (build {} "log" (some sampleDevices)).value = .ok sampleDevicesTree ∧
    ∃ f e u, sampleDevices.fields[1]? = some f ∧ ({} : Vocabulary).isPassthrough f.name = false ∧
      f.type = .enum e ∧ u ∈ e.members ∧ ¬ sampleDevicesTree.rootNode.HasBothKeys u := by
  refine ⟨rfl, names_sampleDevices, ?_, build_sampleDevices, _, _, ⟨"IOS", 2, none⟩, rfl, rfl, rfl,
    by decide, ?_⟩
  · intro f hf e htype
    rcases List.mem_cons.mp hf with rfl | hf
    · cases htype
    rcases List.mem_cons.mp hf with rfl | hf
    · cases htype
      decide
    · rw [List.mem_singleton.mp hf] at htype
      cases htype
      decide
  · rintro ⟨c, hc, -, hshape, -⟩
    cases hc
    cases hshape

end FieldAtlas
