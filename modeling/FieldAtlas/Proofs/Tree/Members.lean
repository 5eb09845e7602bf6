import FieldAtlas.Proofs.Tree.ChildMap

/-!
# `Members` — the two keys of a member

A member of an enum asks for its name and for its number, and each of the two may go to somebody
who asked earlier.  Where no other request wants either of them, the member has both
(`Register.child?_of_unrivalled`), and thereby one node of the tree stands under both
(`Place.Declared.exists_member`).

`UnambiguousMembers` is the case of an attribute bag: its members come from any number of nested
enums, and behind each enum the field of the bag asks for its own name.
-/

namespace FieldAtlas

/-! ## Requests without rivals -/

/-- The keys that a request asks for. -/
def Registration.keys (g : Registration) : List String :=
  g.seed.name :: if g.numbered then [Decimal.text g.seed.ordinal] else []

namespace Register

variable {r : Register} {g : Registration} {key : String}

theorem lookup_eq_none_iff : r.index.lookup key = none ↔ key ∉ r.keys := by
  rw [List.lookup_eq_none_iff, keys, List.mem_map]
  constructor
  · rintro h ⟨entry, hentry, rfl⟩
    exact bne_iff_ne.mp (h entry hentry) rfl
  · intro h entry hentry
    refine bne_iff_ne.mpr ?_
    rintro rfl
    exact h ⟨entry, hentry, rfl⟩

/-- A key that is entered is looked up where it was before, if it was there. -/
theorem lookup_enter (entered : String) (position : Nat) :
    (r.enter entered position).index.lookup key =
      (r.index.lookup key).or (if key = entered then some position else none) := by
  rw [enter]
  split
  · next htaken =>
      by_cases hkey : key = entered
      · subst hkey
        cases hlookup : r.index.lookup key with
        | none => exact absurd htaken (lookup_eq_none_iff.mp hlookup)
        | some i => rfl
      · rw [if_neg hkey, Option.or_none]
  · rw [List.lookup_append, List.lookup_cons, List.lookup_nil]
    by_cases hkey : key = entered
    · simp [hkey]
    · simp [hkey, beq_eq_false_iff_ne.mpr hkey]

/-- A request whose name is free is granted every key that is. -/
theorem lookup_add (hfree : g.seed.name ∉ r.keys) :
    (r.add g).index.lookup key =
      (r.index.lookup key).or (if key ∈ g.keys then some r.seeds.length else none) := by
  rw [add, if_neg hfree]
  dsimp only
  by_cases hnumbered : g.numbered = true
  · rw [if_pos hnumbered, lookup_enter, lookup_enter, Option.or_assoc]
    congr 1
    by_cases hname : key = g.seed.name
    · simp [Registration.keys, hname]
    · by_cases hnumber : key = Decimal.text g.seed.ordinal
      · subst hnumber
        simp [Registration.keys, hnumbered, hname]
      · simp [Registration.keys, hnumbered, hname, hnumber]
  · rw [if_neg hnumbered, lookup_enter]
    congr 1
    simp [Registration.keys, hnumbered]

theorem seeds_add (hfree : g.seed.name ∉ r.keys) : (r.add g).seeds = r.seeds ++ [g.seed] := by
  rw [add, if_neg hfree]
  dsimp only
  split <;> simp only [seeds_enter]

/-- What is under a key stays there. -/
theorem child?_add_of_some {x : Seed} (h : r.child? key = some x) :
    (r.add g).child? key = some x := by
  by_cases hfree : g.seed.name ∈ r.keys
  · rw [add, if_pos hfree]
    exact h
  · obtain ⟨i, hi, hx⟩ := Option.bind_eq_some_iff.mp h
    obtain ⟨hlt, -⟩ := List.getElem?_eq_some_iff.mp hx
    rw [child?, lookup_add hfree, hi, seeds_add hfree, Option.some_or, Option.bind_some,
      List.getElem?_append_left hlt, hx]

/-- A request is granted a key that is free, if its name is free too. -/
theorem child?_add_of_free (hfree : g.seed.name ∉ r.keys) (hkey : key ∈ g.keys)
    (hkeyfree : key ∉ r.keys) : (r.add g).child? key = some g.seed := by
  rw [child?, lookup_add hfree, lookup_eq_none_iff.mpr hkeyfree, if_pos hkey, Option.none_or,
    Option.bind_some, seeds_add hfree, List.getElem?_concat_length]

theorem mem_keys_of_mem_keys_add (h : key ∈ (r.add g).keys) : key ∈ r.keys ∨ key ∈ g.keys := by
  by_contra hnone
  obtain ⟨hr, hg⟩ := not_or.mp hnone
  refine lookup_eq_none_iff.mp ?_ h
  by_cases hfree : g.seed.name ∈ r.keys
  · rw [add, if_pos hfree]
    exact lookup_eq_none_iff.mpr hr
  · rw [lookup_add hfree, lookup_eq_none_iff.mpr hr, if_neg hg]
    rfl

/-- Granting further requests leaves what is under a key. -/
theorem child?_foldl_of_some {x : Seed} (gs : List Registration) (h : r.child? key = some x) :
    (gs.foldl add r).child? key = some x := by
  induction gs generalizing r with
  | nil => exact h
  | cons g gs ih => exact ih (child?_add_of_some h)

theorem mem_keys_of_mem_keys_foldl {gs : List Registration} (h : key ∈ (gs.foldl add r).keys) :
    key ∈ r.keys ∨ ∃ g ∈ gs, key ∈ g.keys := by
  induction gs generalizing r with
  | nil => exact Or.inl h
  | cons g gs ih =>
      rcases ih h with h | ⟨g', hg', hkey⟩
      · exact (mem_keys_of_mem_keys_add h).imp id fun hkey => ⟨g, List.mem_cons_self, hkey⟩
      · exact Or.inr ⟨g', List.mem_cons_of_mem _ hg', hkey⟩

/-- A request none of whose keys is wanted by another is granted all of them. -/
theorem child?_of_unrivalled {gs : List Registration} (hg : g ∈ gs)
    (hrivals : ∀ g' ∈ gs, g' ≠ g → ∀ key ∈ g.keys, key ∉ g'.keys) (hkey : key ∈ g.keys) :
    (gs.foldl add {}).child? key = some g.seed := by
  obtain ⟨before, after, rfl, hfirst⟩ := List.eq_append_cons_of_mem hg
  have hfree : ∀ k ∈ g.keys, k ∉ (before.foldl add {}).keys := by
    intro k hk hmem
    rcases mem_keys_of_mem_keys_foldl hmem with hnone | ⟨g', hg', hk'⟩
    · exact absurd hnone List.not_mem_nil
    · refine hrivals g' (List.mem_append_left _ hg') ?_ k hk hk'
      rintro rfl
      exact hfirst hg'
  rw [List.foldl_append, List.foldl_cons]
  exact child?_foldl_of_some after
    (child?_add_of_free (hfree _ List.mem_cons_self) hkey (hfree key hkey))

end Register

/-! ## Members of a bag -/

/-- An integer is told by its text. -/
theorem Decimal.text_injective {m n : Int} (h : text m = text n) : m = n := by
  have hchars : chars m = chars n := String.ofList_injective h
  -- No digit is a minus.
  have hminus : ∀ k l : Nat, digits k ≠ '-' :: digits l := by
    intro k l heq
    have hdigit : Char.isDigit '-' = true := isDigit_of_mem_digits (heq ▸ List.mem_cons_self)
    exact absurd hdigit (by decide)
  cases m with
  | ofNat k =>
      cases n with
      | ofNat l => exact congrArg Int.ofNat (digits_injective hchars)
      | negSucc l => exact absurd hchars (hminus k (l + 1))
  | negSucc k =>
      cases n with
      | ofNat l => exact absurd hchars.symm (hminus l (k + 1))
      | negSucc l =>
          have hsucc : k + 1 = l + 1 := digits_injective (List.cons.inj hchars).2
          exact congrArg Int.negSucc (Nat.succ.inj hsucc)

/-- Nobody else wants the name or the number of a member: not another member, and not the field
of the bag. -/
structure UnambiguousMembers (field : String) (members : List EnumMember) : Prop where
  names : (members.map (·.name)).Nodup
  numbers : (members.map (·.number)).Nodup
  crosswise : ∀ e ∈ members, ∀ other ∈ members, other ≠ e →
    e.name ≠ Decimal.text other.number.toInt
  field_name : ∀ e ∈ members, e.name ≠ field
  field_number : ∀ e ∈ members, Decimal.text e.number.toInt ≠ field

/-- The request of a member. -/
def memberRegistration (e : EnumMember) : Registration :=
  ⟨⟨e.name, .enumMarker, e.number.toInt, .nothing⟩, true⟩

theorem mem_keys_memberRegistration {e : EnumMember} {key : String} :
    key ∈ (memberRegistration e).keys ↔ key = e.name ∨ key = Decimal.text e.number.toInt := by
  simp [Registration.keys, memberRegistration]

/-- What is asked for below a bag, one request at a time. -/
theorem mem_registrations_members {v : Vocabulary} {field : String} {enums : List EnumType}
    {g : Registration} (h : g ∈ (Source.members field enums).registrations v) :
    (∃ e ∈ enums.flatMap (·.members), g = memberRegistration e) ∨ g.keys = [field] := by
  obtain ⟨type, htype, hg⟩ := List.mem_flatMap.mp h
  rcases List.mem_append.mp hg with hg | hg
  · obtain ⟨e, he, rfl⟩ := List.mem_map.mp hg
    exact Or.inl ⟨e, List.mem_flatMap_of_mem htype he, rfl⟩
  · right
    split at hg
    · exact absurd hg List.not_mem_nil
    · rw [List.mem_singleton.mp hg]
      rfl

/-- Both keys of a member are its own. -/
theorem UnambiguousMembers.child?_register {v : Vocabulary} {field : String}
    {enums : List EnumType} (h : UnambiguousMembers field (enums.flatMap (·.members)))
    {e : EnumMember} (he : e ∈ enums.flatMap (·.members)) {key : String}
    (hkey : key = e.name ∨ key = Decimal.text e.number.toInt) :
    ((Source.members field enums).register v).child? key = some (memberRegistration e).seed := by
  refine Register.child?_of_unrivalled ?_ ?_ (mem_keys_memberRegistration.mpr hkey)
  · obtain ⟨type, htype, he⟩ := List.mem_flatMap.mp he
    exact List.mem_flatMap_of_mem htype (List.mem_append_left _ (List.mem_map_of_mem he))
  · intro g hg hne key hkey hrival
    rw [mem_keys_memberRegistration] at hkey
    rcases mem_registrations_members hg with ⟨other, hother, rfl⟩ | hfield
    · have hdistinct : other ≠ e := by
        rintro rfl
        exact hne rfl
      rw [mem_keys_memberRegistration] at hrival
      rcases hkey with rfl | rfl <;> rcases hrival with hrival | hrival
      · exact hdistinct (List.inj_on_of_nodup_map h.names he hother hrival).symm
      · exact h.crosswise e he other hother hdistinct hrival
      · exact h.crosswise other hother e he hdistinct.symm hrival.symm
      · have hnumber := Int64.toInt_inj.mp (Decimal.text_injective hrival)
        exact hdistinct (List.inj_on_of_nodup_map h.numbers he hother hnumber).symm
    · rw [hfield, List.mem_singleton] at hrival
      subst hrival
      rcases hkey with hkey | hkey
      · exact h.field_name e he hkey.symm
      · exact h.field_number e he hkey.symm

namespace Place

/-- One node stands under the name of a member and under its number. -/
theorem Declared.exists_member {v : Vocabulary} {n : Node} {field : String} {enums : List EnumType}
    (hn : n.Declared v (.members field enums))
    (h : UnambiguousMembers field (enums.flatMap (·.members))) {e : EnumMember}
    (he : e ∈ enums.flatMap (·.members)) :
    ∃ c, n.child? e.name = some c ∧ n.child? (Decimal.text e.number.toInt) = some c ∧
      c.name = e.name ∧ c.entry.ordinal = e.number.toInt := by
  obtain ⟨c, hc, hfits, -⟩ := hn.exists_child? (h.child?_register he (Or.inl rfl))
  obtain ⟨d, hd, hdfits, -⟩ := hn.exists_child? (h.child?_register he (Or.inr rfl))
  -- Children of one name are one child.
  have hdname : d.name = e.name := hdfits.name
  have hsame := hn.wellFormed.child?_name (mem_below_of_child? hd).1
  rw [hdname] at hsame
  have hcd : d = c := Option.some.inj (hsame.symm.trans hc)
  rw [hcd] at hd
  exact ⟨c, hc, hd, hfits.name, hfits.ordinal⟩

end Place

end FieldAtlas
