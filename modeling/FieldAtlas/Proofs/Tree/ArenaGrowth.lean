import FieldAtlas.Proofs.Tree.Arena

/-!
# `ArenaGrowth` — growing in place and growing whole subtrees come to the same

Each function of the builder does to the arena what enrolling its offers does to a node: `Sows` says
so for every arena and every node in it, and the induction over a description goes through one
lemma for each way to make an offer.  The tree of a description is thereby the arena that the
builder ends up with (`Arena.build_eq`).

The frame comes with it.  A message field, be it refused or grown, leaves every node that was there
as it was, save that its parent gains the field's own name as a key (`Arena.growField_frame`).
-/

namespace FieldAtlas

namespace Arena

/-! ## Sowing -/

/-- The step plants what the offers enrol, below a node that is there. -/
def Sows (step : Arena → Arena) (parent : Nat) (offers : List Offer) : Prop :=
  ∀ a : Arena, parent < a.length →
    step a = plant a parent (enrol "" (keysAt a parent) offers).value

section

variable {parent : Nat}

theorem Sows.id (parent : Nat) : Sows (fun a => a) parent [] :=
  fun a _ => (plant_nil a parent).symm

theorem Sows.remark (parent : Nat) (n : Notice) :
    Sows (fun a => a) parent [.remark n] :=
  fun a _ => (plant_nil a parent).symm

/-- One step after the other. -/
theorem Sows.append {step next : Arena → Arena} {offers more : List Offer}
    (h : Sows step parent offers) (h' : Sows next parent more) :
    Sows (fun a => next (step a)) parent (offers ++ more) := by
  intro a hlt
  have hplanted : parent < (step a).length := by
    rw [h a hlt, length_plant]
    exact Nat.lt_add_right _ hlt
  have htaken : ∀ key, key ∈ keysAt (step a) parent ↔ key ∈ keysAt a parent ∨
      key ∈ (enrol "" (keysAt a parent) offers).value.flatMap Branch.keys := by
    intro key
    rw [h a hlt, keysAt_plant hlt, List.mem_append]
  show next (step a) = _
  rw [h' _ hplanted, enrol_append offers more htaken, ← plant_plant hlt, ← h a hlt]

theorem Sows.foldl {α : Type} {step : Arena → α → Arena} {offers : α → List Offer} {xs : List α}
    (h : ∀ x ∈ xs, Sows (step · x) parent (offers x)) :
    Sows (fun a => xs.foldl step a) parent (xs.flatMap offers) := by
  induction xs with
  | nil => exact Sows.id parent
  | cons x xs ih =>
      obtain ⟨hx, hxs⟩ := List.forall_mem_cons.mp h
      exact hx.append (ih hxs)

/-- A step that does nothing when the name of its child is taken, and plants the child else. -/
theorem Sows.single {step : Arena → Arena} {e : Entry} {ts : List Branch} {notices : List Notice}
    (hrefused : ∀ a : Arena, e.name ∈ keysAt a parent → step a = a)
    (hgranted : ∀ a : Arena, parent < a.length → e.name ∉ keysAt a parent →
      step a = plant a parent [Branch.settle (keysAt a parent) (.node e ts)]) :
    Sows step parent [.child (.node e ts) notices] := by
  intro a hlt
  have hcontains : (keysAt a parent).contains (Rose.label (.node e ts)).name = true ↔
      e.name ∈ keysAt a parent := List.contains_iff_mem
  rw [enrol]
  by_cases htaken : e.name ∈ keysAt a parent
  · rw [if_pos (hcontains.mpr htaken), hrefused a htaken]
    exact (plant_nil a parent).symm
  · rw [if_neg (mt hcontains.mp htaken), hgranted a hlt htaken]
    rfl

theorem attach?_of_taken {a : Arena} {e : Entry} (h : e.name ∈ keysAt a parent) :
    attach? a parent e = none :=
  if_pos h

theorem attach?_of_free {a : Arena} {e : Entry} (hlt : parent < a.length)
    (h : e.name ∉ keysAt a parent) :
    attach? a parent e = some (plant a parent [.node e.bare []]) := by
  rw [attach?, if_neg h, link_append_left hlt, plant_leaf]
  rfl

theorem Sows.leaf (parent : Nat) {e : Entry} (he : e.numbered = false) :
    Sows (addLeaf · parent e) parent [leafOffer e] := by
  refine .single (fun a htaken => ?_) fun a hlt hfree => ?_
  · show (attach? a parent e).getD a = a
    rw [attach?_of_taken htaken]
    rfl
  · show (attach? a parent e).getD a = _
    rw [attach?_of_free hlt hfree, Branch.settle_of_not_numbered he, Entry.bare_of_not_numbered he]
    rfl

/-- A member has its number for a key if that is free; the leaf is the same either way. -/
theorem Sows.member (parent : Nat) {e : Entry} (he : e.numbered = true) :
    Sows (addMember · parent e) parent [leafOffer e] := by
  refine .single (fun a htaken => ?_) fun a hlt hfree => ?_
  · show addMember a parent e = a
    rw [addMember, attach?_of_taken htaken]
  · show addMember a parent e = _
    have hkeys : ∀ key, key ∈ keysAt (plant a parent [.node e.bare []]) parent ↔
        key ∈ e.name :: keysAt a parent := by
      intro key
      rw [keysAt_plant hlt, List.mem_append, List.mem_cons, or_comm]
      simp [Branch.keys, Entry.keys, Entry.bare, Rose.label]
    rw [addMember, attach?_of_free hlt hfree]
    show share (plant a parent [.node e.bare []]) parent (Decimal.text e.ordinal) a.length = _
    rw [share]
    by_cases htaken : Decimal.text e.ordinal ∈ e.name :: keysAt a parent
    · have hsettle : Branch.settle (keysAt a parent) (.node e []) = .node e.bare [] := by
        rw [Branch.settle, he, List.contains_iff_mem.mpr htaken]
        rfl
      rw [if_pos ((hkeys _).mpr htaken), hsettle]
    · have hsettle : Branch.settle (keysAt a parent) (.node e []) = .node e [] := by
        rw [Branch.settle, Bool.eq_false_iff.mpr (mt List.contains_iff_mem.mp htaken),
          Bool.not_false, Bool.and_true]
      have hlink : parent < (link a parent [(e.name, a.length)]).length := by rwa [length_link]
      have hnamed : e.bare.keys = [e.name] := rfl
      have hboth : e.keys = [e.name, Decimal.text e.ordinal] := if_pos he
      rw [if_neg (mt (hkeys _).mp htaken), hsettle, plant_leaf, plant_leaf, hnamed, hboth,
        List.map_singleton, link_append_left hlink, link_link]
      rfl

theorem Sows.enum (parent : Nat) (e : EnumType) (type field : String) :
    Sows (addEnum · parent e type field) parent (enumOffers e type field) := by
  have hmembers : Sows (fun a => (e.members.map (memberEntry type)).foldl (addMember · parent) a)
      parent (e.members.map (leafOffer <| memberEntry type ·)) := by
    have hleaves : (e.members.map (memberEntry type)).flatMap (fun u => [leafOffer u]) =
        e.members.map (leafOffer <| memberEntry type ·) := by
      rw [← List.map_eq_flatMap, List.map_map]
      rfl
    rw [← hleaves]
    refine .foldl fun u hu => ?_
    obtain ⟨member, -, rfl⟩ := List.mem_map.mp hu
    exact .member parent rfl
  have hmarker : Sows (fun a => if field = "" then a else addLeaf a parent (markerEntry field))
      parent (if field = "" then [] else [leafOffer (markerEntry field)]) := by
    by_cases hfield : field = ""
    · simp only [hfield, if_true]
      exact .id parent
    · simp only [hfield, if_false]
      exact .leaf parent rfl
  exact hmembers.append hmarker

/-- A child that is let in, and what is grown below it, which starts with no key taken. -/
theorem exists_grown {e : Entry} (he : e.numbered = false) {grow : Arena → Nat → Arena}
    {offers : List Offer} (hgrow : ∀ parent, Sows (grow · parent) parent offers) (name : String)
    {a : Arena} (hlt : parent < a.length) (hfree : e.name ∉ keysAt a parent) :
    ∃ grown, attach? a parent e = some grown ∧
      grow grown a.length = plant a parent [.node e (enrol name [] offers).value] := by
  have hlength : (plant a parent [.node e []]).length = a.length + 1 := length_plant _ _ _
  have hnone : keysAt (plant a parent [.node e []]) a.length = [] := by
    have hend := length_link a parent (e.keys.map (·, a.length))
    rw [keysAt, plant_leaf, List.getElem?_append_right (Nat.le_of_eq hend), hend, Nat.sub_self]
    rfl
  refine ⟨_, attach?_of_free hlt hfree, ?_⟩
  have hsown := hgrow a.length (plant a parent [.node e []])
    (by rw [hlength]; exact Nat.lt_succ_self _)
  dsimp only at hsown
  rw [Entry.bare_of_not_numbered he, hsown, hnone, plant_below]
  exact congrArg (fun bs => plant a parent [.node e bs]) (enrol_congr offers fun _ => Iff.rfl)

theorem Sows.below {e : Entry} (he : e.numbered = false) {grow : Arena → Nat → Arena}
    {offers : List Offer} (hgrow : ∀ parent, Sows (grow · parent) parent offers) (name : String)
    (notices : List Notice) :
    Sows (fun a => match attach? a parent e with
      | none => a
      | some grown => grow grown a.length) parent
      [.child (.node e (enrol name [] offers).value) notices] := by
  refine .single (fun a htaken => ?_) fun a hlt hfree => ?_
  · rw [attach?_of_taken htaken]
  · obtain ⟨grown, hgrown, hplanted⟩ := exists_grown he hgrow name hlt hfree
    rw [hgrown, Branch.settle_of_not_numbered he]
    exact hplanted

end

/-! ## Leaf types -/

/-- The cells of siblings stand in the arena from their number on. -/
def Holds (a : Arena) (parent start : Nat) (ts : List Branch) : Prop :=
  ∃ front back, a = front ++ cells parent start ts ++ back ∧ front.length = start

section

variable {a : Arena} {parent start : Nat}

theorem Holds.cons {e : Entry} {us ts : List Branch}
    (h : Holds a parent start (.node e us :: ts)) :
    a[start]? = some ⟨e.bare, some parent, keyIds (start + 1) us⟩ ∧
      Holds a start (start + 1) us ∧ Holds a parent (start + Rose.size (.node e us)) ts := by
  obtain ⟨front, back, rfl, rfl⟩ := h
  refine ⟨?_, ⟨front ++ [⟨e.bare, some parent, keyIds (front.length + 1) us⟩],
    cells parent (front.length + Rose.size (.node e us)) ts ++ back, ?_, ?_⟩,
    ⟨front ++ branchCells parent front.length (.node e us), back, ?_, ?_⟩⟩
  · simp [cells, branchCells]
  · simp [cells, branchCells]
  · simp
  · simp [cells]
  · rw [List.length_append, length_branchCells]

/-- The entries of siblings, once a key. -/
def keyedEntries (ts : List Branch) : List Entry :=
  ts.flatMap fun t => t.keys.map fun _ => t.label.bare

/-- The keys of siblings lead to their entries. -/
theorem Holds.filterMap_keyIds {ts : List Branch} (h : Holds a parent start ts) :
    (keyIds start ts).filterMap (fun kid => a[kid.2]?.map (·.entry)) = keyedEntries ts := by
  induction ts generalizing start with
  | nil => rfl
  | cons t ts ih =>
      obtain ⟨e, us⟩ := t
      obtain ⟨hhead, -, htail⟩ := h.cons
      have hkeys : ∀ keys : List String,
          (keys.map (·, start)).filterMap (fun kid => a[kid.2]?.map (·.entry)) =
            keys.map fun _ => e.bare := by
        intro keys
        induction keys with
        | nil => rfl
        | cons key keys ih => simp [hhead, ih]
      rw [keyIds, List.filterMap_append, ih htail, hkeys]
      rfl

theorem entriesBelow_eq {c : Cell} {us : List Branch} (hcell : a[start]? = some c)
    (hkids : c.children = keyIds (start + 1) us) (h : Holds a start (start + 1) us) :
    entriesBelow a start = keyedEntries us := by
  rw [entriesBelow, hcell]
  show c.children.filterMap _ = _
  rw [hkids, h.filterMap_keyIds]

/-- The child under a key, with what is below it. -/
theorem Holds.lookup_keyIds {ts : List Branch} (h : Holds a parent start ts) (key : String) :
    ((keyIds start ts).lookup key).map (entriesBelow a) =
      (ts.find? (·.keys.contains key)).map fun t => keyedEntries t.children := by
  induction ts generalizing start with
  | nil => rfl
  | cons t ts ih =>
      obtain ⟨e, us⟩ := t
      obtain ⟨hhead, hbelow, htail⟩ := h.cons
      rw [keyIds, List.lookup_append, Place.lookup_map_const, List.find?_cons]
      cases Branch.keys (.node e us) |>.contains key with
      | true => exact congrArg some (entriesBelow_eq hhead rfl hbelow)
      | false => exact ih htail

end

/-! ### Setting the types one by one -/

theorem indexLeaf_indexLeaf (e leaf : Entry) : indexLeaf (indexLeaf e leaf) leaf = indexLeaf e leaf := by
  rw [indexLeaf, indexLeaf]
  by_cases hname : leaf.name = ""
  · rw [if_pos hname, if_pos hname]
  · rw [if_neg hname, if_neg hname]
    simp [Entry.setLeafType, List.filter_append, List.filter_filter]

/-- Once a key comes to the same as once. -/
theorem foldl_keys_indexLeaf (e : Entry) (t : Branch) :
    (t.keys.map fun _ => t.label.bare).foldl indexLeaf e = indexLeaf e t.label.bare := by
  rw [Branch.keys, Entry.keys]
  split
  · exact indexLeaf_indexLeaf e t.label.bare
  · rfl

theorem leafIndex_cons (t : Branch) (ts : List Branch) :
    leafIndex (t :: ts) = leafIndex [t] ++ leafIndex ts := by
  rw [leafIndex, leafIndex, leafIndex, ← List.singleton_append, List.filter_append, List.map_append]

/-- A leaf whose name is not in the index is added to it. -/
theorem indexLeaf_of_new {e : Entry} {t : Branch}
    (hnew : ∀ leaf ∈ e.leafTypes, leaf.1 ≠ t.label.name) :
    indexLeaf e t.label.bare = { e with leafTypes := e.leafTypes ++ leafIndex [t] } := by
  have hname : t.label.bare.name = t.label.name := rfl
  rw [indexLeaf, hname]
  by_cases hempty : t.label.name = ""
  · simp [hempty, leafIndex]
  · have hkept : e.leafTypes.filter (·.1 != t.label.name) = e.leafTypes :=
      List.filter_eq_self.mpr fun leaf hleaf => bne_iff_ne.mpr (hnew leaf hleaf)
    rw [if_neg hempty, Entry.setLeafType, hkept]
    simp [leafIndex, hempty]
    rfl

/-- Leaves with names of their own are added to the index in order. -/
theorem foldl_indexLeaf {ts : List Branch} {e : Entry} (hnodup : (ts.map (·.label.name)).Nodup)
    (hnew : ∀ t ∈ ts, ∀ leaf ∈ e.leafTypes, leaf.1 ≠ t.label.name) :
    (keyedEntries ts).foldl indexLeaf e = { e with leafTypes := e.leafTypes ++ leafIndex ts } := by
  induction ts generalizing e with
  | nil => simp [keyedEntries, leafIndex]
  | cons t ts ih =>
      obtain ⟨hfirst, hnodup⟩ := List.nodup_cons.mp hnodup
      obtain ⟨ht, hts⟩ := List.forall_mem_cons.mp hnew
      have hstill : ∀ u ∈ ts, ∀ leaf ∈ e.leafTypes ++ leafIndex [t], leaf.1 ≠ u.label.name := by
        intro u hu leaf hleaf
        rcases List.mem_append.mp hleaf with hleaf | hleaf
        · exact hts u hu leaf hleaf
        · obtain ⟨w, hw, rfl⟩ := List.mem_map.mp hleaf
          rw [List.mem_singleton.mp (List.mem_of_mem_filter hw)]
          intro hsame
          exact hfirst (List.mem_map.mpr ⟨u, hu, hsame.symm⟩)
      rw [keyedEntries, List.flatMap_cons, List.foldl_append, foldl_keys_indexLeaf,
        indexLeaf_of_new ht]
      rw [keyedEntries] at ih
      rw [ih hnodup hstill, leafIndex_cons t ts, List.append_assoc]

/-! ### The leaf types of a record -/

theorem nodup_names_enrol (parent : String) (offers : List Offer) (taken : List String) :
    ((enrol parent taken offers).value.map (·.label.name)).Nodup := by
  induction offers generalizing taken with
  | nil => exact List.nodup_nil
  | cons o rest ih =>
      cases o with
      | remark n => exact ih taken
      | child b notices =>
          rw [enrol]
          split
          · exact ih taken
          · refine List.nodup_cons.mpr ⟨fun hmem => ?_, ih _⟩
            obtain ⟨c, hc, hname⟩ := List.mem_map.mp hmem
            obtain ⟨hfree, -⟩ := exists_offer_of_mem_enrol parent hc
            refine hfree (List.mem_append_left _ ?_)
            rw [hname]
            exact (b.settle taken).label.name_mem_keys

/-- What is below a child was enrolled too, whatever field has offered the child. -/
theorem nodup_names_children {v : Vocabulary} {repeated : Bool} {name : String}
    {fields : List Field} {b : Branch}
    (h : b ∈ (enrol name [] (fieldsOffers v repeated 0 fields)).value) :
    (b.children.map (·.label.name)).Nodup := by
  obtain ⟨-, own, notices, taken, hfirst, rfl⟩ := exists_offer_of_mem_enrol name h
  obtain ⟨f, i, -, hmem⟩ := exists_fieldOffers_of_find? hfirst
  obtain ⟨parent, hchildren⟩ := exists_children_of_mem_fieldOffers hmem
  rw [Branch.children_settle, hchildren]
  exact nodup_names_enrol parent _ _

theorem nodup_names_leafSource {v : Vocabulary} {bs : List Branch}
    (hnames : (bs.map (·.label.name)).Nodup)
    (hbelow : ∀ b ∈ bs, (b.children.map (·.label.name)).Nodup) :
    ((leafSource v bs).map (·.label.name)).Nodup := by
  rw [leafSource]
  split
  · next list hlist => exact hbelow list (List.mem_of_find?_eq_some hlist)
  · exact hnames

/-- The leaf types that are set in the arena are those of the record. -/
theorem indexLeaves_plant {v : Vocabulary} {a : Arena} {parent : Nat} {e : Entry}
    {bs : List Branch} (he : e.leafTypes = []) (hnames : (bs.map (·.label.name)).Nodup)
    (hbelow : ∀ b ∈ bs, (b.children.map (·.label.name)).Nodup) :
    indexLeaves v (plant a parent [.node e bs]) a.length =
      plant a parent [.node { e with leafTypes := leafIndex (leafSource v bs) } bs] := by
  have hlength : (link a parent (keyIds a.length [.node e bs])).length = a.length :=
    length_link _ _ _
  have hplanted : Holds (plant a parent [.node e bs]) parent a.length [.node e bs] :=
    ⟨_, [], (List.append_nil _).symm, hlength⟩
  obtain ⟨hcell, hinner, -⟩ := hplanted.cons
  have hsource : entriesBelow (plant a parent [.node e bs])
      ((((plant a parent [.node e bs])[a.length]?).bind
        (·.children.lookup v.recordListField)).getD a.length) =
      keyedEntries (leafSource v bs) := by
    have hlist := hinner.lookup_keyIds v.recordListField
    rw [hcell, Option.bind_some, leafSource]
    dsimp only
    cases hlookup : (keyIds (a.length + 1) bs).lookup v.recordListField with
    | none =>
        rw [hlookup, Option.map_none, eq_comm, Option.map_eq_none_iff] at hlist
        rw [hlist, Option.getD_none]
        exact entriesBelow_eq hcell rfl hinner
    | some id =>
        rw [hlookup, Option.map_some, eq_comm, Option.map_eq_some_iff] at hlist
        obtain ⟨list, hfound, hentries⟩ := hlist
        rw [hfound, Option.getD_some]
        exact hentries.symm
  have hfold : (keyedEntries (leafSource v bs)).foldl indexLeaf e.bare =
      { e.bare with leafTypes := leafIndex (leafSource v bs) } := by
    have hempty : e.bare.leafTypes = [] := he
    rw [foldl_indexLeaf (nodup_names_leafSource hnames hbelow) (by simp [hempty]), hempty]
    rfl
  have hmodify := modify_append_cons
    (fun c => { c with entry := (keyedEntries (leafSource v bs)).foldl indexLeaf c.entry })
    ⟨e.bare, some parent, keyIds (a.length + 1) bs⟩
    (cells a.length (a.length + 1) bs) (link a parent (keyIds a.length [.node e bs]))
  rw [hlength] at hmodify
  dsimp only at hmodify
  rw [hfold] at hmodify
  rw [indexLeaves, hsource, plant, cells, branchCells, cells, List.append_nil, hmodify, plant,
    cells, branchCells, cells, List.append_nil]
  rfl

/-- A keyed record, whose leaf types are set when it has been grown. -/
theorem Sows.record {v : Vocabulary} {parent : Nat} {e : Entry} (he : e.numbered = false)
    (htypes : e.leafTypes = []) {grow : Arena → Nat → Arena} {offers : List Offer}
    (hgrow : ∀ parent, Sows (grow · parent) parent offers) {name : String}
    (hbelow : ∀ b ∈ (enrol name [] offers).value, (b.children.map (·.label.name)).Nodup)
    (notices : List Notice) :
    Sows (fun a => match attach? a parent e with
      | none => a
      | some grown => indexLeaves v (grow grown a.length) a.length) parent
      [.child (.node { e with leafTypes := leafIndex (leafSource v (enrol name [] offers).value) }
        (enrol name [] offers).value) notices] := by
  refine .single (fun a htaken => ?_) fun a hlt hfree => ?_
  · have hnone : attach? a parent e = none := attach?_of_taken htaken
    rw [hnone]
  · obtain ⟨grown, hgrown, hplanted⟩ := exists_grown he hgrow name hlt hfree
    have hindexed : indexLeaves v (grow grown a.length) a.length = _ :=
      (congrArg (indexLeaves v · a.length) hplanted).trans
        (indexLeaves_plant htypes (nodup_names_enrol name offers []) hbelow)
    rw [hgrown]
    refine hindexed.trans (congrArg (fun b => plant a parent [b]) ?_)
    have hplain : Entry.numbered { e with
        leafTypes := leafIndex (leafSource v (enrol name [] offers).value) } = false := he
    exact (Branch.settle_of_not_numbered hplain _ _).symm

/-! ## The induction over a description -/

section

variable {v : Vocabulary}

theorem bagOffer_sows (parent : Nat) {base : Entry} (hbase : base.numbered = false)
    (flavor : BagFlavor) (inMap : Bool) (name : String) (enums : List EnumType) :
    Sows (fun a =>
      match attach? a parent { base with declaredType := name, shape := bagShape flavor inMap } with
      | none => a
      | some grown =>
        (enums.filter (v.isMemberEnum ·.name)).foldl
          (fun g e => addEnum g a.length e e.name base.name) grown) parent
      [bagOffer v base flavor inMap name enums] := by
  have hmembers : ∀ parent, Sows (fun a => (enums.filter (v.isMemberEnum ·.name)).foldl
      (fun g e => addEnum g parent e e.name base.name) a) parent
      ((enums.filter (v.isMemberEnum ·.name)).flatMap fun e => enumOffers e e.name base.name) :=
    fun parent => .foldl fun e _ => .enum parent e e.name base.name
  have hbag : Entry.numbered { base with
      declaredType := name, shape := bagShape flavor inMap } = false := hbase
  exact .below hbag hmembers base.name _

mutual
theorem growMessage_sows (parent : Nat) {base : Entry} (hbase : base.numbered = false)
    (htypes : base.leafTypes = []) (repeated inMap : Bool) :
    ∀ m : MessageOf FieldType,
      Sows (growMessage v · parent base repeated inMap m) parent
        [messageOffer v base repeated inMap m]
  | ⟨name, fields, enums⟩ => by
      have hfields := fun parent => growFields_sows parent repeated 0 fields
      have hplain : Entry.numbered { base with declaredType := qualified repeated name } = false :=
        hbase
      have hkeyed : Entry.numbered { base with
          declaredType := qualified repeated name, shape := .keyedRecords } = false := hbase
      simp only [growMessage, messageOffer]
      cases hclass : v.classify ⟨name, fields, enums⟩ with
      | bag flavor => exact bagOffer_sows parent hbase flavor inMap name enums
      | structural => exact .below hplain hfields base.name _
      | keyedRecords =>
          exact .record hkeyed htypes hfields (fun b hb => nodup_names_children hb) _

theorem growFields_sows (parent : Nat) (repeated : Bool) (ordinal : Nat) :
    ∀ fields : List (FieldOf FieldType),
      Sows (growFields v · parent repeated ordinal fields) parent
        (fieldsOffers v repeated ordinal fields)
  | [] => .id parent
  | f :: rest =>
      (growField_sows parent repeated ordinal f).append
        (growFields_sows parent repeated (ordinal + 1) rest)

theorem growField_sows (parent : Nat) (repeated : Bool) (ordinal : Nat) :
    ∀ f : FieldOf FieldType,
      Sows (growField v · parent repeated ordinal f) parent (fieldOffers v repeated ordinal f)
  | ⟨name, _, cardinality, type, comment⟩ => by
      have hplain : (fieldEntry v ordinal name comment).numbered = false := rfl
      have htype := growType_sows parent hplain rfl repeated (cardinality == .repeated) type
      simp only [growField, fieldOffers]
      by_cases hpass : v.isPassthrough name = true
      · simp only [hpass, if_true]
        exact .leaf parent rfl
      · simp only [hpass]
        exact htype

theorem growType_sows (parent : Nat) {base : Entry} (hbase : base.numbered = false)
    (htypes : base.leafTypes = []) (repeated own : Bool) :
    ∀ type : FieldType,
      Sows (growType v · parent base repeated own type) parent
        (typeOffers v base repeated own type)
  | .scalar _ => .leaf parent hbase
  | .enum e => .enum parent e "enum" base.name
  | .message m => growMessage_sows parent hbase htypes (own || repeated) false m
  | .map _ (.message m) => growMessage_sows parent hbase htypes repeated true m
  | .map _ (.scalar _) => .leaf parent hbase
  | .map _ (.enum _) => .leaf parent hbase
  | .map _ (.map _ _) => .remark parent _
  | .map _ .group => .remark parent _
  | .group => .remark parent _
end

end

/-! ## The arena of a tree, and the frame of a field -/

/-- The builder ends up with the cells of the tree. -/
theorem build_eq {v : Vocabulary} {root : String} {type : Message} {t : Tree}
    (built : (Tree.build v root (some type)).value = .ok t) :
    build v root type = t.nodes.map Place.cell := by
  obtain ⟨_, hm, -, rfl⟩ := Tree.build_eq_ok_iff.mp built
  cases hm
  let start : Arena := [⟨{ name := root, declaredType := type.name, ordinal := 0 }, none, []⟩]
  have hsown : build v root type =
      plant start 0 (enrol "" [] (fieldsOffers v false 0 type.fields)).value :=
    growFields_sows 0 false 0 type.fields start Nat.zero_lt_one
  have henrol : (enrol "" [] (fieldsOffers v false 0 type.fields)).value =
      (enrol root [] (fieldsOffers v false 0 type.fields)).value :=
    enrol_congr _ fun _ => Iff.rfl
  rw [hsown, henrol, Tree.nodes, Tree.ofEntries, Tree.rootBranch, Rose.number, Rose.places,
    List.map_cons, map_cell_forestPlaces, Place.cell, childIds_numberForest]
  rfl

theorem exists_fieldOffers_of_holds {v : Vocabulary} {f : Field} {m : Message}
    (hm : f.type.Holds m) (repeated : Bool) (position : Nat) :
    ∃ e ts notices, fieldOffers v repeated position f = [.child (.node e ts) notices] ∧
      e.name = f.name ∧ e.numbered = false := by
  obtain ⟨name, number, cardinality, type, comment⟩ := f
  have hmessage : ∀ repeated inMap, ∃ e ts notices,
      [messageOffer v (fieldEntry v position name comment) repeated inMap m] =
        [.child (.node e ts) notices] ∧ e.name = name ∧ e.numbered = false := by
    intro repeated inMap
    obtain ⟨b, notices, hoffer, hname, hnumbered, -⟩ :=
      exists_messageOffer_eq v (fieldEntry v position name comment) rfl repeated inMap m
    obtain ⟨e, ts⟩ := b
    exact ⟨e, ts, notices, congrArg (fun o => [o]) hoffer, hname, hnumbered⟩
  rw [fieldOffers]
  by_cases hpass : v.isPassthrough name = true
  · rw [if_pos hpass]
    exact ⟨_, _, _, rfl, rfl, rfl⟩
  · rw [if_neg hpass]
    rcases hm with rfl | ⟨key, rfl⟩
    · exact hmessage _ false
    · exact hmessage _ true

/-- The nodes of one arena are in the other as they were, save that one has a further child. -/
structure Extends (a grown : Arena) (parent : Nat) (key : String) : Prop where
  others : ∀ id < a.length, id ≠ parent → grown[id]? = a[id]?
  parent : grown[parent]? =
    a[parent]?.map fun c => { c with children := c.children ++ [(key, a.length)] }

theorem plant_extends {a : Arena} {parent : Nat} (hlt : parent < a.length) {e : Entry}
    (he : e.numbered = false) (ts : List Branch) :
    Extends a (plant a parent [.node e ts]) parent e.name := by
  have hkeys : keyIds a.length [.node e ts] = [(e.name, a.length)] := by
    have hown : Branch.keys (.node e ts) = [e.name] := if_neg (Bool.eq_false_iff.mp he)
    rw [keyIds, hown]
    rfl
  have hlength := length_link a parent [(e.name, a.length)]
  rw [plant, hkeys]
  constructor
  · intro id hid hne
    rw [List.getElem?_append_left (by rwa [hlength]), link,
      List.getElem?_modify_ne _ _ (Ne.symm hne)]
  · rw [List.getElem?_append_left (by rwa [hlength]), link, List.getElem?_modify_eq]
    rfl

/-- Growing a message field does nothing if its name is taken.  Else all nodes stay as they are,
save that the parent of the field has the name of the field for a further key. -/
theorem growField_frame {v : Vocabulary} {f : Field} {m : Message} (hm : f.type.Holds m)
    {a : Arena} {parent : Nat} (hlt : parent < a.length) (repeated : Bool) (ordinal : Nat) :
    if f.name ∈ keysAt a parent then growField v a parent repeated ordinal f = a
    else Extends a (growField v a parent repeated ordinal f) parent f.name := by
  obtain ⟨e, ts, notices, hoffers, hname, hnumbered⟩ :=
    exists_fieldOffers_of_holds (v := v) hm repeated ordinal
  have hsown : growField v a parent repeated ordinal f = _ :=
    growField_sows parent repeated ordinal f a hlt
  have hlabel : (Rose.label (.node e ts)).name = e.name := rfl
  rw [hoffers, enrol, hlabel] at hsown
  rw [hsown, ← hname]
  by_cases htaken : e.name ∈ keysAt a parent
  · rw [if_pos htaken, if_pos (List.contains_iff_mem.mpr htaken)]
    exact plant_nil a parent
  · rw [if_neg htaken, if_neg (mt List.contains_iff_mem.mp htaken)]
    show Extends a (plant a parent [Branch.settle _ (.node e ts)]) parent e.name
    rw [Branch.settle_of_not_numbered hnumbered]
    exact plant_extends hlt hnumbered ts

end Arena

end FieldAtlas
