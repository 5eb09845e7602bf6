import FieldAtlas.Proofs.Path.Printing
import FieldAtlas.Proofs.Text.Replacing

/-!
# `Cutting` — a path cut in front of a dot

Whoever reads a path can cut it in front of a dot.  The tag stands behind the last colon, so it
belongs to what comes behind the cut, unless a colon stands before it (`Path.splitTag_append`).
Markers are counted, and segments read, one piece at a time.

What comes behind plain names is therefore read alike whatever these names are
(`Path.parse_append_iff`).
-/

namespace FieldAtlas

open Text

/-! ## Markers and pieces -/

theorem KeyMarker.count_append (front : String) {more : String} (hmore : DotLed more) :
    count (front ++ more) = count front + count more := by
  rw [count, count, count, String.toList_append]
  rcases hmore with hnil | ⟨rest, hcons⟩
  · rw [hnil, List.append_nil]
    rfl
  · have hdot : countFrom 0 true ('.' :: rest) = 0 + countFrom 0 true rest :=
      countFrom_append_dot rest 0 true [] (Nat.zero_le _)
    rw [hcons, countFrom_append_dot rest 0 true front.toList (Nat.zero_le _), hdot, Nat.zero_add]

theorem splitOn_append_of_ledBy (front : List Char) {more : List Char} (hmore : LedBy '.' more) :
    (front ++ more).splitOn '.' = front.splitOn '.' ++ (more.splitOn '.').tail := by
  rcases hmore with rfl | ⟨rest, rfl⟩
  · rw [List.append_nil, List.splitOn_nil, List.tail_cons, List.append_nil]
  · simp only [List.splitOn_eq_splitOnP]
    rw [List.splitOnP_append_cons _ _ (by rfl)]
    exact congrArg _ (congrArg List.tail
      (List.splitOnP_append_cons (p := (· == '.')) [] rest (by rfl))).symm

/-! ## Names in front -/

namespace Segment

theorem Spells.unique {piece : List Char} {a b : Segment} (ha : Spells piece a)
    (hb : Spells piece b) : a = b := by
  have hread := (read?_eq_some_iff.mpr ha).symm.trans (read?_eq_some_iff.mpr hb)
  exact (Prod.mk.inj (Option.some.inj hread)).1

/-- Printed segments are read as they are, whatever pieces follow. -/
theorem spells_append_iff {first : List Segment} (hfirst : ∀ s ∈ first, s.Readable)
    {pieces : List (List Char)} {segments : List Segment} :
    List.Forall₂ Spells (first.map chars ++ pieces) segments ↔
      ∃ rest, segments = first ++ rest ∧ List.Forall₂ Spells pieces rest := by
  induction first generalizing segments with
  | nil => simp
  | cons s first ih =>
      have hs := spells_chars (hfirst s List.mem_cons_self)
      rw [List.map_cons, List.cons_append, List.forall₂_cons_left_iff]
      constructor
      · rintro ⟨s', more, hs', hmore, rfl⟩
        obtain ⟨rest, rfl, hrest⟩ := (ih fun x hx => hfirst x (List.mem_cons_of_mem _ hx)).mp hmore
        exact ⟨rest, by rw [hs'.unique hs, List.cons_append], hrest⟩
      · rintro ⟨rest, rfl, hrest⟩
        exact ⟨s, first ++ rest, hs,
          (ih fun x hx => hfirst x (List.mem_cons_of_mem _ hx)).mpr ⟨rest, rfl, hrest⟩, rfl⟩

/-- A character of a path stands in one of its segments, or is a dot between two of them. -/
theorem mem_joinChars {c : Char} {segments : List Segment} (h : c ∈ joinChars segments) :
    c = '.' ∨ ∃ s ∈ segments, c ∈ s.chars := by
  cases segments with
  | nil => exact absurd h List.not_mem_nil
  | cons s rest =>
      rw [joinChars_cons, List.mem_append] at h
      rcases h with h | h
      · exact Or.inr ⟨s, List.mem_cons_self, h⟩
      · obtain ⟨next, hnext, h⟩ := List.mem_flatMap.mp h
        rcases List.mem_cons.mp h with h | h
        · exact Or.inl h
        · exact Or.inr ⟨next, List.mem_cons_of_mem _ hnext, h⟩

theorem colon_not_mem_join_fields {names : List String}
    (hnames : ∀ name ∈ names, IsPlainName name) : ':' ∉ (join (names.map .field)).toList := by
  intro h
  rw [join, String.toList_ofList] at h
  rcases mem_joinChars h with h | ⟨s, hs, h⟩
  · exact absurd h (by decide)
  · obtain ⟨name, hname, rfl⟩ := List.mem_map.mp hs
    exact (hnames name hname).no_colon h

end Segment

/-! ## The tag -/

/-- What an optional tag adds to the end of a path. -/
def TypeTag.suffix : Option TypeTag → String
  | none => ""
  | some tag => ":" ++ tag.spelling

namespace Path

/-- The tag is taken off the end, whatever stands in front. -/
theorem splitTag_append {front : String} (hfront : ':' ∉ front.toList) (more : String) :
    splitTag (front ++ more) = (front ++ (splitTag more).1, (splitTag more).2) := by
  unfold splitTag
  cases hmore : splitLast ':' more.toList with
  | none =>
      have hno : splitLast ':' (front ++ more).toList = none := by
        rw [splitLast_eq_none_iff] at hmore ⊢
        rw [String.toList_append, List.mem_append, not_or]
        exact ⟨hfront, hmore⟩
      rw [hno]
  | some halves =>
      obtain ⟨before, after⟩ := halves
      obtain ⟨hcut, hafter⟩ := eq_of_splitLast hmore
      have hlast : splitLast ':' (front ++ more).toList = some (front.toList ++ before, after) := by
        rw [splitLast_eq_some_iff, String.toList_append, hcut, List.append_assoc]
        exact ⟨rfl, hafter⟩
      rw [hlast]
      dsimp only
      cases TypeTag.ofSpelling? (String.ofList after) with
      | none => rfl
      | some tag => simp [String.ofList_append]

/-- A remainder without its tag begins with a dot, or there is none. -/
theorem dotLed_splitTag {rest : String} (hrest : rest = "" ∨ ∃ more, rest = "." ++ more)
    (tag : Option TypeTag) : DotLed (splitTag (rest ++ TypeTag.suffix tag)).1 := by
  have hled : DotLed rest := by
    rcases hrest with rfl | ⟨more, rfl⟩
    · exact Or.inl rfl
    · exact dotLed_dot more
  cases tag with
  | some tag =>
      rw [TypeTag.suffix, ← String.append_assoc, splitTag_tagged]
      exact hled
  | none =>
      rw [TypeTag.suffix, String.append_empty]
      rcases hrest with rfl | ⟨more, rfl⟩
      · exact Or.inl rfl
      · rw [splitTag_append (by decide)]
        exact dotLed_dot _

/-- A path goes on with these segments behind any plain names. -/
structure GoesOn (more : String) (segments : List Segment) : Prop where
  count : KeyMarker.count (splitTag more).1 ≤ 1
  spells : List.Forall₂ Segment.Spells ((splitTag more).1.toList.splitOn '.').tail segments

/-- Behind plain names, a path is read as if they were not there. -/
theorem parse_append_iff {names : List String} (hne : names ≠ [])
    (hnames : ∀ name ∈ names, IsPlainName name) {more : String}
    (hmore : DotLed (splitTag more).1) (path : Path) :
    parse (Segment.join (names.map .field) ++ more) = .ok path ↔
      ∃ rest, GoesOn more rest ∧ path = {
        raw := Segment.join (names.map .field) ++ more
        body := Segment.join (names.map .field) ++ (splitTag more).1
        segments := names.map .field ++ rest
        tag := (splitTag more).2 } := by
  have hprint := Segment.printable_fields hnames
  have hread : ∀ s ∈ names.map Segment.field, s.Readable := fun s hs => (hprint s hs).readable
  have hfirst : names.map Segment.field ≠ [] := by simpa using hne
  have hbody : Segment.join (names.map .field) ++ (splitTag more).1 ≠ "" := by
    intro hempty
    have hnil := congrArg String.toList hempty
    rw [String.toList_append] at hnil
    exact Segment.join_ne_empty hfirst hread
      (String.toList_inj.mp (List.append_eq_nil_iff.mp hnil).1)
  rw [parse_eq_ok_iff (splitTag_append (Segment.colon_not_mem_join_fields hnames) more),
    KeyMarker.count_append _ hmore, Segment.count_join hprint, Segment.countP_fields, Nat.zero_add,
    String.toList_append, splitOn_append_of_ledBy _ hmore, Segment.join, String.toList_ofList,
    Segment.splitOn_joinChars hfirst hread, Segment.spells_append_iff hread]
  constructor
  · rintro ⟨-, hcount, ⟨rest, hsegments, hrest⟩, hraw, hpath, htag⟩
    refine ⟨rest, ⟨hcount, hrest⟩, ?_⟩
    obtain ⟨_, _, _, _⟩ := path
    cases hsegments
    cases hraw
    cases hpath
    cases htag
    rfl
  · rintro ⟨rest, ⟨hcount, hrest⟩, rfl⟩
    exact ⟨hbody, hcount, ⟨rest, rfl, hrest⟩, rfl, rfl, rfl⟩

end Path

end FieldAtlas
