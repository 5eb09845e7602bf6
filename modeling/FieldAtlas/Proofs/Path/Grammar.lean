import FieldAtlas.Path.Basic
import FieldAtlas.Proofs.Path.Counting
import Mathlib.Data.List.Forall2

/-!
# `Grammar` — which texts are paths

The reader takes the pieces between the dots one after another and tries a key before a name.
`Segment.Spells` says the same without a reader: a piece spells a key, if it is `key:` and ASCII
digits for a number in range, or else a name, if it is not empty and holds no colon.

A choice that was made is never taken back, so a number that is too large, or followed by anything,
is not read as a name either.  That costs nothing: such a piece has a colon, and no name has one
(`Segment.read?_eq_some_iff`).

`Path.parse_eq_ok_iff` is what later modules use; `Path.parse_follows_grammar` adds which failure
is reported of a text that is no path.
-/

namespace FieldAtlas

theorem Decimal.readKey?_eq_some_iff {ds : List Char} {n : Nat} :
    readKey? ds = some n ↔ ds ≠ [] ∧ (∀ c ∈ ds, c.isDigit = true) ∧
      Nat.ofDigitChars 10 ds 0 = n ∧ n ≤ maxKey := by
  have hread : (!ds.isEmpty && ds.all Char.isDigit) = true ↔
      ds ≠ [] ∧ ∀ c ∈ ds, c.isDigit = true := by
    rw [Bool.and_eq_true, List.all_eq_true]
    cases ds <;> simp
  simp only [readKey?, read?, Option.filter_eq_some_iff, Option.ite_none_right_eq_some, hread,
    Option.some.injEq, decide_eq_true_eq, and_assoc]

theorem map_eq_ok_iff {ε α β : Type} {f : α → β} {x : Except ε α} {b : β} :
    x.map f = .ok b ↔ ∃ a, x = .ok a ∧ f a = b := by
  cases x <;> simp [Except.map]

/-- What stands between two separators holds none. -/
theorem not_mem_of_mem_splitOn {sep : Char} {piece : List Char} :
    ∀ {s : List Char}, piece ∈ s.splitOn sep → sep ∉ piece
  | [], h => by
      rw [List.splitOn_nil, List.mem_singleton] at h
      rw [h]
      exact List.not_mem_nil
  | c :: s, h => by
      have ih : ∀ {piece : List Char}, piece ∈ s.splitOn sep → sep ∉ piece :=
        not_mem_of_mem_splitOn
      rw [List.splitOn_cons_eq_if_modifyHead] at h
      split at h
      · rcases List.mem_cons.mp h with rfl | h
        · exact List.not_mem_nil
        · exact ih h
      · next hc =>
          cases hs : s.splitOn sep with
          | nil => exact absurd hs (List.splitOn_ne_nil _ _)
          | cons first rest =>
              rw [hs] at h ih
              rcases List.mem_cons.mp h with rfl | h
              · rw [List.mem_cons]
                rintro (rfl | hsep)
                · simp at hc
                · exact ih List.mem_cons_self hsep
              · exact ih (List.mem_cons_of_mem _ h)

theorem exists_forall₂_iff {α β : Type} {R : α → β → Prop} {xs : List α} :
    (∃ ys, List.Forall₂ R xs ys) ↔ ∀ x ∈ xs, ∃ y, R x y := by
  induction xs with
  | nil => simp
  | cons x xs ih =>
      rw [List.forall_mem_cons, ← ih]
      constructor
      · rintro ⟨_, _ | ⟨hy, hys⟩⟩
        exact ⟨⟨_, hy⟩, _, hys⟩
      · rintro ⟨⟨y, hy⟩, ys, hys⟩
        exact ⟨y :: ys, .cons hy hys⟩

namespace Segment

/-! ## One piece -/

/-- What a piece between two dots says. -/
inductive Spells : List Char → Segment → Prop
  | key {ds : List Char} :
      ds ≠ [] → (∀ c ∈ ds, c.isDigit = true) → Nat.ofDigitChars 10 ds 0 ≤ Decimal.maxKey →
      Spells ('k' :: 'e' :: 'y' :: ':' :: ds) (key (Nat.ofDigitChars 10 ds 0))
  | field {name : String} : name ≠ "" → ':' ∉ name.toList → Spells name.toList (field name)

theorem readKey?_eq_none_of_colon {piece : List Char} (h : ':' ∉ piece) :
    readKey? piece = none := by
  unfold readKey?
  split
  · simp at h
  · rfl

theorem readName?_eq {piece : List Char} (hne : piece ≠ []) (h : ':' ∉ piece) :
    readName? piece = some (field (String.ofList piece), []) := by
  have hall : ∀ c ∈ piece, (c != ':') = true := by
    intro c hc
    rw [bne_iff_ne]
    rintro rfl
    exact h hc
  rw [readName?, List.takeWhile_eq_self_iff.mpr hall, List.dropWhile_eq_nil_iff.mpr hall]
  cases piece with
  | nil => exact absurd rfl hne
  | cons c rest => rfl

theorem spells_of_readKey? {piece : List Char} {s : Segment}
    (h : readKey? piece = some (s, [])) : Spells piece s := by
  unfold readKey? at h
  split at h
  · next ds =>
      simp only [Option.map_eq_some_iff, Prod.mk.injEq] at h
      obtain ⟨n, hn, rfl, hdrop⟩ := h
      rw [List.takeWhile_eq_self_iff.mpr (List.dropWhile_eq_nil_iff.mp hdrop)] at hn
      obtain ⟨hne, hdigits, rfl, hle⟩ := Decimal.readKey?_eq_some_iff.mp hn
      exact .key hne hdigits hle
  · cases h

theorem spells_of_readName? {piece : List Char} {s : Segment}
    (h : readName? piece = some (s, [])) : Spells piece s := by
  unfold readName? at h
  split at h
  · cases h
  · next c name htake =>
      simp only [Option.some.injEq, Prod.mk.injEq] at h
      obtain ⟨rfl, hdrop⟩ := h
      have hall := List.dropWhile_eq_nil_iff.mp hdrop
      rw [List.takeWhile_eq_self_iff.mpr hall] at htake
      have hpiece : piece = (String.ofList (c :: name)).toList := by
        rw [String.toList_ofList, htake]
      rw [hpiece] at hall ⊢
      refine .field (fun hempty => ?_) fun hcolon => by simpa using hall ':' hcolon
      have := congrArg String.toList hempty
      simp at this

/-- A piece is read to its end exactly if it spells something, and then as what it spells. -/
theorem read?_eq_some_iff {piece : List Char} {s : Segment} :
    read? piece = some (s, []) ↔ Spells piece s := by
  constructor
  · intro h
    rw [read?] at h
    cases hkey : readKey? piece with
    | some found =>
        rw [hkey] at h
        cases h
        exact spells_of_readKey? hkey
    | none =>
        rw [hkey] at h
        exact spells_of_readName? h
  · rintro (⟨hne, hdigits, hle⟩ | ⟨hne, hcolon⟩)
    · have hread := Decimal.readKey?_eq_some_iff.mpr ⟨hne, hdigits, rfl, hle⟩
      rw [read?, readKey?, List.takeWhile_eq_self_iff.mpr hdigits,
        List.dropWhile_eq_nil_iff.mpr hdigits, hread]
      rfl
    · rw [read?, readKey?_eq_none_of_colon hcolon,
        readName?_eq (fun hnil => hne (String.toList_eq_nil_iff.mp hnil)) hcolon,
        String.ofList_toList]
      rfl

/-- A segment as the reader may hand it over: a name can hold a marker. -/
def Readable : Segment → Prop
  | field name => name ≠ "" ∧ '.' ∉ name.toList ∧ ':' ∉ name.toList
  | key n => n ≤ Decimal.maxKey

theorem Spells.readable {piece : List Char} {s : Segment} (h : Spells piece s)
    (hdot : '.' ∉ piece) : s.Readable := by
  cases h with
  | key _ _ hle => exact hle
  | field hne hcolon => exact ⟨hne, hdot, hcolon⟩

/-- A piece that spells a key is one marker. -/
theorem Spells.countFrom_key {piece : List Char} {n : Nat} (h : Spells piece (.key n)) :
    KeyMarker.countFrom 0 true piece = 1 := by
  cases h with
  | key hne hdigits _ => exact KeyMarker.countFrom_key hne hdigits

/-! ## All pieces -/

section

variable {pieces : List (List Char)} {segments : List Segment}

/-- Reading succeeds if every piece is read to its end. -/
theorem readPieces_eq_ok_iff {lead : List Char} :
    readPieces lead pieces = .ok segments ↔ List.Forall₂ Spells pieces segments := by
  induction pieces generalizing lead segments with
  | nil => cases segments <;> simp [readPieces]
  | cons piece rest ih =>
      rw [readPieces]
      constructor
      · intro h
        split at h
        · cases h
        · next first hread =>
            obtain ⟨more, hmore, rfl⟩ := map_eq_ok_iff.mp h
            exact .cons (read?_eq_some_iff.mp hread) (ih.mp hmore)
        · cases h
      · intro h
        cases h with
        | cons hspells hrest =>
            simp only [read?_eq_some_iff.mpr hspells]
            exact map_eq_ok_iff.mpr ⟨_, ih.mpr hrest, rfl⟩

theorem readable_of_pieces (h : List.Forall₂ Spells pieces segments)
    (hdot : ∀ piece ∈ pieces, '.' ∉ piece) : ∀ s ∈ segments, s.Readable := by
  induction h with
  | nil => exact nofun
  | cons hspells _ ih =>
      intro s hs
      rcases List.mem_cons.mp hs with rfl | hs
      · exact hspells.readable (hdot _ List.mem_cons_self)
      · exact ih (fun piece hpiece => hdot piece (List.mem_cons_of_mem _ hpiece)) s hs

theorem countP_le_countPieces (h : List.Forall₂ Spells pieces segments) :
    segments.countP (·.key?.isSome) ≤ KeyMarker.countPieces pieces := by
  induction h with
  | nil => exact Nat.le_refl 0
  | @cons piece s pieces segments hspells _ ih =>
      rw [KeyMarker.countPieces, List.countP_cons]
      cases s with
      | field name =>
          rw [if_neg (by simp [key?])]
          omega
      | key n =>
          have hone := hspells.countFrom_key
          rw [if_pos (by rfl)]
          omega

end

end Segment

namespace Path

variable {raw body name : String} {tag : Option TypeTag} {path : Path} {rest : List Segment}

/-! ## Whole paths -/

theorem parse_of_empty (hsplit : splitTag raw = (body, tag)) (hempty : body = "") :
    parse raw = .error .emptyPath := by
  simp only [parse, hsplit, hempty]
  rfl

theorem parse_of_markers (hsplit : splitTag raw = (body, tag)) (hne : body ≠ "")
    (hcount : 1 < KeyMarker.count body) :
    parse raw = .error (.manyKeys raw (KeyMarker.count body)) := by
  simp [parse, hsplit, hne, hcount]

/-- With no more than one marker, it is the pieces that matter. -/
theorem parse_of_pieces (hsplit : splitTag raw = (body, tag)) (hne : body ≠ "")
    (hcount : KeyMarker.count body ≤ 1) :
    parse raw = match Segment.readPieces [] (body.toList.splitOn '.') with
      | .ok segments => .ok ⟨raw, body, segments, tag⟩
      | .error unread => .error (.malformed raw (String.ofList unread)) := by
  have hfew : ¬ KeyMarker.count body > 1 := Nat.not_lt.mpr hcount
  simp only [parse, hsplit, String.isEmpty_iff]
  exact (if_neg hne).trans (if_neg hfew)

/-- A path is read if it is not empty, holds one key marker at most, and every piece spells
something. -/
theorem parse_eq_ok_iff (hsplit : splitTag raw = (body, tag)) :
    parse raw = .ok path ↔ body ≠ "" ∧ KeyMarker.count body ≤ 1 ∧
      List.Forall₂ Segment.Spells (body.toList.splitOn '.') path.segments ∧
      path.raw = raw ∧ path.body = body ∧ path.tag = tag := by
  by_cases hne : body = ""
  · simp [parse_of_empty hsplit hne, hne]
  by_cases hcount : KeyMarker.count body ≤ 1
  swap
  · simp [parse_of_markers hsplit hne (Nat.lt_of_not_le hcount), hcount]
  rw [parse_of_pieces hsplit hne hcount]
  constructor
  · intro h
    split at h
    · next segments hread =>
        cases h
        exact ⟨hne, hcount, Segment.readPieces_eq_ok_iff.mp hread, rfl, rfl, rfl⟩
    · cases h
  · rintro ⟨-, -, hspells, hraw, hbody, htag⟩
    rw [Segment.readPieces_eq_ok_iff.mpr hspells]
    obtain ⟨_, _, segments, _⟩ := path
    cases hraw
    cases hbody
    cases htag
    rfl

/-- What a path that is read says about itself. -/
theorem parse_eq_ok (h : parse raw = .ok path) :
    KeyMarker.count path.body ≤ 1 ∧
      List.Forall₂ Segment.Spells (path.body.toList.splitOn '.') path.segments := by
  obtain ⟨-, hcount, hspells, -, hbody, -⟩ := (parse_eq_ok_iff rfl).mp h
  rw [hbody]
  exact ⟨hcount, hspells⟩

theorem readable_segments (h : parse raw = .ok path) : ∀ s ∈ path.segments, s.Readable :=
  Segment.readable_of_pieces (parse_eq_ok h).2 fun _ => not_mem_of_mem_splitOn

theorem body_of_parse (h : parse raw = .ok path) : path.body = (splitTag raw).1 :=
  ((parse_eq_ok_iff rfl).mp h).2.2.2.2.1

/-- The keys of a path are among the markers of its body. -/
theorem countP_segments_le_count (h : parse raw = .ok path) :
    path.segments.countP (·.key?.isSome) ≤ KeyMarker.count path.body := by
  have hle := Segment.countP_le_countPieces (parse_eq_ok h).2
  rwa [← KeyMarker.countFrom_intercalate, List.intercalate_splitOn] at hle

/-- A path that is read holds one key at most. -/
theorem countP_segments_le_one (h : parse raw = .ok path) :
    path.segments.countP (·.key?.isSome) ≤ 1 :=
  Nat.le_trans (countP_segments_le_count h) (parse_eq_ok h).1

/-- Behind the name of the start, what is read can be read and holds one key at most. -/
theorem rest_of_parse (h : parse raw = .ok path) (hsegments : path.segments = .field name :: rest) :
    (∀ s ∈ rest, s.Readable) ∧ rest.countP (·.key?.isSome) ≤ 1 := by
  have hread := readable_segments h
  have hkeys := countP_segments_le_one h
  rw [hsegments] at hread hkeys
  rw [List.countP_cons_of_neg (by simp [Segment.key?])] at hkeys
  exact ⟨fun s hs => hread s (List.mem_cons_of_mem _ hs), hkeys⟩

/-- A text is read exactly if its body follows the grammar and holds one key marker at most; its
segments are then what the pieces spell, in order.  Of the faults of a body, that it is empty comes
first and that it holds too many markers second. -/
theorem parse_follows_grammar (hsplit : splitTag raw = (body, tag)) :
    (parse raw = .error .emptyPath ↔ body = "") ∧
    (parse raw = .error (.manyKeys raw (KeyMarker.count body)) ↔
      body ≠ "" ∧ 1 < KeyMarker.count body) ∧
    ((∃ path, parse raw = .ok path) ↔ body ≠ "" ∧ KeyMarker.count body ≤ 1 ∧
      ∀ piece ∈ body.toList.splitOn '.', ∃ s, Segment.Spells piece s) ∧
    ((∃ unread, parse raw = .error (.malformed raw unread)) ↔
      body ≠ "" ∧ KeyMarker.count body ≤ 1 ∧
        ∃ piece ∈ body.toList.splitOn '.', ∀ s, ¬ Segment.Spells piece s) ∧
    ∀ path, parse raw = .ok path →
      List.Forall₂ Segment.Spells (body.toList.splitOn '.') path.segments ∧
        path.raw = raw ∧ path.body = body ∧ path.tag = tag := by
  have hread : ∀ path, parse raw = .ok path →
      List.Forall₂ Segment.Spells (body.toList.splitOn '.') path.segments ∧
        path.raw = raw ∧ path.body = body ∧ path.tag = tag := fun path hparse =>
    ((parse_eq_ok_iff hsplit).mp hparse).2.2
  by_cases hne : body = ""
  · simp [parse_of_empty hsplit hne, hne]
  by_cases hcount : KeyMarker.count body ≤ 1
  swap
  · have hmany : 1 < KeyMarker.count body := Nat.lt_of_not_le hcount
    simp [parse_of_markers hsplit hne hmany, hne, hcount, hmany]
  have hfew : ¬ 1 < KeyMarker.count body := Nat.not_lt.mpr hcount
  by_cases hpieces : ∀ piece ∈ body.toList.splitOn '.', ∃ s, Segment.Spells piece s
  · obtain ⟨segments, hspells⟩ := exists_forall₂_iff.mpr hpieces
    have hok : parse raw = .ok ⟨raw, body, segments, tag⟩ :=
      (parse_eq_ok_iff hsplit).mpr ⟨hne, hcount, hspells, rfl, rfl, rfl⟩
    refine ⟨by simp [hok, hne], by simp [hok, hfew], ?_, ?_, hread⟩
    · exact iff_of_true ⟨_, hok⟩ ⟨hne, hcount, hpieces⟩
    · refine iff_of_false (by simp [hok]) ?_
      rintro ⟨-, -, piece, hpiece, hnone⟩
      obtain ⟨s, hs⟩ := hpieces piece hpiece
      exact hnone s hs
  · obtain ⟨unread, hfail⟩ : ∃ unread, parse raw = .error (.malformed raw unread) := by
      rw [parse_of_pieces hsplit hne hcount]
      split
      · next segments hsegments =>
          have hspells := Segment.readPieces_eq_ok_iff.mp hsegments
          exact absurd (exists_forall₂_iff.mp ⟨_, hspells⟩) hpieces
      · exact ⟨_, rfl⟩
    refine ⟨by simp [hfail, hne], by simp [hfail, hfew], ?_, ?_, hread⟩
    · exact iff_of_false (by simp [hfail]) fun h => hpieces h.2.2
    · refine iff_of_true ⟨_, hfail⟩ ⟨hne, hcount, ?_⟩
      simpa using hpieces

/-- A key with zeros in front of it and a tag behind it. -/
theorem parse_follows_grammar_key :
    splitTag "log.history.key:007:int64" = ("log.history.key:007", some .int64) ∧
      ∃ path, parse "log.history.key:007:int64" = .ok path ∧
        List.Forall₂ Segment.Spells ["log".toList, "history".toList, "key:007".toList]
          path.segments ∧
        path.body = "log.history.key:007" ∧ path.tag = some .int64 := by
  have hsplit : splitTag "log.history.key:007:int64" = ("log.history.key:007", some .int64) := by
    decide +kernel
  have hpieces : "log.history.key:007".toList.splitOn '.' =
      ["log".toList, "history".toList, 'k' :: 'e' :: 'y' :: ':' :: ['0', '0', '7']] := by
    decide +kernel
  obtain ⟨-, -, hok, -, hread⟩ := parse_follows_grammar hsplit
  rw [hpieces] at hok hread
  obtain ⟨path, hpath⟩ := hok.mpr ⟨by decide, by decide +kernel, by
    simp only [List.forall_mem_cons, List.not_mem_nil, false_imp_iff, implies_true, and_true]
    exact ⟨⟨_, .field (by decide) (by decide)⟩, ⟨_, .field (by decide) (by decide)⟩,
      ⟨_, .key (by decide) (List.all_eq_true.mp rfl) (by decide)⟩⟩⟩
  obtain ⟨hspells, -, hbody, htag⟩ := hread path hpath
  exact ⟨hsplit, path, hpath, hspells, hbody, htag⟩

end Path

end FieldAtlas
