import FieldAtlas.Proofs.Path.Grammar

/-!
# `Printing` — what a path prints and what it reads

Segments and text are compared in both directions.

* Printed segments are read back (`Path.parse_join`), as long as every name in them is one that
  a path can spell, every key is in range, and the print holds one marker at most.
* What is read, printed again, is the text that was read, apart from the zeros in front of its key
  (`Path.join_segments`).  There nothing has to be assumed: the reader has checked it.

A tag behind the segments stands in nobody's way.  It is looked for behind the last colon, and what
follows a colon in printed segments is a digit, with which no tag begins (`ColonsOpenKeys`).
`Path.parse_print` puts the two directions together.
-/

namespace FieldAtlas

/-! ## The zeros in front of a key -/

namespace Decimal

/-- Drops the zeros in front of a number, but never its last digit. -/
def trim : List Char → List Char
  | '0' :: c :: rest => trim (c :: rest)
  | ds => ds

theorem readKey?_digits {n : Nat} (hn : n ≤ maxKey) : readKey? (digits n) = some n := by
  rw [readKey?, read?_digits, Option.filter_some, if_pos (by simpa using hn)]

theorem digitChar_of_isDigit {c : Char} (hc : c.isDigit = true) :
    (c.toNat - 48).digitChar = c ∧ c.toNat - 48 < 10 := by
  obtain ⟨hlo, hhi⟩ := Char.isDigit_iff_toNat.mp hc
  have hlo : 48 ≤ c.toNat := hlo
  have hhi : c.toNat ≤ 57 := hhi
  have hlt : c.toNat - 48 < 10 := by omega
  have hval := Nat.toNat_digitChar_sub_48_of_lt_ten hlt
  have hdigit : (c.toNat - 48).digitChar.isDigit = true := by
    rw [Nat.isDigit_digitChar, decide_eq_true hlt]
  have hpos : 48 ≤ (c.toNat - 48).digitChar.toNat := (Char.isDigit_iff_toNat.mp hdigit).1
  refine ⟨Char.toNat_inj.mp ?_, hlt⟩
  omega

/-- Further digits are read and printed as they stand, once there is something in front. -/
theorem digits_append {ds : List Char} (hds : ∀ c ∈ ds, c.isDigit = true) :
    ∀ {n : Nat}, 0 < n → digits n ++ ds = digits (Nat.ofDigitChars 10 ds n) := by
  induction ds with
  | nil =>
      intro n _
      rw [List.append_nil, Nat.ofDigitChars_nil]
  | cons c rest ih =>
      intro n hn
      obtain ⟨hchar, hlt⟩ := digitChar_of_isDigit (hds c List.mem_cons_self)
      have hstep : digits n ++ [c] = digits (10 * n + (c.toNat - 48)) := by
        have := Nat.toDigits_append_toDigits (b := 10) (by decide) hn hlt
        rwa [Nat.toDigits_of_lt_base hlt, hchar] at this
      have hpos : 0 < 10 * n + (c.toNat - 48) := by omega
      calc
        digits n ++ c :: rest = (digits n ++ [c]) ++ rest := by simp
        _ = digits (10 * n + (c.toNat - 48)) ++ rest := by rw [hstep]
        _ = digits (Nat.ofDigitChars 10 (c :: rest) n) := by
            rw [ih (fun x hx => hds x (List.mem_cons_of_mem c hx)) hpos, Nat.ofDigitChars_cons]
            rfl

/-- A number is printed as it was read, apart from the zeros in front. -/
theorem digits_ofDigitChars :
    ∀ {ds : List Char}, ds ≠ [] → (∀ c ∈ ds, c.isDigit = true) →
      digits (Nat.ofDigitChars 10 ds 0) = trim ds := by
  intro ds
  fun_induction trim ds with
  | case1 c rest ih =>
      intro _ hds
      rw [← ih (List.cons_ne_nil c rest) fun x hx => hds x (List.mem_cons_of_mem _ hx),
        Nat.ofDigitChars_cons]
      rfl
  | case2 ds hzero =>
      intro hne hds
      match ds with
      | [] => exact absurd rfl hne
      | c :: rest =>
          obtain ⟨hchar, hlt⟩ := digitChar_of_isDigit (hds c List.mem_cons_self)
          have hone : digits (c.toNat - 48) = [c] := by
            rw [digits, Nat.toDigits_of_lt_base hlt, hchar]
          rw [Nat.ofDigitChars_cons, Nat.mul_zero, Nat.zero_add]
          match rest with
          | [] => exact hone
          | d :: more =>
              have hpos : 0 < c.toNat - 48 := by
                rcases Nat.eq_zero_or_pos (c.toNat - 48) with h | h
                · rw [h] at hchar
                  exact absurd (hchar ▸ rfl) (hzero d more)
                · exact h
              have happend := digits_append (fun x hx => hds x (List.mem_cons_of_mem c hx)) hpos
              rw [hone] at happend
              exact happend.symm

/-- The digits of a number stand for it. -/
theorem ofDigitChars_digits (n : Nat) : Nat.ofDigitChars 10 (digits n) 0 = n :=
  Nat.ofDigitChars_toDigits (by decide) (by decide)

end Decimal

/-! ## Names and segments -/

/-- A name that a path can spell, and that brings no key marker of its own. -/
structure IsPlainName (name : String) : Prop where
  ne_empty : name ≠ ""
  no_dot : '.' ∉ name.toList
  no_colon : ':' ∉ name.toList
  no_marker : KeyMarker.count name = 0

instance : DecidablePred IsPlainName := fun name =>
  decidable_of_iff
    (name ≠ "" ∧ '.' ∉ name.toList ∧ ':' ∉ name.toList ∧ KeyMarker.count name = 0)
    ⟨fun ⟨hempty, hdot, hcolon, hmarker⟩ => ⟨hempty, hdot, hcolon, hmarker⟩,
      fun h => ⟨h.ne_empty, h.no_dot, h.no_colon, h.no_marker⟩⟩

/-- Letters, digits and underscores, and no digit at the start. -/
def isIdentifier (name : String) : Bool :=
  match name.toList with
  | [] => false
  | c :: rest => (c.isAlpha || c == '_') && rest.all fun d => d.isAlphanum || d == '_'

theorem IsPlainName.of_isIdentifier {name : String} (h : isIdentifier name = true)
    (hcount : KeyMarker.count name = 0) : IsPlainName name := by
  have hchars : ∀ c ∈ name.toList, (c.isAlphanum || c == '_') = true := by
    unfold isIdentifier at h
    split at h
    · cases h
    · next c rest hname =>
        obtain ⟨hfirst, hrest⟩ := Bool.and_eq_true_iff.mp h
        rw [hname]
        refine List.forall_mem_cons.mpr ⟨?_, List.all_eq_true.mp hrest⟩
        rcases Bool.or_eq_true_iff.mp hfirst with halpha | hunder
        · rw [Char.isAlphanum, halpha]
          rfl
        · rw [hunder, Bool.or_true]
  refine ⟨?_, fun hdot => ?_, fun hcolon => ?_, hcount⟩
  · rintro rfl
    cases h
  · exact absurd (hchars '.' hdot) (by decide)
  · exact absurd (hchars ':' hcolon) (by decide)

namespace Segment

/-- What segments add to a path that goes on with them. -/
def tailChars (segments : List Segment) : List Char := segments.flatMap ('.' :: chars ·)

theorem joinChars_cons :
    ∀ (s : Segment) (rest : List Segment), joinChars (s :: rest) = s.chars ++ tailChars rest
  | s, [] => by simp [joinChars, tailChars]
  | s, next :: rest => by
      have hrest := joinChars_cons next rest
      rw [joinChars] at hrest
      rw [joinChars, List.map_cons, List.map_cons, List.intercalate_cons_cons, ← List.map_cons,
        hrest, List.append_assoc]
      rfl

def tail (segments : List Segment) : String := String.ofList (tailChars segments)

theorem tailChars_append (first last : List Segment) :
    tailChars (first ++ last) = tailChars first ++ tailChars last :=
  List.flatMap_append

theorem tail_append (first last : List Segment) :
    tail (first ++ last) = tail first ++ tail last := by
  rw [tail, tailChars_append, String.ofList_append]
  rfl

theorem tail_field (name : String) : tail [.field name] = "." ++ name := by
  simp [tail, tailChars, chars]

theorem tail_key (n : Nat) : tail [.key n] = ".key:" ++ Decimal.text n := by
  have hchars : Decimal.text n = String.ofList (Decimal.digits n) := rfl
  rw [hchars, ← String.toList_inj]
  simp [tail, tailChars, chars]

theorem join_field (name : String) : join [field name] = name := by
  simp [join, joinChars, chars]

/-- A path that goes on is the path so far and what is added to it. -/
theorem join_append {first : List Segment} (hne : first ≠ []) (last : List Segment) :
    join (first ++ last) = join first ++ tail last := by
  cases first with
  | nil => exact absurd rfl hne
  | cons s rest =>
      rw [join, List.cons_append, joinChars_cons, tailChars_append, ← List.append_assoc,
        ← joinChars_cons, String.ofList_append]
      rfl

theorem join_concat_key {segments : List Segment} (hne : segments ≠ []) (n : Nat) :
    join (segments ++ [key n]) = join segments ++ ".key:" ++ Decimal.text n := by
  rw [join_append hne, tail_key, String.append_assoc]

/-- A segment that is read as it is printed, and that brings no marker but that of its key. -/
def Printable : Segment → Prop
  | field name => IsPlainName name
  | key n => n ≤ Decimal.maxKey

theorem Printable.readable {s : Segment} (h : s.Printable) : s.Readable := by
  cases s with
  | field name =>
      have hname : IsPlainName name := h
      exact ⟨hname.ne_empty, hname.no_dot, hname.no_colon⟩
  | key n => exact h

theorem printable_fields {names : List String} (h : ∀ name ∈ names, IsPlainName name) :
    ∀ s ∈ names.map field, s.Printable := by
  intro s hs
  obtain ⟨name, hname, rfl⟩ := List.mem_map.mp hs
  exact h name hname

theorem countP_fields (names : List String) :
    (names.map field).countP (·.key?.isSome) = 0 := by
  simp [List.countP_map, Function.comp_def, key?]

/-- What is printed for a segment spells that segment. -/
theorem spells_chars {s : Segment} (h : s.Readable) : Spells s.chars s := by
  cases s with
  | field name => exact .field h.1 h.2.2
  | key n =>
      have hle : n ≤ Decimal.maxKey := h
      have hkey := Spells.key (Decimal.digits_ne_nil n)
        (fun _ => Decimal.isDigit_of_mem_digits) (by rwa [Decimal.ofDigitChars_digits])
      rwa [Decimal.ofDigitChars_digits] at hkey

theorem chars_ne_nil {s : Segment} (h : s.Readable) : s.chars ≠ [] := by
  cases s with
  | field name => exact fun hnil => h.1 (String.toList_eq_nil_iff.mp hnil)
  | key n => exact List.cons_ne_nil _ _

theorem dot_not_mem_chars {s : Segment} (h : s.Readable) : '.' ∉ s.chars := by
  cases s with
  | field name => exact h.2.1
  | key n =>
      intro hdot
      simp only [chars, List.mem_cons, Char.reduceEq, false_or] at hdot
      exact absurd (Decimal.isDigit_of_mem_digits hdot) (by decide)

section

variable {segments : List Segment}

/-- The pieces of printed segments are what is printed for each. -/
theorem splitOn_joinChars (hne : segments ≠ []) (h : ∀ s ∈ segments, s.Readable) :
    (joinChars segments).splitOn '.' = segments.map chars := by
  refine List.splitOn_intercalate '.' ?_ (by simpa using hne)
  intro piece hpiece
  obtain ⟨s, hs, rfl⟩ := List.mem_map.mp hpiece
  exact dot_not_mem_chars (h s hs)

theorem spells_joinChars (hne : segments ≠ []) (h : ∀ s ∈ segments, s.Readable) :
    List.Forall₂ Spells ((joinChars segments).splitOn '.') segments := by
  rw [splitOn_joinChars hne h, List.forall₂_map_left_iff]
  exact List.forall₂_same.mpr fun s hs => spells_chars (h s hs)

theorem join_ne_empty (hne : segments ≠ []) (h : ∀ s ∈ segments, s.Readable) :
    join segments ≠ "" := by
  cases segments with
  | nil => exact absurd rfl hne
  | cons s rest =>
      intro hempty
      have hnil := congrArg String.toList hempty
      rw [join, String.toList_ofList, joinChars_cons] at hnil
      exact chars_ne_nil (h s List.mem_cons_self) (List.append_eq_nil_iff.mp hnil).1

/-! ## Counting keys -/

theorem count_join_eq : KeyMarker.count (join segments) =
    KeyMarker.countPieces (segments.map chars) := by
  rw [KeyMarker.count, join, String.toList_ofList, joinChars, KeyMarker.countFrom_intercalate]

/-- A key is one marker, and a plain name is none. -/
theorem countFrom_chars {s : Segment} (h : s.Printable) :
    KeyMarker.countFrom 0 true s.chars = if s.key?.isSome then 1 else 0 := by
  cases s with
  | field name =>
      have hname : IsPlainName name := h
      exact hname.no_marker
  | key n => exact (spells_chars h.readable).countFrom_key

theorem count_join (h : ∀ s ∈ segments, s.Printable) :
    KeyMarker.count (join segments) = segments.countP (·.key?.isSome) := by
  rw [count_join_eq]
  induction segments with
  | nil => rfl
  | cons s rest ih =>
      have hs := countFrom_chars (h s List.mem_cons_self)
      have hrest := ih fun x hx => h x (List.mem_cons_of_mem _ hx)
      rw [List.map_cons, KeyMarker.countPieces, hrest, List.countP_cons, hs, Nat.add_comm]

/-- Printing again changes no count: zeros in front of a key do not make it another marker. -/
theorem countPieces_chars {pieces : List (List Char)} (h : List.Forall₂ Spells pieces segments) :
    KeyMarker.countPieces (segments.map chars) = KeyMarker.countPieces pieces := by
  induction h with
  | nil => rfl
  | @cons piece s _ _ hspells _ ih =>
      have hs : KeyMarker.countFrom 0 true s.chars = KeyMarker.countFrom 0 true piece := by
        cases hspells with
        | field => rfl
        | key hne hdigits hle =>
            rw [(Spells.key hne hdigits hle).countFrom_key]
            exact (spells_chars (s := .key _) hle).countFrom_key
      rw [List.map_cons, KeyMarker.countPieces, KeyMarker.countPieces, hs, ih]

/-- Where a key is the only marker, the names have none. -/
theorem printable_of_key {k : Nat} (hread : ∀ s ∈ segments, s.Readable)
    (hcount : KeyMarker.count (join segments) ≤ 1) (hkey : .key k ∈ segments) :
    ∀ s ∈ segments, s.Printable := by
  obtain ⟨front, back, rfl⟩ := List.append_of_mem hkey
  have hone := (spells_chars (hread _ hkey)).countFrom_key
  rw [count_join_eq, List.map_append, List.map_cons, KeyMarker.countPieces_append,
    KeyMarker.countPieces, hone] at hcount
  have hplain : ∀ {part : List Segment}, KeyMarker.countPieces (part.map chars) = 0 →
      (∀ s ∈ part, s.Readable) → ∀ s ∈ part, s.Printable := by
    intro part hnone hpart s hs
    cases s with
    | key n => exact hpart _ hs
    | field name =>
        obtain ⟨hne, hdot, hcolon⟩ := hpart _ hs
        exact ⟨hne, hdot, hcolon,
          KeyMarker.countFrom_of_countPieces hnone (List.mem_map_of_mem hs)⟩
  rw [List.forall_mem_append, List.forall_mem_cons] at hread ⊢
  obtain ⟨hfront, hk, hback⟩ := hread
  exact ⟨hplain (by omega) hfront, hk, hplain (by omega) hback⟩

end

/-! ## Printing without the key's zeros -/

/-- A piece as it is printed again: a key without the zeros in front, all else as it is. -/
def trimPiece : List Char → List Char
  | 'k' :: 'e' :: 'y' :: ':' :: ds => 'k' :: 'e' :: 'y' :: ':' :: Decimal.trim ds
  | piece => piece

theorem trimPiece_of_colon {piece : List Char} (h : ':' ∉ piece) : trimPiece piece = piece := by
  unfold trimPiece
  split
  · simp at h
  · rfl

theorem Spells.chars_eq {piece : List Char} {s : Segment} (h : Spells piece s) :
    s.chars = trimPiece piece := by
  cases h with
  | field _ hcolon => exact (trimPiece_of_colon hcolon).symm
  | key hne hdigits _ =>
      rw [chars, Decimal.digits_ofDigitChars hne hdigits]
      rfl

/-- Pieces that are no keys are printed as they are. -/
theorem map_chars_of_no_key {pieces : List (List Char)} {segments : List Segment}
    (h : List.Forall₂ Spells pieces segments) (hkey : ∀ s ∈ segments, s.key? = none) :
    segments.map chars = pieces := by
  induction h with
  | nil => rfl
  | @cons piece s pieces segments hspells _ ih =>
      have hpiece : s.chars = piece := by
        cases hspells with
        | field => rfl
        | key => exact absurd (hkey _ List.mem_cons_self) (by simp [key?])
      rw [List.map_cons, hpiece, ih fun x hx => hkey x (List.mem_cons_of_mem s hx)]

end Segment

/-! ## Tags -/

/-- Wherever a colon stands, a digit follows, as is the case in keys. -/
def ColonsOpenKeys (s : List Char) : Prop :=
  ∀ before after, s = before ++ ':' :: after → ∃ c rest, after = c :: rest ∧ c.isDigit = true

namespace ColonsOpenKeys

theorem of_no_colon {s : List Char} (h : ':' ∉ s) : ColonsOpenKeys s := by
  rintro before after rfl
  simp at h

theorem append {s t : List Char} (hs : ColonsOpenKeys s) (ht : ColonsOpenKeys t) :
    ColonsOpenKeys (s ++ t) := by
  intro before after h
  rcases List.append_eq_append_iff.mp h with ⟨middle, -, ht'⟩ | ⟨middle, hs', hmiddle⟩
  · exact ht middle after ht'
  · cases middle with
    | nil => exact ht [] after hmiddle.symm
    | cons c middle =>
        rw [List.cons_append, List.cons.injEq] at hmiddle
        obtain ⟨rfl, rfl⟩ := hmiddle
        obtain ⟨c, rest, rfl, hc⟩ := hs before middle hs'
        exact ⟨c, rest ++ t, rfl, hc⟩

theorem key {ds : List Char} (hne : ds ≠ []) (hds : ∀ c ∈ ds, c.isDigit = true) :
    ColonsOpenKeys ('k' :: 'e' :: 'y' :: ':' :: ds) := by
  have hword : ColonsOpenKeys ['k', 'e', 'y'] := of_no_colon (by decide)
  refine hword.append (t := ':' :: ds) ?_
  intro before after heq
  cases before with
  | nil =>
      cases ds with
      | nil => exact absurd rfl hne
      | cons c rest =>
          rw [List.nil_append, List.cons.injEq] at heq
          exact ⟨c, rest, heq.2.symm, hds c List.mem_cons_self⟩
  | cons c before =>
      rw [List.cons_append, List.cons.injEq] at heq
      have hcolon : ':' ∈ ds := by simp [heq.2]
      exact absurd (hds ':' hcolon) (by decide)

theorem of_spells {piece : List Char} {s : Segment} (h : Segment.Spells piece s) :
    ColonsOpenKeys piece := by
  cases h with
  | field _ hcolon => exact of_no_colon hcolon
  | key hne hdigits _ => exact key hne hdigits

/-- Dots between pieces open no keys. -/
theorem intercalate :
    ∀ {pieces : List (List Char)}, (∀ piece ∈ pieces, ColonsOpenKeys piece) →
      ColonsOpenKeys (List.intercalate ['.'] pieces)
  | [], _ => of_no_colon List.not_mem_nil
  | [piece], h => by
      rw [List.intercalate_singleton]
      exact h piece List.mem_cons_self
  | piece :: next :: rest, h => by
      have hdot : ColonsOpenKeys ['.'] := of_no_colon (by decide)
      rw [List.intercalate_cons_cons]
      exact ((h piece List.mem_cons_self).append hdot).append
        (intercalate fun x hx => h x (List.mem_cons_of_mem _ hx))

theorem join {segments : List Segment} (h : ∀ s ∈ segments, s.Readable) :
    ColonsOpenKeys (Segment.join segments).toList := by
  rw [Segment.join, String.toList_ofList]
  refine intercalate fun piece hpiece => ?_
  obtain ⟨s, hs, rfl⟩ := List.mem_map.mp hpiece
  exact of_spells (Segment.spells_chars (h s hs))

end ColonsOpenKeys

/-- No tag begins with a digit. -/
theorem TypeTag.isDigit_of_spelling (t : TypeTag) :
    t.spelling.toList.head?.any Char.isDigit = false := by
  cases t <;> decide

theorem TypeTag.minus_not_mem_spelling (t : TypeTag) : '-' ∉ t.spelling.toList := by
  cases t <;> decide

namespace Path

/-- Where colons open keys there is no tag to take off. -/
theorem splitTag_eq {raw : String} (h : ColonsOpenKeys raw.toList) :
    splitTag raw = (raw, none) := by
  rw [splitTag]
  cases hsplit : Text.splitLast ':' raw.toList with
  | none => rfl
  | some halves =>
      obtain ⟨before, after⟩ := halves
      obtain ⟨c, rest, rfl, hc⟩ := h before after (Text.eq_of_splitLast hsplit).1
      have htag : TypeTag.ofSpelling? (String.ofList (c :: rest)) = none := by
        cases htag : TypeTag.ofSpelling? (String.ofList (c :: rest)) with
        | none => rfl
        | some tag =>
            have hhead := tag.isDigit_of_spelling
            rw [← TypeTag.eq_spelling_of_ofSpelling? htag, String.toList_ofList] at hhead
            simp [hc] at hhead
      simp only [htag]

/-- A tag behind a colon is taken off, whatever stands before. -/
theorem splitTag_tagged (body : String) (tag : TypeTag) :
    splitTag (body ++ ":" ++ tag.spelling) = (body, some tag) := by
  have hsplit : Text.splitLast ':' (body ++ ":" ++ tag.spelling).toList =
      some (body.toList, tag.spelling.toList) :=
    Text.splitLast_eq_some_iff.mpr ⟨by simp, tag.colon_not_mem_spelling⟩
  simp only [splitTag, hsplit, String.ofList_toList, TypeTag.ofSpelling?_spelling]

/-! ## Printed segments are read back -/

/-- Segments as a path, with a tag behind them if there is one. -/
def print (segments : List Segment) : Option TypeTag → String
  | none => Segment.join segments
  | some tag => Segment.join segments ++ ":" ++ tag.spelling

section

variable {segments : List Segment} {raw : String} {path : Path}

theorem splitTag_print (h : ∀ s ∈ segments, s.Readable) (tag : Option TypeTag) :
    splitTag (print segments tag) = (Segment.join segments, tag) := by
  cases tag with
  | none => exact splitTag_eq (.join h)
  | some tag => exact splitTag_tagged _ tag

theorem parse_of_print (hne : segments ≠ []) (h : ∀ s ∈ segments, s.Readable)
    (hcount : KeyMarker.count (Segment.join segments) ≤ 1) (tag : Option TypeTag) :
    parse (print segments tag) =
      .ok ⟨print segments tag, Segment.join segments, segments, tag⟩ := by
  have hspells : List.Forall₂ Segment.Spells ((Segment.join segments).toList.splitOn '.')
      segments := by
    rw [Segment.join, String.toList_ofList]
    exact Segment.spells_joinChars hne h
  exact (parse_eq_ok_iff (splitTag_print h tag)).mpr
    ⟨Segment.join_ne_empty hne h, hcount, hspells, rfl, rfl, rfl⟩

theorem parse_join (hne : segments ≠ []) (h : ∀ s ∈ segments, s.Printable)
    (hkeys : segments.countP (·.key?.isSome) ≤ 1) :
    parse (Segment.join segments) =
      .ok ⟨Segment.join segments, Segment.join segments, segments, none⟩ :=
  parse_of_print hne (fun s hs => (h s hs).readable) (by rwa [Segment.count_join h]) none

/-- If the print of segments is read at all, it is read as these segments, and it holds one key
marker at most. -/
theorem segments_of_parse_join (hne : segments ≠ []) (hprint : ∀ s ∈ segments, s.Printable)
    (h : parse (Segment.join segments) = .ok path) :
    path.segments = segments ∧ KeyMarker.count (Segment.join segments) ≤ 1 := by
  have hread : ∀ s ∈ segments, s.Readable := fun s hs => (hprint s hs).readable
  have hcount := ((parse_eq_ok_iff (splitTag_print hread none)).mp h).2.1
  have hback := parse_of_print hne hread hcount none
  rw [show print segments none = Segment.join segments from rfl, h] at hback
  rw [Except.ok.inj hback]
  exact ⟨rfl, hcount⟩

/-- In what was read, a colon opens a key. -/
theorem colonsOpenKeys_body (h : parse raw = .ok path) : ColonsOpenKeys path.body.toList := by
  have hpieces := (parse_eq_ok h).2.imp fun _ _ hspells =>
    And.intro (ColonsOpenKeys.of_spells hspells) hspells
  rw [List.forall₂_and_left] at hpieces
  have hjoin := ColonsOpenKeys.intercalate hpieces.1
  rwa [List.intercalate_splitOn] at hjoin

/-- No path ends in a number with a sign. -/
theorem parse_ne_ok_of_minus {before after : List Char}
    (hraw : raw.toList = before ++ ':' :: '-' :: after) (hcolon : ':' ∉ after) :
    parse raw ≠ .ok path := by
  intro h
  have hlast : Text.splitLast ':' raw.toList = some (before, '-' :: after) :=
    Text.splitLast_eq_some_iff.mpr ⟨hraw, by simp [hcolon]⟩
  have htag : TypeTag.ofSpelling? (String.ofList ('-' :: after)) = none := by
    cases htag : TypeTag.ofSpelling? (String.ofList ('-' :: after)) with
    | none => rfl
    | some tag =>
        have hminus := tag.minus_not_mem_spelling
        rw [← TypeTag.eq_spelling_of_ofSpelling? htag, String.toList_ofList] at hminus
        exact absurd List.mem_cons_self hminus
  have hbody : path.body = raw := by
    rw [body_of_parse h, splitTag, hlast]
    simp only [htag]
  obtain ⟨c, rest, hrest, hc⟩ := colonsOpenKeys_body h before ('-' :: after) (hbody ▸ hraw)
  obtain ⟨rfl, -⟩ := List.cons.inj hrest
  exact absurd hc (by decide)

/-! ## What is read is printed again -/

theorem segments_ne_nil (h : parse raw = .ok path) : path.segments ≠ [] := by
  intro hnil
  have hpieces := (parse_eq_ok h).2
  rw [hnil, List.forall₂_nil_right_iff] at hpieces
  exact List.splitOn_ne_nil _ _ hpieces

/-- Printed again, what is read holds as many markers as before. -/
theorem count_join_segments (h : parse raw = .ok path) :
    KeyMarker.count (Segment.join path.segments) = KeyMarker.count path.body := by
  rw [Segment.count_join_eq, Segment.countPieces_chars (parse_eq_ok h).2,
    ← KeyMarker.countFrom_intercalate, List.intercalate_splitOn, KeyMarker.count]

/-- The names beside a key hold no markers. -/
theorem printable_segments_of_key (h : parse raw = .ok path) {k : Nat}
    (hkey : .key k ∈ path.segments) : ∀ s ∈ path.segments, s.Printable :=
  Segment.printable_of_key (readable_segments h)
    (count_join_segments h ▸ (parse_eq_ok h).1) hkey

/-- The text of a body without the zeros in front of its key. -/
def trimmed (body : String) : String :=
  String.ofList (List.intercalate ['.'] ((body.toList.splitOn '.').map Segment.trimPiece))

/-- What is read is printed again without the zeros in front of its key. -/
theorem join_segments (h : parse raw = .ok path) :
    Segment.join path.segments = trimmed path.body := by
  have hpieces : List.Forall₂ (fun piece s => Segment.trimPiece piece = s.chars)
      (path.body.toList.splitOn '.') path.segments :=
    (parse_eq_ok h).2.imp fun _ _ hspells => hspells.chars_eq.symm
  have hchars : (path.body.toList.splitOn '.').map Segment.trimPiece =
      path.segments.map Segment.chars := by
    rw [← List.forall₂_eq_eq_eq, List.forall₂_map_left_iff, List.forall₂_map_right_iff]
    exact hpieces
  rw [Segment.join, Segment.joinChars, ← hchars, trimmed]

example : trimmed "log.history.key:007.photo_id" = "log.history.key:7.photo_id" := by
  decide +kernel

/-- Without a key, what is read is printed again as it is. -/
theorem join_segments_of_no_key (h : parse raw = .ok path)
    (hkey : ∀ s ∈ path.segments, s.key? = none) : Segment.join path.segments = path.body := by
  have hpieces := Segment.map_chars_of_no_key (parse_eq_ok h).2 hkey
  rw [Segment.join, Segment.joinChars, hpieces, List.intercalate_splitOn, String.ofList_toList]

end

/-- Reading inverts printing, with a tag and without one, as long as there is one marker at most.
Whatever is read can be printed and read again, and is the same. -/
theorem parse_print :
    (∀ (segments : List Segment) (tag : Option TypeTag), segments ≠ [] →
      (∀ s ∈ segments, s.Readable) → KeyMarker.count (Segment.join segments) ≤ 1 →
        parse (print segments tag) =
          .ok ⟨print segments tag, Segment.join segments, segments, tag⟩) ∧
    ∀ (raw : String) (path : Path), parse raw = .ok path →
      ∃ again, parse (print path.segments path.tag) = .ok again ∧
        again.segments = path.segments ∧ again.tag = path.tag := by
  constructor
  · intro segments tag hne hread hcount
    exact parse_of_print hne hread hcount tag
  · intro raw path hparse
    have hcount : KeyMarker.count (Segment.join path.segments) ≤ 1 := by
      rw [count_join_segments hparse]
      exact (parse_eq_ok hparse).1
    exact ⟨_, parse_of_print (segments_ne_nil hparse) (readable_segments hparse) hcount path.tag,
      rfl, rfl⟩

/-- A field called `key` in front of a tag, and a key with zeros. -/
theorem parse_print_key :
    parse "log.key:int" = .ok ⟨"log.key:int", "log.key", [.field "log", .field "key"], some .int⟩ ∧
      ∃ path, parse "log.history.key:007:int64" = .ok path ∧
        ∃ again, parse (print path.segments path.tag) = .ok again ∧
          again.segments = [.field "log", .field "history", .key 7] ∧
          again.tag = some .int64 := by
  constructor
  · refine parse_print.1 [.field "log", .field "key"] (some .int) (List.cons_ne_nil _ _) ?_ ?_
    · intro s hs
      rcases List.mem_pair.mp hs with rfl | rfl <;> exact ⟨by decide, by decide, by decide⟩
    · decide +kernel
  · have hparse : parse "log.history.key:007:int64" = .ok
        { raw := "log.history.key:007:int64"
          body := "log.history.key:007"
          segments := [.field "log", .field "history", .key 7]
          tag := some .int64 } := by
      decide +kernel
    exact ⟨_, hparse, parse_print.2 _ _ hparse⟩

/-! ## Paths of names only -/

/-- A path of names only, with nothing to take off its end. -/
def IsDotted (raw : String) (names : List String) : Prop :=
  parse raw = .ok ⟨raw, raw, names.map .field, none⟩

namespace IsDotted

variable {raw : String} {names : List String}

theorem eq_join (h : IsDotted raw names) : raw = Segment.join (names.map .field) := by
  refine (join_segments_of_no_key h fun s hs => ?_).symm
  obtain ⟨name, -, rfl⟩ := List.mem_map.mp hs
  rfl

/-- If a path of names holds no marker, none of its names does. -/
theorem isPlainName (h : IsDotted raw names) (hcount : KeyMarker.count raw = 0) :
    ∀ name ∈ names, IsPlainName name := by
  intro name hname
  have hfield : Segment.field name ∈ names.map Segment.field := List.mem_map_of_mem hname
  obtain ⟨hne, hdot, hcolon⟩ := readable_segments h _ hfield
  refine ⟨hne, hdot, hcolon, ?_⟩
  have hpieces : KeyMarker.countPieces ((names.map Segment.field).map Segment.chars) = 0 := by
    rwa [h.eq_join, Segment.count_join_eq] at hcount
  exact KeyMarker.countFrom_of_countPieces hpieces (List.mem_map_of_mem hfield)

/-- A path of names can be continued by a segment. -/
theorem parse_append (h : IsDotted raw names) (hne : names ≠ [])
    (hnames : ∀ name ∈ names, IsPlainName name) {s : Segment} (hs : s.Printable) :
    parse (raw ++ Segment.tail [s]) =
      .ok ⟨raw ++ Segment.tail [s], raw ++ Segment.tail [s], names.map .field ++ [s], none⟩ := by
  have hjoin : Segment.join (names.map .field ++ [s]) = raw ++ Segment.tail [s] := by
    rw [Segment.join_append (by simpa using hne), ← h.eq_join]
  have hprintable : ∀ x ∈ names.map Segment.field ++ [s], x.Printable := by
    intro x hx
    rcases List.mem_append.mp hx with hx | hx
    · exact Segment.printable_fields hnames x hx
    · rw [List.mem_singleton.mp hx]
      exact hs
  have hkeys : (names.map Segment.field ++ [s]).countP (·.key?.isSome) ≤ 1 := by
    have hone := List.countP_le_length (p := fun x : Segment => x.key?.isSome) (l := [s])
    rw [List.countP_append, Segment.countP_fields, Nat.zero_add]
    exact hone
  rw [← hjoin]
  exact parse_join (by simp) hprintable hkeys

end IsDotted

end Path

end FieldAtlas
