import FieldAtlas.Proofs.Path.Printing

/-!
# `Marker` — markers as they stand in the text

The two questions that are asked of key markers, answered without a scan.

A text holds as many markers as it has positions at which one begins and a name can begin
(`KeyMarker.count_eq_positions`).  The scan goes on behind the marker it has found, so the argument
is that it leaves nothing out: a marker begins with `k`, and behind its own `k` a marker has none.

A text opens with a marker, all the digits that follow on, and the accessor behind them
(`KeyMarker.Opens`).  The digits and the accessor are determined by the text, so it opens in one
way at most, and it is read unless the digits are no key (`KeyMarker.read?_eq_some_iff`).
-/

namespace FieldAtlas.KeyMarker

/-! ## Where a marker begins -/

/-- The text begins with the word, a separator and a digit. -/
def BeginsMarker (s : List Char) : Prop :=
  ∃ sep d rest, (sep = ':' ∨ sep = '_') ∧ isDecimalDigit d = true ∧
    s = 'k' :: 'e' :: 'y' :: sep :: d :: rest

theorem isSome_leading?_iff {s : List Char} : (leading? s).isSome = true ↔ BeginsMarker s := by
  constructor
  · intro h
    obtain ⟨⟨ds, rest⟩, hleading⟩ := Option.isSome_iff_exists.mp h
    obtain ⟨sep, hsep, rfl, hrun⟩ := leading?_eq_some_iff.mp hleading
    match ds, hrun with
    | [], hrun => exact absurd rfl hrun.ne_nil
    | d :: ds, hrun => exact ⟨sep, d, ds ++ rest, hsep, hrun.digits d List.mem_cons_self, rfl⟩
  · rintro ⟨sep, d, rest, hsep, hd, rfl⟩
    have hne : (d :: rest).takeWhile isDecimalDigit ≠ [] := by
      rw [List.takeWhile_cons_of_pos hd]
      exact List.cons_ne_nil _ _
    refine Option.isSome_iff_exists.mpr ⟨_, leading?_eq_some_iff.mpr ⟨sep, hsep, ?_,
      digitRun_of_takeWhile hne⟩⟩
    rw [List.takeWhile_append_dropWhile]

instance (s : List Char) : Decidable (BeginsMarker s) := decidable_of_iff _ isSome_leading?_iff

/-- A marker begins with `k`. -/
theorem not_beginsMarker_of_ne {c : Char} {s : List Char} (hc : c ≠ 'k') :
    ¬ BeginsMarker (c :: s) := by
  rintro ⟨_, _, _, -, -, h⟩
  exact hc (List.cons.inj h).1

/-! ## Counting positions -/

/-- A name can begin at the position: `fresh` answers for the first one, and the character before
for every other. -/
def nameBegins (fresh : Bool) (s : List Char) : Nat → Bool
  | 0 => fresh
  | i + 1 => s[i]?.any opensName

/-- The marker at this position counts. -/
def MarkerAt (fresh : Bool) (s : List Char) (i : Nat) : Prop :=
  nameBegins fresh s i = true ∧ BeginsMarker (s.drop i)

instance (fresh : Bool) (s : List Char) : DecidablePred (MarkerAt fresh s) := fun _ =>
  inferInstanceAs (Decidable (_ ∧ _))

/-- The number of positions at which a marker counts. -/
def positions (fresh : Bool) (s : List Char) : Nat :=
  (List.range s.length).countP (MarkerAt fresh s ·)

theorem nameBegins_cons_succ (fresh : Bool) (c : Char) (s : List Char) (i : Nat) :
    nameBegins fresh (c :: s) (i + 1) = nameBegins (opensName c) s i := by
  cases i with
  | zero => rfl
  | succ i => rfl

theorem markerAt_cons_succ (fresh : Bool) (c : Char) (s : List Char) (i : Nat) :
    MarkerAt fresh (c :: s) (i + 1) ↔ MarkerAt (opensName c) s i := by
  rw [MarkerAt, MarkerAt, nameBegins_cons_succ, List.drop_succ_cons]

theorem positions_cons (fresh : Bool) (c : Char) (s : List Char) :
    positions fresh (c :: s) =
      positions (opensName c) s + if fresh = true ∧ BeginsMarker (c :: s) then 1 else 0 := by
  rw [positions, List.length_cons, List.range_succ_eq_map, List.countP_cons, List.countP_map]
  congr 1
  · refine List.countP_congr fun i _ => ?_
    simp only [Function.comp_apply, decide_eq_true_eq]
    exact markerAt_cons_succ fresh c s i
  · simp [MarkerAt, nameBegins]

theorem positions_cons_of_not {fresh : Bool} {c : Char} {s : List Char}
    (h : ¬ (fresh = true ∧ BeginsMarker (c :: s))) :
    positions fresh (c :: s) = positions (opensName c) s := by
  rw [positions_cons, if_neg h, Nat.add_zero]

/-- Behind its first character, a marker does not hold the one that markers begin with. -/
theorem not_mem_take_of_leading? {c : Char} {s ds rest : List Char}
    (h : leading? (c :: s) = some (ds, rest)) : 'k' ∉ s.take (3 + ds.length) := by
  obtain ⟨sep, hsep, hs, hrun⟩ := leading?_eq_some_iff.mp h
  have htake : s.take (3 + ds.length) = 'e' :: 'y' :: sep :: ds := by
    rw [(List.cons.inj hs).2, Nat.add_comm]
    simp
  have hds : 'k' ∉ ds := fun hk => absurd (hrun.digits 'k' hk) (by decide)
  rw [htake]
  rcases hsep with rfl | rfl <;> simp [hds]

/-- The scan counts every position, since in what it skips there is none. -/
theorem countFrom_eq_positions (skip : Nat) (fresh : Bool) (s : List Char)
    (h : 'k' ∉ s.take skip) : countFrom skip fresh s = positions fresh s := by
  -- The scan is at the end, skips a character, cannot begin a name, finds no marker, or finds one.
  fun_induction countFrom skip fresh s with
  | case1 => rfl
  | case2 fresh skip c s ih =>
      rw [List.take_succ_cons, List.mem_cons, not_or] at h
      rw [ih h.2, positions_cons_of_not fun hc => not_beginsMarker_of_ne (Ne.symm h.1) hc.2]
  | case3 c s ih => rw [ih List.not_mem_nil, positions_cons_of_not (by simp)]
  | case4 c s hnone ih =>
      have hbegins : ¬ BeginsMarker (c :: s) := by simp [← isSome_leading?_iff, hnone]
      rw [ih List.not_mem_nil, positions_cons_of_not fun hc => hbegins hc.2]
  | case5 c s ds rest hsome ih =>
      have hbegins : BeginsMarker (c :: s) := by simp [← isSome_leading?_iff, hsome]
      rw [ih (not_mem_take_of_leading? hsome), positions_cons, if_pos ⟨rfl, hbegins⟩]

theorem count_eq_positions (s : String) : count s = positions true s.toList :=
  countFrom_eq_positions 0 true s.toList List.not_mem_nil

theorem count_append_dot (a b : String) : count (a ++ "." ++ b) = count a + count b := by
  have hchars : (a ++ "." ++ b).toList = a.toList ++ '.' :: b.toList := by simp
  rw [count, hchars, countFrom_append_dot _ 0 true _ (Nat.zero_le _)]
  rfl

/-- Markers are counted by the positions at which they begin: at the start of a text or behind a dot
or an underscore, the word, a separator and a digit.  So a dot adds the counts of what stands on
both sides of it, and a path has no more keys than its body has markers. -/
theorem count_by_positions :
    (∀ s : String, count s = (List.range s.toList.length).countP (MarkerAt true s.toList ·)) ∧
    (∀ a b : String, count (a ++ "." ++ b) = count a + count b) ∧
    ∀ raw path, Path.parse raw = .ok path →
      path.segments.countP (·.key?.isSome) ≤ count path.body :=
  ⟨count_eq_positions, count_append_dot, fun _ _ => Path.countP_segments_le_count⟩

/-- A marker inside a name is counted although it is no key, a second one right behind it too, and
one in the middle of a word is not. -/
theorem count_by_positions_flat :
    (count "attr_key_3" = 1 ∧ count "key_1_key:2.monkey_3" = 2 ∧
      count ("attr_key_3" ++ "." ++ "key_1_key:2.monkey_3") = 3) ∧
    ∃ path, Path.parse "log.attr_key_3" = .ok path ∧
      path.segments = [.field "log", .field "attr_key_3"] ∧
      path.segments.countP (·.key?.isSome) ≤ count path.body := by
  obtain ⟨hpositions, hdot, hkeys⟩ := count_by_positions
  have hparse : Path.parse "log.attr_key_3" =
      .ok ⟨"log.attr_key_3", "log.attr_key_3", [.field "log", .field "attr_key_3"], none⟩ := by
    decide +kernel
  have hname : count "attr_key_3" = 1 := (hpositions _).trans (by decide +kernel)
  have hflat : count "key_1_key:2.monkey_3" = 2 := (hpositions _).trans (by decide +kernel)
  exact ⟨⟨hname, hflat, (hdot _ _).trans (by rw [hname, hflat])⟩, _, hparse, rfl,
    hkeys _ _ hparse⟩

/-! ## The accessor behind the digits -/

/-- What a marker takes with it if it follows right behind the digits. -/
def accessorTexts : List (List Char) :=
  [['.', 'k', 'e', 'y'], ['_', 'k', 'e', 'y'], ['.', 'v', 'a', 'l', 'u', 'e'],
    ['_', 'v', 'a', 'l', 'u', 'e']]

/-- The accessor in front of the rest is the one that the text has there, and nothing if it has
none. -/
def TakesAccessor (acc rest : List Char) : Prop :=
  acc ∈ accessorTexts ∨ acc = [] ∧ ∀ a ∈ accessorTexts, ¬ a <+: rest

theorem mem_accessorTexts {sep : Char} (hsep : opensName sep = true) :
    [sep, 'k', 'e', 'y'] ∈ accessorTexts ∧ [sep, 'v', 'a', 'l', 'u', 'e'] ∈ accessorTexts := by
  rw [opensName, Bool.or_eq_true, beq_iff_eq, beq_iff_eq] at hsep
  rcases hsep with rfl | rfl <;> simp [accessorTexts]

theorem dropAccessor_append {acc : List Char} (h : acc ∈ accessorTexts) (rest : List Char) :
    dropAccessor (acc ++ rest) = rest := by
  simp only [accessorTexts, List.mem_cons, List.not_mem_nil, or_false] at h
  rcases h with rfl | rfl | rfl | rfl <;> rfl

theorem dropAccessor_of_not {s : List Char} (h : ∀ a ∈ accessorTexts, ¬ a <+: s) :
    dropAccessor s = s := by
  unfold dropAccessor
  split
  · next sep rest =>
      exact if_neg fun hsep => h _ (mem_accessorTexts hsep).1 ⟨rest, rfl⟩
  · next sep rest =>
      exact if_neg fun hsep => h _ (mem_accessorTexts hsep).2 ⟨rest, rfl⟩
  · rfl

theorem dropAccessor_eq_iff {s rest : List Char} :
    dropAccessor s = rest ↔ ∃ acc, s = acc ++ rest ∧ TakesAccessor acc rest := by
  constructor
  · rintro rfl
    by_cases h : ∃ a ∈ accessorTexts, a <+: s
    · obtain ⟨a, ha, rest, rfl⟩ := h
      rw [dropAccessor_append ha]
      exact ⟨a, rfl, .inl ha⟩
    · have hnot : ∀ a ∈ accessorTexts, ¬ a <+: s := fun a ha hprefix => h ⟨a, ha, hprefix⟩
      rw [dropAccessor_of_not hnot]
      exact ⟨[], rfl, .inr ⟨rfl, hnot⟩⟩
  · rintro ⟨acc, rfl, hacc | ⟨rfl, hnot⟩⟩
    · exact dropAccessor_append hacc rest
    · exact dropAccessor_of_not hnot

/-- Nothing is left of an accessor. -/
theorem dropAccessor_eq_nil_iff {s : List Char} :
    dropAccessor s = [] ↔ s = [] ∨ s ∈ accessorTexts := by
  rw [dropAccessor_eq_iff]
  constructor
  · rintro ⟨acc, rfl, hacc | ⟨rfl, -⟩⟩
    · rw [List.append_nil]
      exact Or.inr hacc
    · exact Or.inl rfl
  · rintro (rfl | hacc)
    · exact ⟨[], rfl, .inr ⟨rfl, by decide⟩⟩
    · exact ⟨s, (List.append_nil s).symm, .inl hacc⟩

/-! ## Reading the marker at the start -/

/-- The text opens with a marker: the word, a separator, all the digits that follow on, and the
accessor behind them. -/
structure Opens (s : List Char) (sep : Char) (ds acc rest : List Char) : Prop where
  text : s = 'k' :: 'e' :: 'y' :: sep :: (ds ++ (acc ++ rest))
  sep : sep = ':' ∨ sep = '_'
  digits : DigitRun ds (acc ++ rest)
  accessor : TakesAccessor acc rest

theorem Opens.leading? {s ds acc rest : List Char} {sep : Char} (h : Opens s sep ds acc rest) :
    leading? s = some (ds, acc ++ rest) :=
  leading?_eq_some_iff.mpr ⟨sep, h.sep, h.text, h.digits⟩

/-- A text opens in one way. -/
theorem Opens.unique {s ds ds' acc acc' rest rest' : List Char} {sep sep' : Char}
    (h : Opens s sep ds acc rest) (h' : Opens s sep' ds' acc' rest') :
    sep = sep' ∧ ds = ds' ∧ acc = acc' ∧ rest = rest' := by
  obtain ⟨hds, hleft⟩ := Prod.mk.inj (Option.some.inj (h.leading?.symm.trans h'.leading?))
  have hsep := h.text.symm.trans h'.text
  have hrest : dropAccessor (acc ++ rest) = rest := dropAccessor_eq_iff.mpr ⟨acc, rfl, h.accessor⟩
  rw [hleft, dropAccessor_eq_iff.mpr ⟨acc', rfl, h'.accessor⟩] at hrest
  subst hrest
  simp only [List.cons.injEq, true_and] at hsep
  exact ⟨hsep.1, hds, List.append_cancel_right hleft, rfl⟩

theorem read?_eq_some_iff {s rest : List Char} {k : Nat} :
    read? s = some (k, rest) ↔ ∃ sep ds acc, Opens s sep ds acc rest ∧
      (∀ c ∈ ds, c.isDigit = true) ∧ Nat.ofDigitChars 10 ds 0 = k ∧ k ≤ Decimal.maxKey := by
  simp only [read?, Option.bind_eq_bind, Option.bind_eq_some_iff, Option.some.injEq, Prod.mk.injEq,
    Prod.exists]
  constructor
  · rintro ⟨ds, left, hleading, _, hkey, rfl, hdrop⟩
    obtain ⟨sep, hsep, rfl, hrun⟩ := leading?_eq_some_iff.mp hleading
    obtain ⟨acc, rfl, hacc⟩ := dropAccessor_eq_iff.mp hdrop
    exact ⟨sep, ds, acc, ⟨rfl, hsep, hrun, hacc⟩, (Decimal.readKey?_eq_some_iff.mp hkey).2⟩
  · rintro ⟨sep, ds, acc, ⟨rfl, hsep, hrun, hacc⟩, hkey⟩
    exact ⟨ds, acc ++ rest, leading?_eq_some_iff.mpr ⟨sep, hsep, rfl, hrun⟩, k,
      Decimal.readKey?_eq_some_iff.mpr ⟨hrun.ne_nil, hkey⟩, rfl,
      dropAccessor_eq_iff.mpr ⟨acc, rfl, hacc⟩⟩

/-- A text that does not open with a marker is not read, nor is one whose digits are no key. -/
theorem read?_eq_none_iff {s : List Char} :
    read? s = none ↔ ∀ sep ds acc rest, Opens s sep ds acc rest →
      (∃ c ∈ ds, c.isDigit = false) ∨ Decimal.maxKey < Nat.ofDigitChars 10 ds 0 := by
  rw [Option.eq_none_iff_forall_ne_some]
  constructor
  · intro h sep ds acc rest hopens
    by_contra hkey
    simp only [not_or, not_exists, not_and, Bool.not_eq_false, Nat.not_lt] at hkey
    exact h (_, rest) (read?_eq_some_iff.mpr ⟨sep, ds, acc, hopens, hkey.1, rfl, hkey.2⟩)
  · rintro h ⟨k, rest⟩ hread
    obtain ⟨sep, ds, acc, hopens, hascii, rfl, hle⟩ := read?_eq_some_iff.mp hread
    rcases h sep ds acc rest hopens with ⟨c, hc, hnot⟩ | hlt
    · rw [hascii c hc] at hnot
      cases hnot
    · omega

/-- A key that is printed behind the word and a separator is read, and what follows is left if it
neither goes on with a digit nor begins with an accessor. -/
theorem read?_digits {sep : Char} {k : Nat} {rest : List Char} (hsep : sep = ':' ∨ sep = '_')
    (hk : k ≤ Decimal.maxKey) (hdigit : ∀ c, rest.head? = some c → isDecimalDigit c = false)
    (hacc : ∀ a ∈ accessorTexts, ¬ a <+: rest) :
    read? ('k' :: 'e' :: 'y' :: sep :: (Decimal.digits k ++ rest)) = some (k, rest) := by
  have hascii : ∀ c ∈ Decimal.digits k, c.isDigit = true := fun _ => Decimal.isDigit_of_mem_digits
  have hrun : DigitRun (Decimal.digits k) rest :=
    ⟨Decimal.digits_ne_nil k, fun c hc => isDecimalDigit_of_isDigit (hascii c hc), hdigit⟩
  exact read?_eq_some_iff.mpr ⟨sep, Decimal.digits k, [], ⟨rfl, hsep, hrun, .inr ⟨rfl, hacc⟩⟩,
    hascii, Nat.ofDigitChars_toDigits (by decide) (by decide), hk⟩

/-- A text is read exactly if it opens with a marker whose digits are a key, as that key and the
text behind the marker and its accessor; digits of another script and numbers that are too large are
no key.  So what is printed as a key is read again, with either separator. -/
theorem read?_by_pattern :
    (∀ s k rest, read? s = some (k, rest) ↔ ∃ sep ds acc, Opens s sep ds acc rest ∧
      (∀ c ∈ ds, c.isDigit = true) ∧ Nat.ofDigitChars 10 ds 0 = k ∧ k ≤ Decimal.maxKey) ∧
    (∀ s, read? s = none ↔ ∀ sep ds acc rest, Opens s sep ds acc rest →
      (∃ c ∈ ds, c.isDigit = false) ∨ Decimal.maxKey < Nat.ofDigitChars 10 ds 0) ∧
    ∀ sep k rest, (sep = ':' ∨ sep = '_') → k ≤ Decimal.maxKey →
      (∀ c, rest.head? = some c → isDecimalDigit c = false) →
      (∀ a ∈ accessorTexts, ¬ a <+: rest) →
      read? ('k' :: 'e' :: 'y' :: sep :: (Decimal.digits k ++ rest)) = some (k, rest) :=
  ⟨fun _ _ _ => read?_eq_some_iff, fun _ => read?_eq_none_iff, fun _ _ _ => read?_digits⟩

/-- One accessor is taken and a second one is left.  A number that takes 64 bits is too large, and a
digit of another script belongs to the run and spoils it. -/
theorem read?_by_pattern_key :
    read? "key_007.key.key".toList = some (7, ".key".toList) ∧
      read? "key:9223372036854775808".toList = none ∧ read? "key:1٣".toList = none ∧
      read? "key_9223372036854775807_list".toList = some (Decimal.maxKey, "_list".toList) := by
  obtain ⟨hsome, hnone, hprinted⟩ := read?_by_pattern
  have hlarge : Opens "key:9223372036854775808".toList ':' "9223372036854775808".toList [] [] :=
    ⟨rfl, .inl rfl, ⟨nofun, List.all_eq_true.mp rfl, nofun⟩, .inr ⟨rfl, by decide⟩⟩
  have harabic : Opens "key:1٣".toList ':' "1٣".toList [] [] :=
    ⟨rfl, .inl rfl, ⟨nofun, List.all_eq_true.mp rfl, nofun⟩, .inr ⟨rfl, by decide⟩⟩
  have hdot : ∀ c, ".key.key".toList.head? = some c → isDecimalDigit c = false := by
    rintro c ⟨⟩
    decide
  have hunderscore : ∀ c, "_list".toList.head? = some c → isDecimalDigit c = false := by
    rintro c ⟨⟩
    decide
  have htwice : Opens "key_007.key.key".toList '_' "007".toList ".key".toList ".key".toList :=
    ⟨rfl, .inr rfl, ⟨nofun, List.all_eq_true.mp rfl, hdot⟩, .inl (by decide)⟩
  refine ⟨?_, ?_, ?_, ?_⟩
  · exact (hsome _ _ _).mpr ⟨_, _, _, htwice, List.all_eq_true.mp rfl, rfl, by decide⟩
  · refine (hnone _).mpr fun sep ds acc rest hopens => .inr ?_
    rw [← (hlarge.unique hopens).2.1]
    decide
  · refine (hnone _).mpr fun sep ds acc rest hopens => .inl ⟨'٣', ?_, by decide⟩
    rw [← (harabic.unique hopens).2.1]
    decide
  · exact hprinted '_' Decimal.maxKey "_list".toList (.inr rfl) (by decide) hunderscore (by decide)

end FieldAtlas.KeyMarker
