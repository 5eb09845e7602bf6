import FieldAtlas.Path.KeyMarker
import Mathlib.Data.List.TakeWhile

/-!
# `Counting` — key markers are counted piece by piece

The scan for markers runs over the whole text, and a marker may skip ahead.  It never skips a dot,
and behind a dot it starts afresh, so the count of a dotted text is the sum of the counts of its
pieces (`KeyMarker.countFrom_intercalate`).  Thereby the limit on the number of markers is
a limit on the number of key segments, and a name without markers adds nothing to it.
-/

namespace FieldAtlas.KeyMarker

/-! ## The marker at the start -/

theorem afterWord?_eq_some_iff {s rest : List Char} :
    afterWord? s = some rest ↔
      ∃ sep, (sep = ':' ∨ sep = '_') ∧ s = 'k' :: 'e' :: 'y' :: sep :: rest := by
  unfold afterWord?
  split
  · next sep left =>
      constructor
      · intro h
        split at h
        · next hsep =>
            cases h
            exact ⟨sep, hsep, rfl⟩
        · cases h
      · rintro ⟨_, hsep, h⟩
        cases h
        rw [if_pos hsep]
  · next hother =>
      constructor
      · intro h
        cases h
      · rintro ⟨sep, -, h⟩
        exact absurd h (hother sep rest)

/-- The digits are all that the text goes on with: there is one, and no digit follows. -/
structure DigitRun (ds rest : List Char) : Prop where
  ne_nil : ds ≠ []
  digits : ∀ c ∈ ds, isDecimalDigit c = true
  maximal : ∀ c, rest.head? = some c → isDecimalDigit c = false

theorem DigitRun.takeWhile_append {ds rest : List Char} (h : DigitRun ds rest) :
    (ds ++ rest).takeWhile isDecimalDigit = ds := by
  rw [List.takeWhile_append_of_pos h.digits]
  cases rest with
  | nil => rw [List.takeWhile_nil, List.append_nil]
  | cons c rest => rw [List.takeWhile_cons_of_neg (by simp [h.maximal c rfl]), List.append_nil]

theorem DigitRun.dropWhile_append {ds rest : List Char} (h : DigitRun ds rest) :
    (ds ++ rest).dropWhile isDecimalDigit = rest := by
  rw [List.dropWhile_append_of_pos h.digits]
  cases rest with
  | nil => rfl
  | cons c rest => rw [List.dropWhile_cons_of_neg (by simp [h.maximal c rfl])]

theorem digitRun_of_takeWhile {s : List Char} (hne : s.takeWhile isDecimalDigit ≠ []) :
    DigitRun (s.takeWhile isDecimalDigit) (s.dropWhile isDecimalDigit) where
  ne_nil := hne
  digits _ hc := List.mem_takeWhile_imp hc
  maximal c hc := by
    have hnot := List.head?_dropWhile_not isDecimalDigit s
    rw [hc] at hnot
    simpa using hnot

theorem leading?_eq_some_iff {s ds rest : List Char} :
    leading? s = some (ds, rest) ↔
      ∃ sep, (sep = ':' ∨ sep = '_') ∧ s = 'k' :: 'e' :: 'y' :: sep :: (ds ++ rest) ∧
        DigitRun ds rest := by
  simp only [leading?, Option.bind_eq_bind, Option.bind_eq_some_iff]
  constructor
  · rintro ⟨after, hafter, h⟩
    obtain ⟨sep, hsep, rfl⟩ := afterWord?_eq_some_iff.mp hafter
    split at h
    · cases h
    · next hne =>
        cases h
        rw [List.takeWhile_append_dropWhile]
        exact ⟨sep, hsep, rfl, digitRun_of_takeWhile hne⟩
  · rintro ⟨sep, hsep, rfl, hrun⟩
    refine ⟨ds ++ rest, afterWord?_eq_some_iff.mpr ⟨sep, hsep, rfl⟩, ?_⟩
    rw [hrun.takeWhile_append, hrun.dropWhile_append, if_neg hrun.ne_nil]

/-! ## Across a dot -/

/-- The word of a marker does not reach beyond a dot. -/
theorem afterWord?_append_dot (s rest : List Char) :
    afterWord? (s ++ '.' :: rest) = (afterWord? s).map (· ++ '.' :: rest) := by
  ext left
  simp only [afterWord?_eq_some_iff, Option.map_eq_some_iff]
  constructor
  · rintro ⟨sep, hsep, h⟩
    have hdot : sep ≠ '.' := by
      rintro rfl
      simp at hsep
    match s, h with
    | _ :: _ :: _ :: _ :: s, h =>
        cases h
        exact ⟨s, ⟨_, hsep, rfl⟩, rfl⟩
    | [_, _, _], h =>
        cases h
        exact absurd rfl hdot
  · rintro ⟨left, ⟨sep, hsep, rfl⟩, rfl⟩
    exact ⟨sep, hsep, rfl⟩

theorem isDecimalDigit_dot : isDecimalDigit '.' = false := by decide

theorem takeWhile_append_dot (s rest : List Char) :
    (s ++ '.' :: rest).takeWhile isDecimalDigit = s.takeWhile isDecimalDigit := by
  induction s with
  | nil => simp [isDecimalDigit_dot]
  | cons c s ih => simp only [List.cons_append, List.takeWhile_cons, ih]

theorem dropWhile_append_dot (s rest : List Char) :
    (s ++ '.' :: rest).dropWhile isDecimalDigit = s.dropWhile isDecimalDigit ++ '.' :: rest := by
  induction s with
  | nil => simp [isDecimalDigit_dot]
  | cons c s ih =>
      simp only [List.cons_append, List.dropWhile_cons, ih]
      split <;> rfl

theorem leading?_append_dot (s rest : List Char) :
    leading? (s ++ '.' :: rest) =
      (leading? s).map fun (ds, left) => (ds, left ++ '.' :: rest) := by
  simp only [leading?, afterWord?_append_dot]
  cases afterWord? s with
  | none => rfl
  | some left =>
      simp only [Option.map_some, Option.bind_eq_bind, Option.bind_some, takeWhile_append_dot,
        dropWhile_append_dot]
      split <;> rfl

/-- A marker is no longer than the text that it opens. -/
theorem length_of_leading? {c : Char} {s ds left : List Char}
    (h : leading? (c :: s) = some (ds, left)) : 3 + ds.length ≤ s.length := by
  obtain ⟨sep, -, hs, -⟩ := leading?_eq_some_iff.mp h
  rw [(List.cons.inj hs).2]
  simp only [List.length_cons, List.length_append]
  omega

/-- What stands before a dot and what stands behind it are counted apart. -/
theorem countFrom_append_dot (rest : List Char) :
    ∀ (skip : Nat) (fresh : Bool) (s : List Char), skip ≤ s.length →
      countFrom skip fresh (s ++ '.' :: rest) =
        countFrom skip fresh s + countFrom 0 true rest
  | 0, false, [], _ => by simp [countFrom, opensName]
  | 0, true, [], _ => by
      have hnone : leading? ('.' :: rest) = none := by simp [leading?, afterWord?]
      simp [countFrom, hnone, opensName]
  | skip + 1, fresh, c :: s, h => by
      have hskip : skip ≤ s.length := Nat.le_of_succ_le_succ h
      simp only [List.cons_append, countFrom]
      exact countFrom_append_dot rest skip (opensName c) s hskip
  | 0, false, c :: s, _ => by
      simp only [List.cons_append, countFrom]
      exact countFrom_append_dot rest 0 (opensName c) s (Nat.zero_le _)
  | 0, true, c :: s, _ => by
      have hleading := leading?_append_dot (c :: s) rest
      simp only [List.cons_append] at hleading
      simp only [List.cons_append, countFrom, hleading]
      cases hs : leading? (c :: s) with
      | none =>
          simp only [Option.map_none]
          exact countFrom_append_dot rest 0 (opensName c) s (Nat.zero_le _)
      | some marker =>
          obtain ⟨ds, left⟩ := marker
          have hlen := length_of_leading? hs
          simp only [Option.map_some]
          rw [countFrom_append_dot rest (3 + ds.length) (opensName c) s hlen]
          omega

/-- The markers of all pieces. -/
def countPieces : List (List Char) → Nat
  | [] => 0
  | piece :: rest => countFrom 0 true piece + countPieces rest

theorem countPieces_append (first last : List (List Char)) :
    countPieces (first ++ last) = countPieces first + countPieces last := by
  induction first with
  | nil => simp [countPieces]
  | cons piece rest ih => rw [List.cons_append, countPieces, countPieces, ih, Nat.add_assoc]

/-- A dotted text has as many markers as its pieces have together. -/
theorem countFrom_intercalate :
    ∀ pieces : List (List Char),
      countFrom 0 true (List.intercalate ['.'] pieces) = countPieces pieces
  | [] => rfl
  | [piece] => by simp [countPieces]
  | piece :: next :: rest => by
      rw [List.intercalate_cons_cons, List.append_assoc, List.singleton_append,
        countFrom_append_dot _ 0 true piece (Nat.zero_le _), countFrom_intercalate (next :: rest)]
      rfl

theorem countFrom_of_countPieces {piece : List Char} :
    ∀ {pieces : List (List Char)}, countPieces pieces = 0 → piece ∈ pieces →
      countFrom 0 true piece = 0
  | first :: rest, h, hmem => by
      obtain ⟨hfirst, hrest⟩ := Nat.add_eq_zero_iff.mp h
      rcases List.mem_cons.mp hmem with rfl | hmem
      · exact hfirst
      · exact countFrom_of_countPieces hrest hmem

/-! ## One piece -/

theorem countFrom_skip :
    ∀ (skip : Nat) (fresh : Bool) (s : List Char), s.length ≤ skip → countFrom skip fresh s = 0
  | 0, fresh, [], _ => by cases fresh <;> rfl
  | skip + 1, _, [], _ => rfl
  | skip + 1, _, c :: s, h => by
      rw [countFrom]
      exact countFrom_skip skip (opensName c) s (Nat.le_of_succ_le_succ h)

/-- The marker of a key in ASCII digits is all of it. -/
theorem leading?_key {ds : List Char} (hne : ds ≠ []) (hds : ∀ c ∈ ds, c.isDigit = true) :
    leading? ('k' :: 'e' :: 'y' :: ':' :: ds) = some (ds, []) := by
  have hrun : DigitRun ds [] := ⟨hne, fun c hc => isDecimalDigit_of_isDigit (hds c hc), nofun⟩
  exact leading?_eq_some_iff.mpr ⟨':', .inl rfl, by rw [List.append_nil], hrun⟩

/-- A key in ASCII digits is one marker. -/
theorem countFrom_key {ds : List Char} (hne : ds ≠ []) (hds : ∀ c ∈ ds, c.isDigit = true) :
    countFrom 0 true ('k' :: 'e' :: 'y' :: ':' :: ds) = 1 := by
  rw [countFrom, leading?_key hne hds]
  have hlen : ('e' :: 'y' :: ':' :: ds).length ≤ 3 + ds.length := by
    simp only [List.length_cons]
    omega
  simp only [countFrom_skip _ _ _ hlen]

end FieldAtlas.KeyMarker
