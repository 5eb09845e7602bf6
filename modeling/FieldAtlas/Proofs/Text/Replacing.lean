import Mathlib.Data.List.Infix

/-!
# `Replacing` — one text put in place of another

`Text.replace old new s` goes through `s` from left to right and puts `new` in place of every
`old` that it meets, each where the one before has ended.  A replacement is not local: an `old` may
lie across the border between two texts.  It cannot if `old` begins with a separator that it does
not hold again, and the second text begins there as well (`replaceFrom_append`).
-/

namespace FieldAtlas.Text

/-- Replaces from here on, the next `skip` characters belonging to an `old` that has already been
replaced. -/
def replaceFrom (old new : List Char) : (skip : Nat) → List Char → List Char
  | _, [] => []
  | skip + 1, _ :: rest => replaceFrom old new skip rest
  | 0, c :: rest =>
    if old.isPrefixOf (c :: rest) then new ++ replaceFrom old new (old.length - 1) rest
    else c :: replaceFrom old new 0 rest

/-- The text with `new` in place of `old`, which is not empty. -/
def replace (old new s : String) : String :=
  String.ofList (replaceFrom old.toList new.toList 0 s.toList)

theorem replaceFrom_skip (old new : List Char) :
    ∀ (first rest : List Char), replaceFrom old new first.length (first ++ rest) =
      replaceFrom old new 0 rest
  | [], _ => rfl
  | _ :: first, rest => replaceFrom_skip old new first rest

/-- An occurrence at the start is replaced. -/
theorem replaceFrom_of_prefix {old : List Char} (hne : old ≠ []) (new rest : List Char) :
    replaceFrom old new 0 (old ++ rest) = new ++ replaceFrom old new 0 rest := by
  cases old with
  | nil => exact absurd rfl hne
  | cons c more =>
      have hprefix : (c :: more).isPrefixOf (c :: (more ++ rest)) = true :=
        List.isPrefixOf_iff_prefix.mpr (List.prefix_append _ _)
      rw [List.cons_append, replaceFrom, if_pos hprefix]
      exact congrArg (new ++ ·) (replaceFrom_skip _ _ more rest)

/-- A text that lacks a character of `old` stays as it is. -/
theorem replaceFrom_of_not_mem {old : List Char} (new : List Char) {c : Char} (hc : c ∈ old) :
    ∀ {s : List Char}, c ∉ s → replaceFrom old new 0 s = s
  | [], _ => rfl
  | d :: rest, h => by
      have hprefix : ¬ old.isPrefixOf (d :: rest) = true := fun hp =>
        h ((List.isPrefixOf_iff_prefix.mp hp).subset hc)
      rw [replaceFrom, if_neg hprefix,
        replaceFrom_of_not_mem new hc (mt (List.mem_cons_of_mem d) h)]

/-- A single character is replaced wherever it stands. -/
theorem replaceFrom_singleton (sep : Char) (new : List Char) :
    ∀ s : List Char, replaceFrom [sep] new 0 s = s.flatMap fun c => if sep = c then new else [c]
  | [] => rfl
  | c :: rest => by
      rw [replaceFrom, List.flatMap_cons, ← replaceFrom_singleton sep new rest]
      by_cases hc : sep = c <;> simp [List.isPrefixOf, hc]

/-! ## Texts that begin with a separator -/

/-- The text is empty or begins with `sep`. -/
def LedBy (sep : Char) (s : List Char) : Prop := s = [] ∨ ∃ rest, s = sep :: rest

/-- The text is empty or begins with a dot. -/
abbrev DotLed (x : String) : Prop := LedBy '.' x.toList

theorem dotLed_dot (x : String) : DotLed ("." ++ x) := Or.inr ⟨x.toList, String.toList_append⟩

/-- What holds no separator does not lie across the start of a text that begins with one. -/
theorem prefix_append_iff {sep : Char} {p s t : List Char} (hp : sep ∉ p) (ht : LedBy sep t) :
    p <+: s ++ t ↔ p <+: s := by
  refine ⟨fun h => ?_, fun h => h.trans (List.prefix_append s t)⟩
  rcases List.prefix_or_prefix_of_prefix h (List.prefix_append s t) with h' | ⟨more, rfl⟩
  · exact h'
  · rw [List.prefix_append_right_inj] at h
    rcases ht with rfl | ⟨rest, rfl⟩
    · rw [List.prefix_nil.mp h, List.append_nil]
    · cases more with
      | nil => rw [List.append_nil]
      | cons c more =>
          obtain ⟨rfl, -⟩ := List.cons_prefix_cons.mp h
          exact absurd (List.mem_append_right s List.mem_cons_self) hp

/-- Nor does it lie across a separator that stands between two texts. -/
theorem infix_append_cons_iff {sep : Char} {p s t : List Char} (hp : sep ∉ p) :
    p <:+: s ++ sep :: t ↔ p <:+: s ∨ p <:+: t := by
  induction s with
  | nil =>
      have hstart : p <+: sep :: t ↔ p = [] := by
        rw [← List.nil_append (sep :: t), prefix_append_iff hp (Or.inr ⟨t, rfl⟩),
          List.prefix_nil]
      rw [List.nil_append, List.infix_cons_iff, hstart, List.infix_nil]
  | cons c s ih =>
      have hstart : p <+: c :: (s ++ sep :: t) ↔ p <+: c :: s :=
        prefix_append_iff (s := c :: s) hp (Or.inr ⟨t, rfl⟩)
      rw [List.cons_append, List.infix_cons_iff, hstart, ih, List.infix_cons_iff, or_assoc]

/-- Where `old` begins with a separator that it does not hold again, replacing goes piece by piece
between the separators. -/
theorem replaceFrom_append {sep : Char} {word : List Char} (hword : sep ∉ word) (new : List Char)
    {t : List Char} (ht : LedBy sep t) :
    ∀ {skip : Nat} {s : List Char}, skip ≤ s.length →
      replaceFrom (sep :: word) new skip (s ++ t) =
        replaceFrom (sep :: word) new skip s ++ replaceFrom (sep :: word) new 0 t
  | 0, [], _ => rfl
  | skip + 1, c :: rest, h => by
      rw [List.cons_append, replaceFrom, replaceFrom]
      exact replaceFrom_append hword new ht (Nat.le_of_lt_succ h)
  | 0, c :: rest, _ => by
      have hprefix : (sep :: word).isPrefixOf (c :: (rest ++ t)) =
          (sep :: word).isPrefixOf (c :: rest) := by
        rw [Bool.eq_iff_iff, List.isPrefixOf_iff_prefix, List.isPrefixOf_iff_prefix,
          List.cons_prefix_cons, List.cons_prefix_cons, prefix_append_iff hword ht]
      rw [List.cons_append, replaceFrom, replaceFrom, hprefix]
      by_cases hfound : (sep :: word).isPrefixOf (c :: rest) = true
      · -- The word fits into what is left, and so does the skip.
        have hlength := (List.isPrefixOf_iff_prefix.mp hfound).length_le
        have hskip : (sep :: word).length - 1 ≤ rest.length := Nat.le_of_succ_le_succ hlength
        rw [if_pos hfound, if_pos hfound, replaceFrom_append hword new ht hskip, List.append_assoc]
      · rw [if_neg hfound, if_neg hfound, replaceFrom_append hword new ht (Nat.zero_le _),
          List.cons_append]

end FieldAtlas.Text
