/-!
# `Search` — one text inside another

Prefixes, endings, infixes and the last occurrence of a separator, as recursion on the list of
characters.  Each function comes with the lemma that says what it finds, so that nothing
later has to unfold it.
-/

namespace FieldAtlas.Text

/-- Whether `p` stands at the start of `s`. -/
def startsWith (p s : String) : Bool := p.toList.isPrefixOf s.toList

/-- Whether `p` stands at the end of `s`. -/
def endsWith (p s : String) : Bool := p.toList.isSuffixOf s.toList

/-- Whether `p` stands somewhere in the list. -/
def isInfix (p : List Char) : List Char → Bool
  | [] => p.isEmpty
  | c :: rest => p.isPrefixOf (c :: rest) || isInfix p rest

/-- Whether `p` stands somewhere in `s`; the empty text stands everywhere. -/
def contains (p s : String) : Bool := isInfix p.toList s.toList

theorem isInfix_iff {p s : List Char} : isInfix p s = true ↔ p <:+: s := by
  induction s with
  | nil => simp [isInfix]
  | cons c rest ih => simp [isInfix, ih, List.infix_cons_iff]

/-- Takes the ending `p` off `s`, once, if it is there. -/
def dropEnding (p s : String) : String :=
  if endsWith p s then String.ofList (s.toList.take (s.toList.length - p.toList.length)) else s

/-- What stands before and after the last `sep`. -/
def splitLast (sep : Char) : List Char → Option (List Char × List Char)
  | [] => none
  | c :: rest =>
    match splitLast sep rest with
    | some (before, after) => some (c :: before, after)
    | none => if c = sep then some ([], rest) else none

theorem splitLast_eq_none_iff {sep : Char} {s : List Char} :
    splitLast sep s = none ↔ sep ∉ s := by
  induction s with
  | nil => simp [splitLast]
  | cons c rest ih =>
    unfold splitLast
    cases h : splitLast sep rest with
    | some p =>
      have : ¬ sep ∉ rest := fun hn => by simp [ih.mpr hn] at h
      simp_all
    | none =>
      have hr := ih.mp h
      by_cases hc : c = sep
      · simp [hc]
      · simp [hc, hr, Ne.symm hc]

/-- The two halves of a split are what the text consists of. -/
theorem eq_of_splitLast {sep : Char} {s before after : List Char}
    (h : splitLast sep s = some (before, after)) : s = before ++ sep :: after ∧ sep ∉ after := by
  induction s generalizing before with
  | nil => simp [splitLast] at h
  | cons c rest ih =>
    unfold splitLast at h
    cases hs : splitLast sep rest with
    | some p =>
      obtain ⟨b, a⟩ := p
      simp only [hs, Option.some.injEq, Prod.mk.injEq] at h
      obtain ⟨rfl, rfl⟩ := h
      obtain ⟨he, hn⟩ := ih hs
      exact ⟨by simp [he], hn⟩
    | none =>
      simp only [hs] at h
      by_cases hc : c = sep
      · simp only [hc, if_pos, Option.some.injEq, Prod.mk.injEq] at h
        obtain ⟨rfl, rfl⟩ := h
        exact ⟨by simp [hc], splitLast_eq_none_iff.mp hs⟩
      · simp [hc] at h

theorem splitLast_eq_some_iff {sep : Char} {s before after : List Char} :
    splitLast sep s = some (before, after) ↔ s = before ++ sep :: after ∧ sep ∉ after := by
  induction s generalizing before with
  | nil => simp [splitLast]
  | cons c rest ih =>
    unfold splitLast
    cases h : splitLast sep rest with
    | some p =>
      obtain ⟨b, a⟩ := p
      obtain ⟨hrest, hnot⟩ := eq_of_splitLast h
      cases before with
      | nil =>
        simp only [Option.some.injEq, Prod.mk.injEq, reduceCtorEq, false_and, List.nil_append,
          List.cons.injEq, false_iff, not_and]
        rintro ⟨-, rfl⟩
        simp [hrest]
      | cons d before =>
        have := @ih before
        simp only [h, Option.some.injEq, Prod.mk.injEq] at this
        simp only [Option.some.injEq, Prod.mk.injEq, List.cons.injEq, List.cons_append, and_assoc,
          this]
    | none =>
      have hr := splitLast_eq_none_iff.mp h
      cases before with
      | nil =>
        by_cases hc : c = sep
        · subst hc
          constructor
          · intro he
            simp only [if_pos, Option.some.injEq, Prod.mk.injEq, true_and] at he
            subst he
            exact ⟨rfl, hr⟩
          · rintro ⟨he, -⟩
            simp only [List.nil_append, List.cons.injEq, true_and] at he
            simp [he]
        · simp [hc]
      | cons d before =>
        constructor
        · by_cases hc : c = sep <;> simp [hc]
        · rintro ⟨he, -⟩
          simp only [List.cons_append, List.cons.injEq] at he
          exact absurd (by simp [he.2]) hr

end FieldAtlas.Text
