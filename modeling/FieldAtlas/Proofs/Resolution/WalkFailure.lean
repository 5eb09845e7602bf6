import FieldAtlas.Resolution.Basic

/-!
# `WalkFailure` — what the failure of a walk says

A walk that stops does so at a node, and its failure names that node and what stood next.  The text
of the path is quoted by those failures only that come before the walk, when the path is read, and
by the one that is reported in place of any other, where the path mentions a field outside the
schema.

So whatever rewrites the text of a path and leaves its segments alone leaves the failures of the
walk alone too (`quotesNothing_walk`).
-/

namespace FieldAtlas

/-- The path that the failure quotes. -/
def Failure.quoted? : Failure → Option String
  | .malformed path _ | .manyKeys path _ | .outside path => some path
  | _ => none

/-- A failure that is expected quotes its path. -/
theorem Failure.isExpected_of_quoted? {failure : Failure} (h : failure.quoted? = none) :
    failure.isExpected = false := by
  cases failure with
  | outside path => cases h
  | _ => rfl

/-- A failure, if there is one, quotes no path. -/
def QuotesNothing {α : Type} (x : Except Failure α) : Prop :=
  ∀ failure, x = .error failure → failure.quoted? = none

namespace QuotesNothing

variable {α β : Type}

theorem ok (a : α) : QuotesNothing (.ok a) := nofun

theorem error {failure : Failure} (h : failure.quoted? = none) :
    QuotesNothing (.error failure : Except Failure α) :=
  fun _ heq => Except.error.inj heq ▸ h

theorem map {x : Except Failure α} (hx : QuotesNothing x) (f : α → β) :
    QuotesNothing (x.map f) := by
  cases x with
  | ok a => exact ok _
  | error failure => exact error (hx failure rfl)

end QuotesNothing

theorem quotesNothing_placeholder (n : Node) (k : Nat) (kind : PathKind) :
    QuotesNothing (placeholder n k kind) := by
  unfold placeholder
  cases n.child? "0" with
  | some m => exact .ok _
  | none => exact .error rfl

section

variable (p : Policy)

theorem quotesNothing_entryByKey (bag : Node) (k : Nat) : QuotesNothing (entryByKey p bag k) := by
  unfold entryByKey
  cases bag.child? (Decimal.text k) with
  | some n => exact .ok _
  | none =>
      dsimp only
      split
      · exact .ok _
      · exact .error rfl

theorem quotesNothing_resolveBag (bag : Node) (rest : List Segment) :
    QuotesNothing (resolveBag p bag rest) := by
  unfold resolveBag
  split
  · exact .ok _
  · cases keyRemainder? rest with
    | some k =>
        dsimp only
        split
        · exact quotesNothing_placeholder _ _ _
        · exact quotesNothing_entryByKey p bag k
    | none =>
        dsimp only
        split
        · next member _ =>
            split
            · cases bag.child? member with
              | some n => exact .ok _
              | none => exact .error rfl
            · exact .error rfl
        · exact .error rfl

theorem quotesNothing_resolveLabels (labels : Node) (rest : List Segment) :
    QuotesNothing (resolveLabels labels rest) := by
  unfold resolveLabels
  split
  · exact .ok _
  · cases keyRemainder? rest with
    | some k => exact quotesNothing_placeholder _ _ _
    | none => exact .error rfl

theorem quotesNothing_descend :
    ∀ (segments : List Segment) (n : Node), QuotesNothing (descend p n segments)
  | [], _ => .ok _
  | .key _ :: _, _ => .error rfl
  | .field name :: rest, n => by
      rw [descend]
      cases n.child? name with
      | none => exact .error rfl
      | some c =>
          dsimp only
          cases c.shape with
          | plain => exact quotesNothing_descend rest c
          | enumMarker => exact .ok _
          | listBag | mapBag => exact quotesNothing_resolveBag p c rest
          | labelMap => exact quotesNothing_resolveLabels c rest
          | keyedRecords =>
              cases rest with
              | nil => exact .ok _
              | cons first inner =>
                  cases first with
                  | field _ => exact .error rfl
                  | key k => exact (quotesNothing_descend inner c).map _

theorem quotesNothing_walk (start : Node) (path : Path) : QuotesNothing (walk p start path) := by
  unfold walk
  split
  · exact .error rfl
  · split
    · exact (quotesNothing_descend p _ start).map _
    · exact .error rfl

end

end FieldAtlas
