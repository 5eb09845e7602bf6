import FieldAtlas.Proofs.Resolution.OutsideFields
import FieldAtlas.Proofs.Tree.Invariant

/-!
# `Tagged` — a tag overrides the type and nothing else

A tag is set off by a colon, and so is the number of a key, which makes it look as if a tag could be
taken for a part of the path in front of it.  It cannot: the tag is what follows the last colon, and
no spelling holds one.  So the path in front of a tag is what is left when the tag is taken off,
whether it ends in a key, in a field called `key` or in something that cannot be read.

The tag is taken off twice, for the reader and for the test on outside fields, and both are left
with the same text.  A path with a tag is therefore read into the same segments
(`Path.parse_tagged`) and resolves to the same, but for the tag; or it fails in the same way, but
for the path that is quoted (`resolveFrom_tagged`).
-/

namespace FieldAtlas

/-- The failure with another path in place of the one that it quotes. -/
def Failure.quoting (path : String) : Failure → Failure
  | .malformed _ unread => .malformed path unread
  | .manyKeys _ count => .manyKeys path count
  | .outside _ => .outside path
  | failure => failure

theorem Failure.quoting_of_quoted? {failure : Failure} (h : failure.quoted? = none)
    (path : String) : failure.quoting path = failure := by
  cases failure with
  | malformed | manyKeys | outside => cases h
  | _ => rfl

/-- The tag of a path is carried over to what it leads to. -/
theorem walk_tagged (p : Policy) (start : Node) (path : Path) (raw : String) (tag : TypeTag) :
    walk p start { path with raw := raw, tag := some tag } =
      (walk p start path).map fun r => { r with tag := some tag } := by
  unfold walk
  dsimp only
  split
  · rfl
  · next first rest _ =>
      split
      · cases descend p start rest with
        | ok r => rfl
        | error failure => rfl
      · rfl

section

variable {raw : String} (huntagged : Path.splitTag raw = (raw, none)) (tag : TypeTag)

include huntagged

/-- With a tag behind it, a path is read as it is without. -/
theorem Path.parse_tagged :
    parse (raw ++ ":" ++ tag.spelling) =
      match parse raw with
      | .ok path => .ok { path with raw := raw ++ ":" ++ tag.spelling, tag := some tag }
      | .error failure => .error (failure.quoting (raw ++ ":" ++ tag.spelling)) := by
  have htagged := splitTag_tagged raw tag
  by_cases hempty : raw = ""
  · rw [parse_of_empty htagged hempty, parse_of_empty huntagged hempty]
    rfl
  by_cases hcount : KeyMarker.count raw ≤ 1
  · rw [parse_of_pieces htagged hempty hcount, parse_of_pieces huntagged hempty hcount]
    cases Segment.readPieces [] (raw.toList.splitOn '.') with
    | ok segments => rfl
    | error unread => rfl
  · have hmany : 1 < KeyMarker.count raw := Nat.lt_of_not_le hcount
    rw [parse_of_markers htagged hempty hmany, parse_of_markers huntagged hempty hmany]
    rfl

variable (p : Policy) (start : Node)

theorem follow_tagged :
    follow p start (raw ++ ":" ++ tag.spelling) =
      match follow p start raw with
      | .ok r => .ok { r with tag := some tag }
      | .error failure => .error (failure.quoting (raw ++ ":" ++ tag.spelling)) := by
  rw [follow, follow, Path.parse_tagged huntagged tag]
  cases Path.parse raw with
  | error failure => rfl
  | ok path =>
      show walk p start _ = match walk p start path with | .ok r => _ | .error failure => _
      rw [walk_tagged]
      cases hwalk : walk p start path with
      | ok r => rfl
      | error failure =>
          -- A failure of the walk quotes no path that could be another.
          have hquoted := quotesNothing_walk p start path failure hwalk
          exact congrArg Except.error (Failure.quoting_of_quoted? hquoted _).symm

/-- The test on outside fields looks at the same text. -/
theorem Policy.reported_tagged (failure : Failure) :
    p.reported (raw ++ ":" ++ tag.spelling) (failure.quoting (raw ++ ":" ++ tag.spelling)) =
      (p.reported raw failure).quoting (raw ++ ":" ++ tag.spelling) := by
  rw [reported, reported, Path.splitTag_tagged, huntagged]
  dsimp only
  split
  · rfl
  · rfl

/-- With a tag behind it, a path resolves to the same with this tag, or fails in the same way. -/
theorem resolveFrom_tagged :
    resolveFrom p start (raw ++ ":" ++ tag.spelling) =
      match resolveFrom p start raw with
      | .ok r => .ok { r with tag := some tag }
      | .error failure => .error (failure.quoting (raw ++ ":" ++ tag.spelling)) := by
  rw [resolveFrom_eq, resolveFrom_eq, follow_tagged huntagged tag p start]
  cases follow p start raw with
  | ok r => rfl
  | error failure => exact congrArg Except.error (p.reported_tagged huntagged tag failure)

theorem tag_eq_none_of_resolveFrom {r : Resolution} (found : resolveFrom p start raw = .ok r) :
    r.tag = none := by
  obtain ⟨path, hparse, _, _, _, _, rfl⟩ := resolveFrom_eq_ok_iff.mp found
  obtain ⟨_, _, _, _, _, htag⟩ := (Path.parse_eq_ok_iff huntagged).mp hparse
  exact htag

end

/-- A path and the same path with a tag behind it resolve together.  What they resolve to differs
in the tag alone and has the same paths, and where they fail it is for the same cause, stated in the
same terms, of the path that was asked for. -/
theorem resolve_with_tag {raw : String} (huntagged : Path.splitTag raw = (raw, none))
    (p : Policy) (start : Node) (tag : TypeTag) :
    (∀ r, resolveFrom p start (raw ++ ":" ++ tag.spelling) = .ok r ↔
      ∃ r₀, resolveFrom p start raw = .ok r₀ ∧ r = { r₀ with tag := some tag }) ∧
    (∀ r r₀, resolveFrom p start (raw ++ ":" ++ tag.spelling) = .ok r →
      resolveFrom p start raw = .ok r₀ →
        r₀.tag = none ∧ ∀ style, r.path style = r₀.path style) ∧
    ∀ failure, resolveFrom p start raw = .error failure →
      resolveFrom p start (raw ++ ":" ++ tag.spelling) =
        .error (failure.quoting (raw ++ ":" ++ tag.spelling)) := by
  have htagged := resolveFrom_tagged huntagged tag p start
  refine ⟨fun r => ?_, fun r r₀ found found₀ => ?_, fun failure hfailure => ?_⟩
  · rw [htagged]
    cases resolveFrom p start raw with
    | ok r₀ => simp [eq_comm]
    | error failure => simp
  · rw [htagged, found₀] at found
    cases found
    exact ⟨tag_eq_none_of_resolveFrom huntagged p start found₀, fun style => rfl⟩
  · rw [htagged, hfailure]

/-- An accessor called `key` in front of a tag, and a key without digits. -/
theorem resolve_with_tag_key :
    (∃ r₀, resolveFrom .synthesizing Tree.sampleTree.rootNode "log.attrs.key:9.key" = .ok r₀ ∧
      resolveFrom .synthesizing Tree.sampleTree.rootNode "log.attrs.key:9.key:int64" =
        .ok { r₀ with tag := some .int64 }) ∧
    resolveFrom .synthesizing Tree.sampleTree.rootNode "log.key:" =
      .error (.malformed "log.key:" ":") ∧
    resolveFrom .synthesizing Tree.sampleTree.rootNode "log.key::int64" =
      .error (.malformed "log.key::int64" ":") := by
  constructor
  · have hsplit : Path.splitTag "log.attrs.key:9.key" = ("log.attrs.key:9.key", none) := by
      decide +kernel
    have hparse : Path.parse "log.attrs.key:9.key" = .ok
        { raw := "log.attrs.key:9.key"
          body := "log.attrs.key:9.key"
          segments := [.field "log", .field "attrs", .key 9, .field "key"]
          tag := none } := by
      decide +kernel
    have hdescent : Descent .synthesizing Tree.sampleTree.rootNode
        [.field "attrs", .key 9, .field "key"] _ :=
      .bagMadeUp (k := 9) rfl rfl (by decide +kernel) (by decide +kernel) rfl
    have found := resolveFrom_eq_ok_iff.mpr ⟨_, hparse, _, rfl, _, hdescent, rfl⟩
    exact ⟨_, found, ((resolve_with_tag hsplit _ _ .int64).1 _).mpr ⟨_, found, rfl⟩⟩
  · have hsplit : Path.splitTag "log.key:" = ("log.key:", none) := by decide +kernel
    have hparse : Path.parse "log.key:" = .error (.malformed "log.key:" ":") := by
      decide +kernel
    have hfailure : resolveFrom .synthesizing Tree.sampleTree.rootNode "log.key:" =
        .error (.malformed "log.key:" ":") := by
      rw [resolveFrom, hparse]
      rfl
    exact ⟨hfailure, (resolve_with_tag hsplit _ _ .int64).2.2 _ hfailure⟩

end FieldAtlas
