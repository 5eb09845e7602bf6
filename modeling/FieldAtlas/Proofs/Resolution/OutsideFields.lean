import FieldAtlas.Proofs.Resolution.History
import FieldAtlas.Proofs.Resolution.Synthesis
import FieldAtlas.Proofs.Resolution.WalkFailure

/-!
# `OutsideFields` — fields outside the schema only rename failures

No path is read or followed with an eye to the fields that live outside the schema.  They are looked
at when a path has failed, and then the failure is reported under another name.  So under two
policies that differ in these fields only, a path comes to the same or fails both times
(`resolveFrom_eq`), and it is by the reported name alone that the failures may differ.

A request that is not answered with a failure is therefore answered alike, whatever came before it
(`Alike`).  And the log, which takes no note of failures on outside fields, is left with a part of
the history: the failures on paths that mention none of the fields that were added
(`history_withOutside`).
-/

namespace FieldAtlas

/-- The policy with these fields outside the schema, and no others. -/
def Policy.withOutside (p : Policy) (fields : List String) : Policy :=
  { p with outsideFields := fields }

def Atlas.withOutside (a : Atlas) (fields : List String) : Atlas :=
  { a with policy := a.policy.withOutside fields }

/-- Whether one of the fields is mentioned in the path, apart from its tag. -/
def mentions (fields : List String) (raw : String) : Bool :=
  fields.any (Text.contains · (Path.splitTag raw).1)

theorem mentions_iff {fields : List String} {raw : String} : mentions fields raw = true ↔
    ∃ field ∈ fields, field.toList <:+: (Path.splitTag raw).1.toList := by
  simp only [mentions, List.any_eq_true, Text.contains, Text.isInfix_iff]

theorem mentions_of_mem_iff {fields old added : List String}
    (h : ∀ field, field ∈ fields ↔ field ∈ old ∨ field ∈ added) (raw : String) :
    mentions fields raw = (mentions old raw || mentions added raw) := by
  rw [Bool.eq_iff_iff, Bool.or_eq_true, mentions_iff, mentions_iff, mentions_iff]
  simp only [h, or_and_right, exists_or]

/-! ## What a path comes to -/

/-- A failure, if there is one, speaks of no field outside the schema. -/
def NeverOutside {α : Type} (x : Except Failure α) : Prop :=
  ∀ failure, x = .error failure → failure.isExpected = false

namespace NeverOutside

variable {α : Type}

theorem error {failure : Failure} (h : failure.isExpected = false) :
    NeverOutside (.error failure : Except Failure α) :=
  fun _ heq => Except.error.inj heq ▸ h

theorem of_parse (raw : String) : NeverOutside (Path.parse raw) := by
  unfold Path.parse
  dsimp only
  split
  · exact error rfl
  · split
    · exact error rfl
    · split
      · exact nofun
      · exact error rfl

theorem of_walk (p : Policy) (start : Node) (path : Path) : NeverOutside (walk p start path) :=
  fun failure h => Failure.isExpected_of_quoted? (quotesNothing_walk p start path failure h)

end NeverOutside

/-- Following segments takes no notice of outside fields. -/
theorem descend_withOutside (p : Policy) (fields : List String) :
    ∀ (segments : List Segment) (n : Node),
      descend (p.withOutside fields) n segments = descend p n segments
  | [], _ => rfl
  | .key _ :: _, _ => rfl
  | .field name :: rest, n => by
      rw [descend, descend]
      cases n.child? name with
      | none => rfl
      | some c =>
          dsimp only
          cases c.shape with
          | plain => exact descend_withOutside p fields rest c
          | enumMarker | listBag | mapBag | labelMap => rfl
          | keyedRecords =>
              cases rest with
              | nil => rfl
              | cons first inner =>
                  cases first with
                  | field _ => rfl
                  | key k =>
                      have hinner := descend_withOutside p fields inner c
                      exact congrArg (Except.map (insideRecord k)) hinner

/-- What a path comes to, whichever fields are outside the schema. -/
def follow (p : Policy) (start : Node) (raw : String) : Except Failure Resolution :=
  (Path.parse raw).bind (walk p start)

theorem follow_withOutside (p : Policy) (fields : List String) (start : Node) (raw : String) :
    follow (p.withOutside fields) start raw = follow p start raw := by
  rw [follow, follow]
  cases Path.parse raw with
  | error failure => rfl
  | ok path =>
      show walk _ _ _ = walk _ _ _
      unfold walk
      split
      · rfl
      · rw [descend_withOutside]

theorem neverOutside_follow (p : Policy) (start : Node) (raw : String) :
    NeverOutside (follow p start raw) := by
  rw [follow]
  cases hparse : Path.parse raw with
  | error failure => exact .error (NeverOutside.of_parse raw failure hparse)
  | ok path => exact .of_walk p start path

/-- Outside fields matter when the path has failed, and only to the name of the failure. -/
theorem resolveFrom_eq (p : Policy) (start : Node) (raw : String) :
    resolveFrom p start raw = (follow p start raw).mapError (p.reported raw) := by
  rw [resolveFrom, follow]
  cases (Path.parse raw).bind (walk p start) with
  | ok r => rfl
  | error failure => exact (apply_ite Except.error _ _ _).symm

/-- A failure is reported as expected exactly if the path mentions an outside field. -/
theorem isExpected_reported (p : Policy) (raw : String) {failure : Failure}
    (h : failure.isExpected = false) :
    (p.reported raw failure).isExpected = mentions p.outsideFields raw := by
  have houtside : p.isOutside (Path.splitTag raw).1 = mentions p.outsideFields raw := rfl
  rw [Policy.reported, houtside]
  cases mentions p.outsideFields raw with
  | true => rfl
  | false => exact h

theorem reported_of_not_expected {p : Policy} {raw : String} {failure : Failure}
    (h : (p.reported raw failure).isExpected = false) : p.reported raw failure = failure := by
  rw [Policy.reported] at h ⊢
  split at h
  · cases h
  · next hnot => exact if_neg hnot

/-- Under two policies that differ in the outside fields, a path comes to the same, or it fails
under both. -/
theorem resolveFrom_withOutside (p : Policy) (first second : List String) (start : Node)
    (raw : String) :
    (∃ r, resolveFrom (p.withOutside first) start raw = .ok r ∧
      resolveFrom (p.withOutside second) start raw = .ok r) ∨
    ∃ e₁ e₂, resolveFrom (p.withOutside first) start raw = .error e₁ ∧
      resolveFrom (p.withOutside second) start raw = .error e₂ ∧
      (e₁.isExpected = mentions first raw) ∧ (e₂.isExpected = mentions second raw) ∧
      (e₁.isExpected = false → e₂.isExpected = false → e₁ = e₂) := by
  rw [resolveFrom_eq, resolveFrom_eq, follow_withOutside, follow_withOutside]
  cases hfollow : follow p start raw with
  | ok r => exact Or.inl ⟨r, rfl, rfl⟩
  | error failure =>
      have hinside := neverOutside_follow p start raw failure hfollow
      refine Or.inr ⟨_, _, rfl, rfl, isExpected_reported _ raw hinside,
        isExpected_reported _ raw hinside, fun h₁ h₂ => ?_⟩
      rw [reported_of_not_expected h₁, reported_of_not_expected h₂]

/-! ## What a request is answered -/

/-- Whether the answer to a request leaves open why a path has failed, and says nothing about the
log and the policy. -/
def Request.hidesFailures : Request → Bool
  | .attempt _ | .summarize _ | .diagnostics | .drain | .policy => false
  | .resolve _ | .batch _ _ | .same _ _ | .find _ | .findComment _ | .findType _ | .findEnumName _
  | .render _ | .renderKey _ _ | .node | .dump | .leafType _ | .nameOf _ => true

/-- Two resolvers over one tree whose policies differ in the outside fields; their logs may differ
as they like. -/
structure Resolver.Alike (r s : Resolver) : Prop where
  tree : s.tree = r.tree
  policy : ∃ fields, s.policy = r.policy.withOutside fields

/-- The same answer, and resolvers that are alike. -/
structure AnsweredAlike {α : Type} (x y : Noted (α × Resolver)) : Prop where
  answer : y.value.1 = x.value.1
  alike : x.value.2.Alike y.value.2

namespace AnsweredAlike

variable {α β : Type} {r s : Resolver}

theorem pure (b : β) (h : r.Alike s) :
    AnsweredAlike (Pure.pure (b, r) : Noted (β × Resolver)) (Pure.pure (b, s)) :=
  ⟨rfl, h⟩

theorem bind {x y : Noted (α × Resolver)} {f g : α × Resolver → Noted (β × Resolver)}
    (hxy : AnsweredAlike x y)
    (hfg : ∀ b {r s : Resolver}, r.Alike s → AnsweredAlike (f (b, r)) (g (b, s))) :
    AnsweredAlike (x >>= f) (y >>= g) := by
  have hnext := hfg x.value.1 hxy.alike
  have hsame : g y.value = g (x.value.1, y.value.2) := by rw [← hxy.answer]
  rw [← hsame] at hnext
  exact ⟨hnext.answer, hnext.alike⟩

theorem map {x y : Noted (α × Resolver)} (hxy : AnsweredAlike x y) (f : α → β) :
    AnsweredAlike (x >>= fun z => Pure.pure (f z.1, z.2))
      (y >>= fun z => Pure.pure (f z.1, z.2)) :=
  hxy.bind fun b _ _ h => pure (f b) h

/-- What does not ask the resolvers may come first. -/
theorem bind_quiet (x : Noted α) {f g : α → Noted (β × Resolver)}
    (hfg : AnsweredAlike (f x.value) (g x.value)) : AnsweredAlike (x >>= f) (x >>= g) :=
  ⟨hfg.answer, hfg.alike⟩

end AnsweredAlike

namespace Resolver

namespace Alike

variable {r s : Resolver}

theorem found_job (h : r.Alike s) (start : Node) (path : String) :
    (s.job start path).found = (r.job start path).found := by
  obtain ⟨fields, hpolicy⟩ := h.policy
  rw [Resolver.found_job, Resolver.found_job, resolveFrom_eq, resolveFrom_eq, hpolicy,
    follow_withOutside]
  cases follow r.policy start path <;> rfl

/-- Steps on the log leave resolvers alike. -/
theorem run {α : Type} (h : r.Alike s) (answer : α) (steps steps' : List LogStep) :
    AnsweredAlike (do return (answer, ← r.run steps)) (do return (answer, ← s.run steps')) :=
  ⟨rfl, h.tree, h.policy⟩

theorem lookup (h : r.Alike s) (start : Node) (path : String) :
    AnsweredAlike (r.lookup start path) (s.lookup start path) := by
  rw [Resolver.lookup, Resolver.lookup, h.found_job]
  exact h.run _ _ _

/-- The workers of a batch find the same in whatever turns they get on. -/
theorem lookupAll (h : r.Alike s) (paths : List String) (turns turns' : List Nat) :
    AnsweredAlike (r.lookupAll paths turns) (s.lookupAll paths turns') := by
  have hfound : (paths.map (s.job s.tree.rootNode)).map (·.found) =
      (paths.map (r.job r.tree.rootNode)).map (·.found) := by
    rw [List.map_map, List.map_map, h.tree]
    exact List.map_congr_left fun path _ => h.found_job _ path
  rw [Resolver.lookupAll, Resolver.lookupAll, hfound]
  exact h.run _ _ _

theorem lookupText (h : r.Alike s) (start : Node) (path : String)
    (answer : Target → Option String) :
    AnsweredAlike (r.lookupText start path answer) (s.lookupText start path answer) :=
  (h.lookup start path).map fun found => found.bind fun res => answer res.target

/-- Resolvers that are alike answer alike, apart from what they say of failures, log and policy. -/
theorem performAt (h : r.Alike s) (start : Node) {q : Request} (hq : q.hidesFailures = true) :
    AnsweredAlike (r.performAt start q) (s.performAt start q) := by
  cases q with
  | attempt _ | summarize _ | diagnostics | drain | policy => cases hq
  | resolve path => exact (h.lookup start path).map Reply.found
  | batch paths turns => exact (h.lookupAll paths turns turns).map Reply.foundAll
  | same first second =>
      rw [Resolver.performAt, Resolver.performAt, h.tree]
      exact (h.lookup _ first).bind fun found _ _ h => by
        dsimp only
        rw [h.tree]
        exact (h.lookup _ second).map fun other => Reply.truth (sameResult found other)
  | find path =>
      exact (h.lookup start path).map fun found => Reply.target (found.map (·.target))
  | findComment path => exact (h.lookupText start path _).map Reply.text
  | findType path => exact (h.lookupText start path _).map Reply.text
  | findEnumName path =>
      refine (h.lookupText start path Target.enumName?).bind fun text _ _ h => ?_
      cases text with
      | none => exact .bind_quiet _ (.pure _ h)
      | some text => exact .pure _ h
  | render key => exact .bind_quiet _ (.bind_quiet _ (.pure _ h))
  | renderKey value key => exact .bind_quiet _ (.bind_quiet _ (.pure _ h))
  | node | dump | leafType _ => exact .pure _ h
  | nameOf id =>
      rw [Resolver.performAt, Resolver.performAt, h.tree]
      exact .pure _ h

theorem perform (h : r.Alike s) (start : List String) {q : Request}
    (hq : q.hidesFailures = true) :
    (s.perform start q).value.1 = (r.perform start q).value.1 := by
  rw [Resolver.perform, Resolver.perform, h.tree]
  cases r.tree.rootNode.walk? start with
  | none => rfl
  | some n => exact (h.performAt n hq).answer

end Alike

end Resolver

theorem Session.reply (s : Session) (i : Nat) (start : List String) (q : Request) :
    (s.perform i start q).map (·.value.1) = s[i]?.map fun r => (r.perform start q).value.1 := by
  rw [perform, Option.map_map]
  rfl

/-! ## What the log is left with -/

/-- Those failures whose paths mention none of the fields. -/
def withoutMentions (fields : List String) (failures : List Diagnostic) : List Diagnostic :=
  failures.filter (!mentions fields ·.path)

section

variable {a : Atlas} {fields added : List String}

/-- A failure goes into the log if the path of the lookup mentions no outside field. -/
theorem Lookup.steps_eq (p : Policy) (l : Lookup) : l.steps p =
    match follow p l.start l.path with
    | .ok _ => []
    | .error failure =>
      if mentions p.outsideFields l.path then [.report (.skippedPath l.path)]
      else [.report (.unresolved l.path failure), .push ⟨l.path, failure⟩] := by
  rw [steps, failure?, resolveFrom_eq]
  cases hfollow : follow p l.start l.path with
  | ok r => rfl
  | error failure =>
      have hinside := neverOutside_follow p _ _ _ hfollow
      have hexpected := isExpected_reported p l.path hinside
      show Diagnostic.recording ⟨l.path, p.reported l.path failure⟩ = _
      rw [Diagnostic.recording, Diagnostic.notice, hexpected]
      cases hmentions : mentions p.outsideFields l.path with
      | true => rfl
      | false =>
          rw [hmentions] at hexpected
          rw [reported_of_not_expected hexpected]
          rfl

/-- With fields added, a lookup takes its steps as before, but for a failure on these fields: that
is reported in another way and then not put into the log. -/
theorem Lookup.steps_withOutside
    (hadded : ∀ field, field ∈ fields ↔ field ∈ a.policy.outsideFields ∨ field ∈ added)
    (l : Lookup) :
    ShowAlike LogStep.pushed? (fun s => s.pushed?.filter (!mentions added ·.path))
      (l.steps (a.policy.withOutside fields)) (l.steps a.policy) := by
  have hmentions : mentions (a.policy.withOutside fields).outsideFields l.path =
      (mentions a.policy.outsideFields l.path || mentions added l.path) :=
    mentions_of_mem_iff hadded l.path
  rw [Lookup.steps_eq, Lookup.steps_eq, follow_withOutside, hmentions]
  cases follow a.policy l.start l.path with
  | ok r => exact fun _ => rfl
  | error failure =>
      -- A failure that was expected before is expected still.
      cases mentions a.policy.outsideFields l.path with
      | true =>
          rintro (_ | k)
          · rfl
          · rfl
      | false =>
          cases hadds : mentions added l.path with
          | true =>
              rintro (_ | _ | k)
              · rfl
              · simp [LogStep.pushed?, Option.filter, hadds]
              · rfl
          | false =>
              rintro (_ | _ | k)
              · rfl
              · simp [LogStep.pushed?, Option.filter, hadds]
              · rfl

/-- In whatever turns it gets on, a request records those of its failures that mention none of the
added fields, in the order in which it did before. -/
theorem recorded_withOutside
    (hadded : ∀ field, field ∈ fields ↔ field ∈ a.policy.outsideFields ∨ field ∈ added)
    (n : Node) (q : Request) :
    q.recorded (a.withOutside fields) n = withoutMentions added (q.recorded a n) := by
  have hsteps : List.Forall₂
      (ShowAlike LogStep.pushed? fun s => s.pushed?.filter (!mentions added ·.path))
      ((q.lookups a.tree.rootNode n).map (Lookup.steps (a.policy.withOutside fields)))
      ((q.lookups a.tree.rootNode n).map (Lookup.steps a.policy)) := by
    rw [List.forall₂_map_left_iff, List.forall₂_map_right_iff, List.forall₂_same]
    exact fun l _ => Lookup.steps_withOutside hadded l
  rw [Request.recorded, Request.recorded, withoutMentions, pushed, pushed, List.filter_filterMap]
  exact filterMap_interleave hsteps q.turns

theorem extend_withOutside
    (hadded : ∀ field, field ∈ fields ↔ field ∈ a.policy.outsideFields ∨ field ∈ added)
    (history : List Diagnostic) (c : Call) :
    c.extend (a.withOutside fields) (withoutMentions added history) =
      withoutMentions added (c.extend a history) := by
  have hstart : (a.withOutside fields).tree.rootNode.walk? c.start =
      a.tree.rootNode.walk? c.start := rfl
  rw [Call.extend, Call.extend, hstart]
  cases a.tree.rootNode.walk? c.start with
  | none => rfl
  | some n =>
      dsimp only
      split
      · rfl
      · rw [recorded_withOutside hadded]
        exact (List.filter_append _ _).symm

/-- The history is left with the failures that mention none of the added fields. -/
theorem history_withOutside
    (hadded : ∀ field, field ∈ fields ↔ field ∈ a.policy.outsideFields ∨ field ∈ added)
    (i : Nat) (calls : List Call) :
    history (a.withOutside fields) i calls = withoutMentions added (history a i calls) := by
  rw [history, history, ← List.foldl_hom (withoutMentions added) (extend_withOutside hadded)]
  rfl

end

/-- Fields outside the schema change no result, and of a failure they change nothing but its name.

So with fields added, in a session of any calls, every request that hides failures is answered as
before.  Of the failures that each log counts, kept or dropped, those are left whose paths
mention none of the added fields, in the same order, if the workers of a batch take the same
turns. -/
theorem Session.outside_fields_rename (a : Atlas) :
    (∀ (first second : List String) (start : Node) (raw : String),
      (∃ r, resolveFrom (a.policy.withOutside first) start raw = .ok r ∧
        resolveFrom (a.policy.withOutside second) start raw = .ok r) ∨
      ∃ e₁ e₂, resolveFrom (a.policy.withOutside first) start raw = .error e₁ ∧
        resolveFrom (a.policy.withOutside second) start raw = .error e₂ ∧
        (e₁.isExpected = true ↔
          ∃ field ∈ first, field.toList <:+: (Path.splitTag raw).1.toList) ∧
        (e₂.isExpected = true ↔
          ∃ field ∈ second, field.toList <:+: (Path.splitTag raw).1.toList) ∧
        (e₁.isExpected = false → e₂.isExpected = false → e₁ = e₂)) ∧
    ∀ (fields added : List String),
      (∀ field, field ∈ fields ↔ field ∈ a.policy.outsideFields ∨ field ∈ added) →
      ∀ (resolvers : Nat) (calls : List Call),
        (∀ c : Call, c.request.hidesFailures = true →
          (((start (a.withOutside fields) resolvers).after calls).perform c.resolver c.start
              c.request).map (·.value.1) =
            (((start a resolvers).after calls).perform c.resolver c.start
              c.request).map (·.value.1)) ∧
        ∀ i < resolvers,
          ((start a resolvers).after calls)[i]?.map (·.log) =
            some (.ofHistory a.policy.maxDiagnostics (history a i calls)) ∧
          ((start (a.withOutside fields) resolvers).after calls)[i]?.map (·.log) =
            some (.ofHistory a.policy.maxDiagnostics
              (withoutMentions added (history a i calls))) := by
  refine ⟨fun first second start raw => ?_, fun fields added hadded resolvers calls => ⟨?_, ?_⟩⟩
  · simp only [← mentions_iff]
    rcases resolveFrom_withOutside a.policy first second start raw with
      hfound | ⟨e₁, e₂, hfirst, hsecond, hnamed, hnamed', hsame⟩
    · exact Or.inl hfound
    · exact Or.inr ⟨e₁, e₂, hfirst, hsecond, by rw [hnamed], by rw [hnamed'], hsame⟩
  · intro c hc
    rw [reply, reply, getElem?_after, getElem?_after]
    split
    · have halike : (Resolver.ofHistory a (history a c.resolver calls)).Alike
          (.ofHistory (a.withOutside fields)
            (history (a.withOutside fields) c.resolver calls)) :=
        ⟨rfl, fields, rfl⟩
      exact congrArg some (halike.perform c.start hc)
    · rfl
  · intro i hi
    rw [getElem?_after, getElem?_after, if_pos hi, if_pos hi, history_withOutside hadded]
    exact ⟨rfl, rfl⟩

/-- Of three failures one is on a field known to be missing, and one is on a field added to those.
The log, with room for one failure, used to drop the first and keep the last. -/
theorem Session.outside_fields_rename_added :
    (((start sampleAtlas 1).after [⟨0, [], .resolve "log.a"⟩, ⟨0, [], .resolve "log.is_train"⟩,
        ⟨0, [], .resolve "log.lost:int"⟩])[0]?.map (·.log) =
      some { capacity := 1, kept := [⟨"log.lost:int", .noField "log" "lost"⟩], dropped := 1 }) ∧
    (((start (sampleAtlas.withOutside ["lost", "is_train"]) 1).after [⟨0, [], .resolve "log.a"⟩,
        ⟨0, [], .resolve "log.is_train"⟩, ⟨0, [], .resolve "log.lost:int"⟩])[0]?.map (·.log) =
      some { capacity := 1, kept := [⟨"log.a", .noField "log" "a"⟩] }) := by
  obtain ⟨-, hsession⟩ := outside_fields_rename sampleAtlas
  obtain ⟨-, hlogs⟩ := hsession ["lost", "is_train"] ["lost"]
    (by simp [sampleAtlas, or_comm]) 1 [⟨0, [], .resolve "log.a"⟩,
      ⟨0, [], .resolve "log.is_train"⟩, ⟨0, [], .resolve "log.lost:int"⟩]
  obtain ⟨hbefore, hafter⟩ := hlogs 0 (by decide)
  have hhistory : history sampleAtlas 0 [⟨0, [], .resolve "log.a"⟩,
      ⟨0, [], .resolve "log.is_train"⟩, ⟨0, [], .resolve "log.lost:int"⟩] =
        [⟨"log.a", .noField "log" "a"⟩, ⟨"log.lost:int", .noField "log" "lost"⟩] := by
    decide +kernel
  rw [hhistory] at hbefore hafter
  refine ⟨hbefore, hafter.trans ?_⟩
  decide +kernel

end FieldAtlas
