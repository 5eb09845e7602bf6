import FieldAtlas.Proofs.Resolution.LogSteps
import FieldAtlas.Proofs.Resolution.Turns
import FieldAtlas.Proofs.Tree.Invariant
import FieldAtlas.Resolution.Resolver
import Mathlib.Data.List.Induction

/-!
# `History` — the log of a resolver, told from what it was asked

A resolver is asked one thing after another, and so are others over the same atlas.  The
*history* of a resolver is the list of unexpected failures on record since its log was last
drained.  It is read off the calls alone: what a request looks up for the record
(`Request.lookups`) and what comes of each lookup (`failure?`) do not depend on any log.

One thing is not settled by the paths of a request.  The workers of a batch put their failures on
record as they get to it, so a call says which turns they took, and the history has the failures
in the order of these turns.  All turns are allowed, and they make up every order in which the
workers could get on (`Atlas.Recording`).

`Session.accounts_after` says that the history is all there is to a log, after any run of calls.
What is kept is the end of the history that fits, what was dropped is the rest, and what the next
call reports of the log follows from the length of the history (`logNotices`).

One step on the log is one step of the history (`Diagnostics.step_ofHistory`).  A request is a row
of such steps, joined by `Records.bind`, and a session is a row of requests.
-/

namespace FieldAtlas

/-! ## What goes on record -/

/-- A lookup for the record. -/
structure Lookup where
  start : Node
  path : String

namespace Lookup

/-- The failure of a lookup that finds nothing. -/
def failure? (p : Policy) (l : Lookup) : Option Diagnostic :=
  match resolveFrom p l.start l.path with
  | .ok _ => none
  | .error failure => some ⟨l.path, failure⟩

/-- What a lookup does with the log. -/
def steps (p : Policy) (l : Lookup) : List LogStep :=
  match l.failure? p with
  | none => []
  | some d => d.recording

end Lookup

namespace Request

/-- What a request looks up for the record, in order.  An attempt is not for the record, nor is
the summary that rests on one. -/
def lookups (root start : Node) : Request → List Lookup
  | .resolve path | .find path | .findComment path | .findType path | .findEnumName path =>
    [⟨start, path⟩]
  | .batch paths _ => paths.map (⟨root, ·⟩)
  | .same first second => [⟨root, first⟩, ⟨root, second⟩]
  | .attempt _ | .diagnostics | .drain | .summarize _ | .render _ | .renderKey _ _ | .node | .dump
  | .leafType _ | .nameOf _ | .policy => []

/-- The turns in which the lookups of a request are made.  There are none to take where one lookup
comes after the other. -/
def turns : Request → List Nat
  | .batch _ turns => turns
  | _ => []

/-- The failures among the lookups of a request, in the order in which they are asked for. -/
def failures (a : Atlas) (start : Node) (q : Request) : List Diagnostic :=
  (q.lookups a.tree.rootNode start).filterMap (·.failure? a.policy)

/-- What a request does with the log, in the order in which it happens. -/
def steps (a : Atlas) (start : Node) (q : Request) : List LogStep :=
  interleave ((q.lookups a.tree.rootNode start).map (·.steps a.policy)) q.turns

/-- The failures that a request puts into the log, in the order in which they get there. -/
def recorded (a : Atlas) (start : Node) (q : Request) : List Diagnostic :=
  pushed (q.steps a start)

end Request

/-- A request, the resolver that it is put to, and the keys from the root to where it starts. -/
structure Call where
  resolver : Nat
  start : List String
  request : Request

/-- The history of a resolver after one more call to it. -/
def Call.extend (a : Atlas) (history : List Diagnostic) (c : Call) : List Diagnostic :=
  match a.tree.rootNode.walk? c.start with
  | none => history
  | some n =>
    match c.request with
    | .drain => []
    | q => history ++ q.recorded a n

/-- The unexpected failures on record at one resolver since it was last drained, in order. -/
def history (a : Atlas) (i : Nat) (calls : List Call) : List Diagnostic :=
  (calls.filter (·.resolver = i)).foldl (Call.extend a) []

namespace Session

/-- The resolvers after a call; a call to a resolver that there is not changes nothing. -/
def call (s : Session) (c : Call) : Session :=
  ((s.perform c.resolver c.start c.request).map (·.value.2)).getD s

def after (s : Session) (calls : List Call) : Session := calls.foldl call s

end Session

/-! ## The steps of a request -/

theorem flatten_steps (p : Policy) (lookups : List Lookup) :
    (lookups.map (Lookup.steps p)).flatten =
      (lookups.filterMap (Lookup.failure? p)).flatMap Diagnostic.recording := by
  induction lookups with
  | nil => rfl
  | cons l rest ih =>
      rw [List.map_cons, List.flatten_cons, ih, List.filterMap_cons, Lookup.steps]
      cases l.failure? p <;> rfl

namespace Request

variable (a : Atlas) (start : Node) (q : Request)

/-- Whatever the turns, the steps of a request are those that record its failures. -/
theorem steps_perm :
    (q.steps a start).Perm ((q.failures a start).flatMap Diagnostic.recording) := by
  rw [failures, ← flatten_steps]
  exact interleave_perm _ _

theorem recorded_perm : (q.recorded a start).Perm (unexpected (q.failures a start)) := by
  rw [← pushed_recording]
  exact (q.steps_perm a start).filterMap _

theorem countP_steps (kind : Notice → Bool) :
    (q.steps a start).countP (LogStep.reports kind) =
      (q.failures a start).countP (kind ·.notice) := by
  rw [(q.steps_perm a start).countP_eq, countP_recording]

variable {q}

/-- Lookups that come one after the other record their failures in order. -/
theorem recorded_of_not_batch (h : ∀ paths turns, q ≠ .batch paths turns) :
    q.recorded a start = unexpected (q.failures a start) := by
  have hturns : q.turns = [] := by
    cases q with
    | batch paths turns => exact absurd rfl (h paths turns)
    | _ => rfl
  rw [recorded, steps, hturns, interleave, flatten_steps, pushed_recording]
  rfl

end Request

/-! ## One request -/

/-- A resolver over an atlas, with the log that a history leaves. -/
def Resolver.ofHistory (a : Atlas) (history : List Diagnostic) : Resolver :=
  ⟨a.tree, a.policy, .ofHistory a.policy.maxDiagnostics history⟩

/-- In the course of `x` these steps are taken on the log that a history leaves, and nothing else is
done to it. -/
structure Records (a : Atlas) (history : List Diagnostic) (steps : List LogStep) {α : Type}
    (x : Noted (α × Resolver)) : Prop where
  resolver : x.value.2 = .ofHistory a (history ++ pushed steps)
  notices : x.notices.filter Notice.isOfLog =
    logNotices a.policy.maxDiagnostics history.length steps

namespace Records

variable {a : Atlas} {history : List Diagnostic} {first last : List LogStep} {α β : Type}

theorem pure (b : β) : Records a history [] (pure (b, Resolver.ofHistory a history)) :=
  ⟨by rw [pushed_nil, List.append_nil]; rfl, rfl⟩

/-- What is recorded one after the other is recorded together. -/
theorem bind {x : Noted (α × Resolver)} {f : α × Resolver → Noted (β × Resolver)}
    (hx : Records a history first x)
    (hf : ∀ b, Records a (history ++ pushed first) last
      (f (b, .ofHistory a (history ++ pushed first)))) :
    Records a history (first ++ last) (x >>= f) := by
  have hnext : Records a (history ++ pushed first) last (f x.value) := by
    have := hf x.value.1
    rwa [← hx.resolver] at this
  constructor
  · rw [Noted.value_bind, hnext.resolver, pushed_append, List.append_assoc]
  · rw [Noted.notices_bind, List.filter_append, hx.notices, hnext.notices, logNotices_append,
      List.length_append]

/-- What has nothing to do with the log may come first. -/
theorem bind_quiet {x : Noted α} {f : α → Noted (β × Resolver)}
    (hx : x.notices.filter Notice.isOfLog = []) (hf : Records a history last (f x.value)) :
    Records a history last (x >>= f) := by
  constructor
  · rw [Noted.value_bind, hf.resolver]
  · rw [Noted.notices_bind, List.filter_append, hx, hf.notices, List.nil_append]

/-- A result may be put in other words. -/
theorem map {x : Noted (α × Resolver)} (hx : Records a history first x) (f : α → β) :
    Records a history first (x >>= fun y => Pure.pure (f y.1, y.2)) := by
  have hmapped := hx.bind (f := fun y => Pure.pure (f y.1, y.2)) fun b => Records.pure (f b)
  rwa [List.append_nil] at hmapped

/-- Steps on the log are recorded, apart from those that have nothing to do with it. -/
theorem run (steps : List LogStep) (b : β) :
    Records a history (steps.filter LogStep.isOfLog) (do
      return (b, ← (Resolver.ofHistory a history).run steps)) := by
  have hrun := Diagnostics.run_ofHistory a.policy.maxDiagnostics history steps
  constructor
  · rw [pushed_filter]
    show Resolver.mk _ _ (Diagnostics.run _ steps).value = _
    rw [Resolver.ofHistory, hrun]
    rfl
  · rw [← filter_logNotices, Noted.notices_bind, Noted.notices_pure, List.append_nil, Resolver.run,
      Noted.notices_bind, Noted.notices_pure, List.append_nil, Resolver.ofHistory, hrun]

end Records

theorem notices_resolveNoted (p : Policy) (start : Node) (path : String) :
    (resolveNoted p start path).notices.filter Notice.isOfLog = [] := by
  rw [resolveNoted]
  split
  · split <;> rfl
  · rfl

theorem value_resolveNoted (p : Policy) (start : Node) (path : String) :
    (resolveNoted p start path).value = resolveFrom p start path := by
  rw [resolveNoted]
  split
  · next h => split <;> exact h.symm
  · next h => exact h.symm

theorem notices_path (s : Site) (style : PathStyle) (key : Option Int) :
    (s.path style key).notices.filter Notice.isOfLog = [] := by
  rw [Site.path]
  split <;> rfl

/-! ### Lookups -/

/-- A lookup that succeeds does nothing with the log. -/
theorem job_of_ok {r : Resolver} {start : Node} {path : String} {found : Resolution}
    (h : resolveFrom r.policy start path = .ok found) :
    (r.job start path).found = some found ∧
      (r.job start path).steps.filter LogStep.isOfLog = [] := by
  have hquiet := notices_resolveNoted r.policy start path
  have hvalue : (resolveNoted r.policy start path).value = .ok found := by
    rw [value_resolveNoted, h]
  rw [Resolver.job, hvalue]
  refine ⟨rfl, ?_⟩
  rw [List.filter_map]
  exact congrArg (List.map _) hquiet

/-- A lookup that fails takes note of that, and does nothing else. -/
theorem job_of_error {r : Resolver} {start : Node} {path : String} {failure : Failure}
    (h : resolveFrom r.policy start path = .error failure) :
    r.job start path = ⟨none, Diagnostic.recording ⟨path, failure⟩⟩ := by
  have hresolved : resolveNoted r.policy start path = ⟨.error failure, []⟩ := by
    rw [resolveNoted, h]
  rw [Resolver.job, hresolved]
  rfl

theorem Resolver.found_job (r : Resolver) (start : Node) (path : String) :
    (r.job start path).found = (resolveFrom r.policy start path).toOption := by
  cases h : resolveFrom r.policy start path with
  | ok found => exact (job_of_ok h).1
  | error failure =>
      rw [job_of_error h]
      rfl

/-- At each step, what a worker does with the log is what its lookup does. -/
theorem job_showsAlike (r : Resolver) (l : Lookup) :
    ShowAlike (Option.guard LogStep.isOfLog) (Option.guard LogStep.isOfLog)
      (r.job l.start l.path).steps (l.steps r.policy) := by
  rw [Lookup.steps, Lookup.failure?]
  cases h : resolveFrom r.policy l.start l.path with
  | ok found =>
      refine ShowAlike.nil_iff.mpr ?_
      rw [List.filterMap_eq_filter]
      exact (job_of_ok h).2
  | error failure =>
      rw [job_of_error h]
      exact fun _ => rfl

section

variable (a : Atlas) (history : List Diagnostic) (start : Node)

/-- Lookups in turns are on record as what each of them does with the log, in these turns. -/
theorem records_jobs (lookups : List Lookup) (turns : List Nat) {β : Type} (b : β) :
    Records a history (interleave (lookups.map (Lookup.steps a.policy)) turns) (do
      return (b, ← (Resolver.ofHistory a history).run (interleave
        (lookups.map fun l => ((Resolver.ofHistory a history).job l.start l.path).steps)
        turns))) := by
  have halike : List.Forall₂
      (ShowAlike (Option.guard LogStep.isOfLog) (Option.guard LogStep.isOfLog))
      (lookups.map fun l => ((Resolver.ofHistory a history).job l.start l.path).steps)
      (lookups.map (Lookup.steps a.policy)) := by
    rw [List.forall₂_map_left_iff, List.forall₂_map_right_iff, List.forall₂_same]
    exact fun l _ => job_showsAlike _ l
  have hshown := filterMap_interleave halike turns
  rw [List.filterMap_eq_filter] at hshown
  -- A lookup does nothing else, so nothing is left out here.
  have hall : (interleave (lookups.map (Lookup.steps a.policy)) turns).filter LogStep.isOfLog =
      interleave (lookups.map (Lookup.steps a.policy)) turns := by
    refine List.filter_eq_self.mpr fun s hs => ?_
    have hmem := (interleave_perm _ _).mem_iff.mp hs
    rw [flatten_steps] at hmem
    exact isOfLog_of_mem_recording hmem
  rw [← hall, ← hshown]
  exact Records.run _ b

theorem records_lookup (path : String) :
    Records a history (interleave [Lookup.steps a.policy ⟨start, path⟩] [])
      ((Resolver.ofHistory a history).lookup start path) := by
  have hone : interleave [((Resolver.ofHistory a history).job start path).steps] [] =
      ((Resolver.ofHistory a history).job start path).steps := List.flatten_singleton
  have hjob := records_jobs a history [⟨start, path⟩] []
    ((Resolver.ofHistory a history).job start path).found
  rwa [List.map_singleton, List.map_singleton, hone] at hjob

theorem records_lookupAll (paths : List String) (turns : List Nat) :
    Records a history (Request.steps a start (.batch paths turns))
      ((Resolver.ofHistory a history).lookupAll paths turns) := by
  have hjobs := records_jobs a history (paths.map (Lookup.mk a.tree.rootNode)) turns
    ((paths.map ((Resolver.ofHistory a history).job a.tree.rootNode)).map (·.found))
  have hsteps : (paths.map (Lookup.mk a.tree.rootNode)).map
      (fun l => ((Resolver.ofHistory a history).job l.start l.path).steps) =
        (paths.map ((Resolver.ofHistory a history).job a.tree.rootNode)).map (·.steps) := by
    rw [List.map_map, List.map_map]
    rfl
  rwa [hsteps] at hjobs

theorem records_lookupText (path : String) (answer : Target → Option String) :
    Records a history (interleave [Lookup.steps a.policy ⟨start, path⟩] [])
      ((Resolver.ofHistory a history).lookupText start path answer) :=
  (records_lookup a history start path).map fun found => found.bind fun r => answer r.target

/-- A request other than a drain takes its steps on the log, and nothing else. -/
theorem records_performAt {q : Request} (hq : q ≠ .drain) :
    Records a history (q.steps a start) ((Resolver.ofHistory a history).performAt start q) := by
  cases q with
  | drain => exact absurd rfl hq
  | resolve path => exact (records_lookup a history start path).map Reply.found
  | find path =>
      exact (records_lookup a history start path).map fun found =>
        Reply.target (found.map (·.target))
  | findComment path =>
      exact (records_lookupText a history start path Target.commentText?).map Reply.text
  | findType path =>
      exact (records_lookupText a history start path fun t => some t.entry.typeName).map Reply.text
  | findEnumName path =>
      have htext := records_lookupText a history start path Target.enumName?
      rw [← List.append_nil (Request.steps a start _)]
      refine htext.bind (f := fun x => do
        if x.1.isNone then Noted.report (.noEnumName path)
        return (Reply.text x.1, x.2)) fun text => ?_
      cases text with
      | none => exact Records.bind_quiet rfl (Records.pure _)
      | some text => exact Records.pure _
  | batch paths turns => exact (records_lookupAll a history start paths turns).map Reply.foundAll
  | same first second =>
      have hboth : Request.steps a start (.same first second) =
          interleave [Lookup.steps a.policy ⟨a.tree.rootNode, first⟩] [] ++
            interleave [Lookup.steps a.policy ⟨a.tree.rootNode, second⟩] [] :=
        @List.flatten_append _ [_] [_]
      rw [hboth]
      exact (records_lookup a history a.tree.rootNode first).bind
        (f := fun x => do
          let y ← x.2.lookup x.2.tree.rootNode second
          return (Reply.truth (Resolver.sameResult x.1 y.1), y.2))
        fun found => (records_lookup a _ a.tree.rootNode second).map fun other =>
          Reply.truth (Resolver.sameResult found other)
  | attempt path => exact Records.bind_quiet (notices_resolveNoted _ _ _) (Records.pure _)
  | summarize path =>
      refine Records.bind_quiet (notices_resolveNoted _ _ _) ?_
      show Records a history [] _
      split
      · refine Records.bind_quiet ?_ (Records.pure _)
        rw [FieldSummary.ofResolution, Noted.notices_map]
        exact notices_path _ _ _
      · exact Records.pure _
  | render key | renderKey value key =>
      exact Records.bind_quiet (notices_path _ _ _)
        (Records.bind_quiet (notices_path _ _ _) (Records.pure _))
  | diagnostics | node | dump | leafType _ | nameOf _ | policy => exact Records.pure _

end

/-! ## Sessions -/

/-- What a resolver over an atlas has to show for its history. -/
structure Resolver.Accounts (a : Atlas) (history : List Diagnostic) (r : Resolver) : Prop where
  tree : r.tree = a.tree
  policy : r.policy = a.policy
  /-- The end of the history, in order, as much of it as there is room for. -/
  kept : r.log.kept =
    history.drop (history.length - min history.length a.policy.maxDiagnostics)
  count : r.log.kept.length = min history.length a.policy.maxDiagnostics
  dropped : r.log.dropped = history.length - min history.length a.policy.maxDiagnostics
  shown : ∀ keys n, a.tree.rootNode.walk? keys = some n →
    r.perform keys .diagnostics = ⟨(.diagnostics r.log.kept, r), []⟩
  drained : ∀ keys n, a.tree.rootNode.walk? keys = some n →
    (r.perform keys .drain).value.1 = .diagnostics r.log.kept ∧
      (r.perform keys .drain).value.2.log.kept = [] ∧
      (r.perform keys .drain).value.2.log.dropped = 0
  /-- Without an unexpected failure on record, nothing changes. -/
  unchanged : ∀ keys n q, a.tree.rootNode.walk? keys = some n → q ≠ .drain →
    unexpected (q.failures a n) = [] → (r.perform keys q).value.2 = r
  /-- A request puts its failures behind the history. -/
  extended : ∀ keys n q, a.tree.rootNode.walk? keys = some n → q ≠ .drain →
    (r.perform keys q).value.2.log =
      .ofHistory a.policy.maxDiagnostics (history ++ q.recorded a n)
  /-- What is reported, each thing where it happens. -/
  notices : ∀ keys n q, a.tree.rootNode.walk? keys = some n →
    (r.perform keys q).notices.filter Notice.isOfLog =
      logNotices a.policy.maxDiagnostics history.length (q.steps a n)
  errors : ∀ keys n q, a.tree.rootNode.walk? keys = some n →
    ((r.perform keys q).notices.filter Notice.isOfLog).countP (·.level = .error) =
      (unexpected (q.failures a n)).length
  debugs : ∀ keys n q, a.tree.rootNode.walk? keys = some n →
    ((r.perform keys q).notices.filter Notice.isOfLog).countP (·.level = .debug) =
      (q.failures a n).countP (·.failure.isExpected)
  /-- There is a warning if the first drop since the log was last drained is among these failures,
  and there is one only. -/
  warnings : ∀ keys n q, a.tree.rootNode.walk? keys = some n →
    ((r.perform keys q).notices.filter Notice.isOfLog).countP (·.level = .warn) =
      if a.policy.maxDiagnostics ≠ 0 ∧ history.length ≤ a.policy.maxDiagnostics ∧
          a.policy.maxDiagnostics < history.length + (unexpected (q.failures a n)).length
      then 1 else 0

section

variable (a : Atlas)

theorem perform_ofHistory (history : List Diagnostic) {keys : List String} {n : Node}
    (hn : a.tree.rootNode.walk? keys = some n) (q : Request) :
    (Resolver.ofHistory a history).perform keys q =
      (Resolver.ofHistory a history).performAt n q := by
  have hstart : (Resolver.ofHistory a history).tree.rootNode.walk? keys = some n := hn
  rw [Resolver.perform, hstart]

theorem notices_perform (history : List Diagnostic) {keys : List String} {n : Node}
    (hn : a.tree.rootNode.walk? keys = some n) (q : Request) :
    ((Resolver.ofHistory a history).perform keys q).notices.filter Notice.isOfLog =
      logNotices a.policy.maxDiagnostics history.length (q.steps a n) := by
  rw [perform_ofHistory a history hn]
  by_cases hq : q = .drain
  · subst hq
    rfl
  · exact (records_performAt a history n hq).notices

/-- After a call, the log is the one that the longer history leaves. -/
theorem resolver_perform (history : List Diagnostic) (c : Call) :
    ((Resolver.ofHistory a history).perform c.start c.request).value.2 =
      .ofHistory a (c.extend a history) := by
  obtain ⟨i, keys, q⟩ := c
  dsimp only [Call.extend]
  cases hn : a.tree.rootNode.walk? keys with
  | none =>
      have hstart : (Resolver.ofHistory a history).tree.rootNode.walk? keys = none := hn
      rw [Resolver.perform, hstart]
  | some n =>
      rw [perform_ofHistory a history hn]
      by_cases hq : q = .drain
      · subst hq
        exact congrArg (Resolver.mk a.tree a.policy) (Diagnostics.drain_ofHistory _ history)
      · rw [(records_performAt a history n hq).resolver]
        dsimp only
        split
        · exact absurd rfl hq
        · rfl

theorem accounts_ofHistory (history : List Diagnostic) :
    (Resolver.ofHistory a history).Accounts a history where
  tree := rfl
  policy := rfl
  kept := by
    have hdrop : history.length - min history.length a.policy.maxDiagnostics =
        history.length - a.policy.maxDiagnostics := by omega
    rw [hdrop]
    rfl
  count := Diagnostics.length_kept_ofHistory _ _
  dropped := by
    show history.length - a.policy.maxDiagnostics = _
    omega
  shown := fun keys n hn => perform_ofHistory a history hn _
  drained := by
    intro keys n hn
    rw [perform_ofHistory a history hn]
    exact ⟨rfl, rfl, rfl⟩
  unchanged := by
    intro keys n q hn hq hnone
    have hrecorded : q.recorded a n = [] := by
      rw [← List.perm_nil, ← hnone]
      exact q.recorded_perm a n
    rw [perform_ofHistory a history hn, (records_performAt a history n hq).resolver]
    show Resolver.ofHistory a (history ++ q.recorded a n) = _
    rw [hrecorded, List.append_nil]
  extended := by
    intro keys n q hn hq
    rw [perform_ofHistory a history hn, (records_performAt a history n hq).resolver]
    rfl
  notices := fun keys n q hn => notices_perform a history hn q
  errors := by
    intro keys n q hn
    rw [notices_perform a history hn, countP_logNotices rfl, q.countP_steps a n,
      countP_error_notice]
  debugs := by
    intro keys n q hn
    rw [notices_perform a history hn, countP_logNotices rfl, q.countP_steps a n,
      countP_debug_notice]
  warnings := by
    intro keys n q hn
    have hquiet := (q.countP_steps a n (·.level = .warn)).trans (countP_warn_notice _)
    rw [notices_perform a history hn, countP_warn_logNotices _ _ hquiet,
      ← (q.recorded_perm a n).length_eq]
    rfl

theorem history_append (i : Nat) (calls : List Call) (c : Call) :
    history a i (calls ++ [c]) =
      if c.resolver = i then c.extend a (history a i calls) else history a i calls := by
  rw [history, List.filter_append, List.foldl_append]
  by_cases hi : c.resolver = i <;> simp [hi, history]

/-- A call changes the resolver that it is put to, and no other. -/
theorem Session.getElem?_call (s : Session) (c : Call) (i : Nat) :
    (s.call c)[i]? = s[i]?.map fun r =>
      if c.resolver = i then (r.perform c.start c.request).value.2 else r := by
  rw [call, perform]
  cases hc : s[c.resolver]? with
  | none =>
      by_cases hi : c.resolver = i
      · rw [← hi, hc]
        exact hc
      · simp [hi]
  | some r =>
      show (s.set c.resolver (r.perform c.start c.request).value.2)[i]? = _
      rw [List.getElem?_set]
      by_cases hi : c.resolver = i
      · have hlt : c.resolver < s.length := (List.getElem?_eq_some_iff.mp hc).1
        rw [if_pos hi, if_pos hlt, ← hi, hc, Option.map_some, if_pos rfl]
      · simp [hi]

/-- By induction on the calls, each log is what the calls to its own resolver leave. -/
theorem Session.getElem?_after (resolvers : Nat) (calls : List Call) (i : Nat) :
    ((start a resolvers).after calls)[i]? =
      if i < resolvers then some (.ofHistory a (history a i calls)) else none := by
  induction calls using List.reverseRecOn with
  | nil =>
      have hfresh : Resolver.ofAtlas a = Resolver.ofHistory a [] := by
        simp [Resolver.ofAtlas, Resolver.ofHistory, Diagnostics.ofHistory]
      show (List.replicate resolvers (Resolver.ofAtlas a))[i]? = _
      rw [List.getElem?_replicate, hfresh]
      rfl
  | append_singleton calls c ih =>
      have hafter : (start a resolvers).after (calls ++ [c]) =
          ((start a resolvers).after calls).call c := by
        rw [after, List.foldl_append]
        rfl
      rw [hafter, getElem?_call, ih, history_append]
      by_cases hi : i < resolvers
      · rw [if_pos hi, if_pos hi, Option.map_some]
        by_cases hc : c.resolver = i
        · rw [if_pos hc, if_pos hc, resolver_perform]
        · rw [if_neg hc, if_neg hc]
      · rw [if_neg hi, if_neg hi, Option.map_none]

end

/-- How the requests that start at a node get their failures into the log. -/
structure Atlas.Recording (a : Atlas) (n : Node) : Prop where
  /-- The unexpected failures of a request get there, all of them and no others. -/
  recorded : ∀ q : Request, (q.recorded a n).Perm (unexpected (q.failures a n))
  /-- They get there in the order in which they are asked for, but for those of a batch. -/
  inOrder : ∀ q : Request, (∀ paths turns, q ≠ .batch paths turns) →
    q.recorded a n = unexpected (q.failures a n)
  /-- Those of a batch get there as its workers get on, and that may be in any order. -/
  anyOrder : ∀ paths steps,
    Interleaves (paths.map fun path => Lookup.steps a.policy ⟨a.tree.rootNode, path⟩) steps ↔
      ∃ turns, (Request.batch paths turns).steps a n = steps

theorem recording (a : Atlas) (n : Node) : a.Recording n where
  recorded := fun q => q.recorded_perm a n
  inOrder := fun _ => Request.recorded_of_not_batch a n
  anyOrder := by
    intro paths steps
    rw [interleaves_iff]
    refine exists_congr fun turns => ?_
    rw [Request.steps, Request.lookups, List.map_map]
    rfl

/-- Whatever was asked, and in whatever turns, each log is accounted for by the history of its
resolver, and a call to another resolver does not touch it. -/
theorem Session.accounts_after (a : Atlas) (resolvers : Nat) (calls : List Call) {i : Nat}
    (hi : i < resolvers) :
    (∃ r, ((start a resolvers).after calls)[i]? = some r ∧ r.Accounts a (history a i calls)) ∧
      (∀ c : Call, c.resolver ≠ i →
        ((start a resolvers).after (calls ++ [c]))[i]? = ((start a resolvers).after calls)[i]?) ∧
      ∀ n, a.Recording n := by
  refine ⟨⟨_, ?_, accounts_ofHistory a (history a i calls)⟩, fun c hc => ?_, recording a⟩
  · rw [getElem?_after, if_pos hi]
  · rw [getElem?_after, getElem?_after, history_append, if_neg hc]

/-- The small log, where there is room for one failure and one field is known to be missing. -/
def sampleAtlas : Atlas :=
  ⟨Tree.sampleTree, { maxDiagnostics := 1, outsideFields := ["is_train"] }⟩

/-- Two failures that count at one resolver, and a third at another.  Of those two the later is
kept.  That is the second path, unless the worker for it gets to the log before the first one
does. -/
theorem Session.accounts_after_turns :
    (∃ r, ((start sampleAtlas 2).after [⟨0, [], .resolve "log.a"⟩, ⟨0, [], .resolve "log.is_train"⟩,
        ⟨0, [], .resolve "log.b"⟩, ⟨1, [], .resolve "log.c"⟩])[0]? = some r ∧
      r.log.kept = [⟨"log.b", .noField "log" "b"⟩] ∧ r.log.dropped = 1) ∧
    ∃ r, ((start sampleAtlas 2).after [⟨0, [], .batch ["log.a", "log.b"] [0, 1, 1, 0]⟩])[0]? =
        some r ∧
      r.log.kept = [⟨"log.a", .noField "log" "a"⟩] ∧ r.log.dropped = 1 := by
  constructor
  · obtain ⟨⟨r, hr, haccounts⟩, -⟩ := accounts_after sampleAtlas 2 [⟨0, [], .resolve "log.a"⟩,
      ⟨0, [], .resolve "log.is_train"⟩, ⟨0, [], .resolve "log.b"⟩, ⟨1, [], .resolve "log.c"⟩]
      (i := 0) (by decide)
    have hhistory : history sampleAtlas 0 [⟨0, [], .resolve "log.a"⟩,
        ⟨0, [], .resolve "log.is_train"⟩, ⟨0, [], .resolve "log.b"⟩, ⟨1, [], .resolve "log.c"⟩] =
          [⟨"log.a", .noField "log" "a"⟩, ⟨"log.b", .noField "log" "b"⟩] := by
      decide +kernel
    rw [hhistory] at haccounts
    exact ⟨r, hr, haccounts.kept, haccounts.dropped⟩
  · obtain ⟨⟨r, hr, haccounts⟩, -⟩ := accounts_after sampleAtlas 2
      [⟨0, [], .batch ["log.a", "log.b"] [0, 1, 1, 0]⟩] (i := 0) (by decide)
    have hhistory : history sampleAtlas 0 [⟨0, [], .batch ["log.a", "log.b"] [0, 1, 1, 0]⟩] =
        [⟨"log.b", .noField "log" "b"⟩, ⟨"log.a", .noField "log" "a"⟩] := by
      decide +kernel
    rw [hhistory] at haccounts
    exact ⟨r, hr, haccounts.kept, haccounts.dropped⟩

end FieldAtlas
