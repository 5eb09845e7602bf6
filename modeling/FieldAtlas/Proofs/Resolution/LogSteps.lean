import FieldAtlas.Resolution.Diagnostics
import Mathlib.Data.List.Basic

/-!
# `LogSteps` — steps on a log, told from the failures that were pushed

Whoever puts failures into a log does so in steps, and other steps may come in between.  What a
step does to a log depends on the failures that were pushed before it, and on nothing else of what
has happened: the log that is left by a *history* of failures is `Diagnostics.ofHistory`, and
`run_ofHistory` says what steps leave of it and what they report, for any steps in any order.

So the counts of what is reported are counts over steps, and do not depend on their order.
-/

namespace FieldAtlas

/-- Those failures that a log counts. -/
def unexpected (failures : List Diagnostic) : List Diagnostic :=
  failures.filter (!·.failure.isExpected)

/-- The failure that a step puts into the log. -/
def LogStep.pushed? : LogStep → Option Diagnostic
  | report _ => none
  | push d => some d

/-- The failures that steps put into the log, in order. -/
def pushed (steps : List LogStep) : List Diagnostic := steps.filterMap LogStep.pushed?

/-- What a log reports, and nothing else does. -/
def Notice.isOfLog : Notice → Bool
  | skippedPath _ | unresolved _ _ | logFull _ => true
  | _ => false

/-- What is reported in steps on a log with room for `capacity` and with `count` failures in its
history.  The first failure for which there is no room is the one that finds it just full. -/
def logNotices (capacity : Nat) : (count : Nat) → List LogStep → List Notice
  | _, [] => []
  | count, .report n :: rest => n :: logNotices capacity count rest
  | count, .push _ :: rest =>
    (if count = capacity ∧ capacity ≠ 0 then [.logFull capacity] else []) ++
      logNotices capacity (count + 1) rest

/-! ## One step -/

namespace Diagnostics

/-- The log that a history leaves. -/
def ofHistory (capacity : Nat) (history : List Diagnostic) : Diagnostics where
  capacity
  kept := history.drop (history.length - capacity)
  dropped := history.length - capacity

theorem length_kept_ofHistory (capacity : Nat) (history : List Diagnostic) :
    (ofHistory capacity history).kept.length = min history.length capacity := by
  simp only [ofHistory, List.length_drop]
  omega

/-- A new failure goes to the end, and the oldest goes if there is no room. -/
theorem push_ofHistory (capacity : Nat) (history : List Diagnostic) (d : Diagnostic) :
    (ofHistory capacity history).push d = ⟨ofHistory capacity (history ++ [d]),
      if history.length = capacity ∧ capacity ≠ 0 then [.logFull capacity] else []⟩ := by
  have hlength := length_kept_ofHistory capacity history
  have hroom : (ofHistory capacity history).capacity = capacity := rfl
  rw [push, hroom, hlength]
  by_cases hzero : capacity = 0
  · subst hzero
    simp [ofHistory]
  · by_cases hfree : history.length < capacity
    · have hkept : history.length - capacity = 0 := by omega
      have hmore : history.length + 1 - capacity = 0 := by omega
      have hfull : ¬ history.length = capacity := by omega
      have hmin : min history.length capacity < capacity := by omega
      simp [ofHistory, hzero, hfull, hmin, hkept, hmore]
    · have hmin : ¬ min history.length capacity < capacity := by omega
      have hmore : history.length + 1 - capacity = history.length - capacity + 1 := by omega
      have hdropped : history.length - capacity = 0 ↔ history.length = capacity := by omega
      have htail : history.drop (history.length - capacity + 1) ++ [d] =
          (history ++ [d]).drop (history.length - capacity + 1) := by
        rw [List.drop_append_of_le_length (by omega)]
      simp [ofHistory, hzero, hmin, hmore, hdropped, htail]

end Diagnostics

theorem pushed_nil : pushed [] = [] := rfl

theorem pushed_report (n : Notice) (steps : List LogStep) :
    pushed (.report n :: steps) = pushed steps := rfl

theorem pushed_push (d : Diagnostic) (steps : List LogStep) :
    pushed (.push d :: steps) = d :: pushed steps := rfl

theorem pushed_append (first last : List LogStep) :
    pushed (first ++ last) = pushed first ++ pushed last :=
  List.filterMap_append

theorem logNotices_append {capacity : Nat} (last : List LogStep) :
    ∀ (count : Nat) (first : List LogStep), logNotices capacity count (first ++ last) =
      logNotices capacity count first ++ logNotices capacity (count + (pushed first).length) last
  | _, [] => rfl
  | count, .report n :: first => congrArg (n :: ·) (logNotices_append last count first)
  | count, .push d :: first => by
      have hcount : count + (pushed (.push d :: first)).length =
          count + 1 + (pushed first).length := by
        rw [pushed_push, List.length_cons]
        omega
      rw [List.cons_append, logNotices, logNotices, logNotices_append last (count + 1) first,
        hcount, List.append_assoc]

namespace Diagnostics

/-- A step is one of the history. -/
theorem step_ofHistory (capacity : Nat) (history : List Diagnostic) (s : LogStep) :
    (ofHistory capacity history).step s =
      ⟨ofHistory capacity (history ++ pushed [s]), logNotices capacity history.length [s]⟩ := by
  cases s with
  | report n =>
      rw [pushed_report, pushed_nil, List.append_nil]
      rfl
  | push d =>
      rw [step, push_ofHistory, logNotices, logNotices, List.append_nil]
      rfl

/-- What steps leave is told by the failures that they push, and what they report by how many there
were before. -/
theorem run_ofHistory (capacity : Nat) (history : List Diagnostic) (steps : List LogStep) :
    (ofHistory capacity history).run steps =
      ⟨ofHistory capacity (history ++ pushed steps),
        logNotices capacity history.length steps⟩ := by
  induction steps generalizing history with
  | nil =>
      rw [pushed_nil, List.append_nil]
      rfl
  | cons s rest ih =>
      have hsplit : s :: rest = [s] ++ rest := rfl
      rw [run, step_ofHistory, hsplit, pushed_append, logNotices_append, ← List.append_assoc,
        ← List.length_append]
      show Noted.mk ((ofHistory _ _).run rest).value (_ ++ ((ofHistory _ _).run rest).notices) = _
      rw [ih]

theorem drain_ofHistory (capacity : Nat) (history : List Diagnostic) :
    (ofHistory capacity history).drain = ofHistory capacity [] := by
  simp [ofHistory, drain]

end Diagnostics

/-! ## Notices -/

/-- Whether a step has to do with the log. -/
def LogStep.isOfLog : LogStep → Bool
  | report n => n.isOfLog
  | push _ => true

/-- Whether a step reports something of a kind. -/
def LogStep.reports (kind : Notice → Bool) : LogStep → Bool
  | report n => kind n
  | push _ => false

section

variable {capacity : Nat}

/-- What has nothing to do with the log may be left out of the steps. -/
theorem filter_logNotices : ∀ (count : Nat) (steps : List LogStep),
    (logNotices capacity count steps).filter Notice.isOfLog =
      logNotices capacity count (steps.filter LogStep.isOfLog)
  | _, [] => rfl
  | count, .report n :: rest => by
      rw [logNotices, List.filter_cons, List.filter_cons, filter_logNotices count rest]
      cases h : n.isOfLog <;> simp [LogStep.isOfLog, h, logNotices]
  | count, .push d :: rest => by
      have hfull : (if count = capacity ∧ capacity ≠ 0 then
          [Notice.logFull capacity] else []).filter Notice.isOfLog =
            if count = capacity ∧ capacity ≠ 0 then [.logFull capacity] else [] := by
        split <;> rfl
      have hpush : (LogStep.push d).isOfLog = true := rfl
      rw [logNotices, List.filter_append, hfull, List.filter_cons_of_pos hpush,
        filter_logNotices (count + 1) rest, logNotices]

theorem pushed_filter (steps : List LogStep) :
    pushed (steps.filter LogStep.isOfLog) = pushed steps := by
  rw [pushed, pushed, List.filterMap_filter]
  refine List.filterMap_congr fun s _ => ?_
  cases s with
  | report n => cases h : LogStep.isOfLog (.report n) <;> rfl
  | push d => rfl

/-- Of any kind but the warnings, there is a notice for each step that reports one. -/
theorem countP_logNotices {kind : Notice → Bool} (hkind : kind (.logFull capacity) = false) :
    ∀ (count : Nat) (steps : List LogStep),
      (logNotices capacity count steps).countP kind = steps.countP (LogStep.reports kind)
  | _, [] => rfl
  | count, .report n :: rest => by
      rw [logNotices, List.countP_cons, List.countP_cons, countP_logNotices hkind count rest]
      rfl
  | count, .push d :: rest => by
      have hpush : ¬ (LogStep.push d).reports kind = true := by simp [LogStep.reports]
      have hfull : (if count = capacity ∧ capacity ≠ 0 then
          [Notice.logFull capacity] else []).countP kind = 0 := by
        split <;> simp [hkind]
      rw [logNotices, List.countP_append, hfull, List.countP_cons_of_neg hpush,
        countP_logNotices hkind (count + 1) rest, Nat.zero_add]

/-- A log warns when the first failure is dropped: once between two drains, and never if it has
no room at all. -/
theorem countP_warn_logNotices :
    ∀ (count : Nat) (steps : List LogStep), steps.countP (LogStep.reports (·.level = .warn)) = 0 →
      (logNotices capacity count steps).countP (·.level = .warn) =
        if capacity ≠ 0 ∧ count ≤ capacity ∧ capacity < count + (pushed steps).length
        then 1 else 0
  | count, [], _ => by
      have hnone : ¬ (capacity ≠ 0 ∧ count ≤ capacity ∧ capacity < count + 0) := by omega
      exact (if_neg hnone).symm
  | count, .report n :: rest, hquiet => by
      rw [List.countP_cons, Nat.add_eq_zero_iff] at hquiet
      obtain ⟨hrest, hn⟩ := hquiet
      have hlevel : ¬ n.level = .warn := by
        intro hwarn
        simp [LogStep.reports, hwarn] at hn
      rw [logNotices, List.countP_cons_of_neg (by simp [hlevel]),
        countP_warn_logNotices count rest hrest]
      rfl
  | count, .push d :: rest, hquiet => by
      have hrest : rest.countP (LogStep.reports (·.level = .warn)) = 0 := by
        rw [List.countP_cons, Nat.add_eq_zero_iff] at hquiet
        exact hquiet.1
      have hfull : (if count = capacity ∧ capacity ≠ 0 then
          [Notice.logFull capacity] else []).countP (·.level = .warn) =
            if count = capacity ∧ capacity ≠ 0 then 1 else 0 := by
        split <;> rfl
      rw [logNotices, List.countP_append, countP_warn_logNotices (count + 1) rest hrest, hfull,
        pushed_push, List.length_cons]
      -- Either this failure is the one that finds the log just full, or a later one may be.
      by_cases hnow : count = capacity ∧ capacity ≠ 0
      · rw [if_pos hnow, if_neg (by omega), if_pos (by omega)]
      · rw [if_neg hnow]
        by_cases hlater : capacity ≠ 0 ∧ count + 1 ≤ capacity ∧
            capacity < count + 1 + (pushed rest).length
        · rw [if_pos hlater, if_pos (by omega)]
        · rw [if_neg hlater, if_neg (by omega)]

end

/-! ## The steps of a failure -/

theorem Diagnostic.level_notice (d : Diagnostic) :
    d.notice.level = if d.failure.isExpected then .debug else .error := by
  rw [notice]
  split <;> rfl

theorem Diagnostic.isOfLog_notice (d : Diagnostic) : d.notice.isOfLog = true := by
  rw [notice]
  split <;> rfl

theorem pushed_recording (failures : List Diagnostic) :
    pushed (failures.flatMap Diagnostic.recording) = unexpected failures := by
  induction failures with
  | nil => rfl
  | cons d rest ih =>
      rw [List.flatMap_cons, pushed_append, ih, Diagnostic.recording, pushed_report, unexpected,
        unexpected, List.filter_cons]
      cases d.failure.isExpected with
      | true => rfl
      | false => rfl

/-- One notice is recorded with each failure. -/
theorem countP_recording (kind : Notice → Bool) (failures : List Diagnostic) :
    (failures.flatMap Diagnostic.recording).countP (LogStep.reports kind) =
      failures.countP (kind ·.notice) := by
  induction failures with
  | nil => rfl
  | cons d rest ih =>
      have hpush : (if d.failure.isExpected = true then [] else
          [LogStep.push d]).countP (LogStep.reports kind) = 0 := by
        split <;> rfl
      rw [List.flatMap_cons, List.countP_append, ih, Diagnostic.recording, List.countP_cons, hpush,
        List.countP_cons, Nat.zero_add, Nat.add_comm]
      rfl

/-- An unexpected failure is an error. -/
theorem countP_error_notice (failures : List Diagnostic) :
    failures.countP (·.notice.level = .error) = (unexpected failures).length := by
  rw [unexpected, ← List.countP_eq_length_filter]
  refine List.countP_congr fun d _ => ?_
  rw [d.level_notice]
  cases d.failure.isExpected <;> simp

/-- An expected one is a message for debugging. -/
theorem countP_debug_notice (failures : List Diagnostic) :
    failures.countP (·.notice.level = .debug) = failures.countP (·.failure.isExpected) := by
  refine List.countP_congr fun d _ => ?_
  rw [d.level_notice]
  cases d.failure.isExpected <;> simp

/-- No failure is a warning by itself. -/
theorem countP_warn_notice (failures : List Diagnostic) :
    failures.countP (·.notice.level = .warn) = 0 := by
  rw [List.countP_eq_zero]
  intro d _
  rw [d.level_notice]
  cases d.failure.isExpected <;> simp

theorem isOfLog_of_mem_recording {failures : List Diagnostic} {s : LogStep}
    (h : s ∈ failures.flatMap Diagnostic.recording) : s.isOfLog = true := by
  obtain ⟨d, -, hs⟩ := List.mem_flatMap.mp h
  rw [Diagnostic.recording] at hs
  rcases List.mem_cons.mp hs with rfl | hs
  · exact d.isOfLog_notice
  · split at hs
    · cases hs
    · rw [List.mem_singleton.mp hs]
      rfl

end FieldAtlas
