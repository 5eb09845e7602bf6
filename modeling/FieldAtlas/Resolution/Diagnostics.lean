import FieldAtlas.Notice

/-!
# `Diagnostics` — the failures that a resolver keeps

A bounded log.  Failures that are expected are mentioned and not kept.  Any other is kept, and
where there is no room the oldest makes way and counts as dropped.  The first drop since the
log was last drained is reported once.  A log without any room drops each failure at once
and reports none of the drops.

Several workers may use one log.  Nobody else gets at it while a failure is put in, but a failure
is reported before that, so `recording` is a list of steps and not one.
-/

namespace FieldAtlas

/-- A failure and the path that met it. -/
structure Diagnostic where
  path : String
  failure : Failure
  deriving DecidableEq, Repr

namespace Diagnostic

def text (d : Diagnostic) : String := d.path ++ ": " ++ d.failure.message

/-- What is reported of a failure. -/
def notice (d : Diagnostic) : Notice :=
  if d.failure.isExpected then .skippedPath d.path else .unresolved d.path d.failure

end Diagnostic

/-- What happens at once, with nothing in between. -/
inductive LogStep where
  | report (n : Notice)
  /-- Puts a failure into the log. -/
  | push (d : Diagnostic)
  deriving DecidableEq, Repr

/-- The steps in which note is taken of a failure. -/
def Diagnostic.recording (d : Diagnostic) : List LogStep :=
  .report d.notice :: if d.failure.isExpected then [] else [.push d]

/-- A log of failures with room for `capacity` of them. -/
structure Diagnostics where
  capacity : Nat
  /-- What is kept, oldest first. -/
  kept : List Diagnostic := []
  /-- How many were not kept since the log was last drained. -/
  dropped : Nat := 0
  deriving DecidableEq, Repr

namespace Diagnostics

/-- Adds a failure at the end and lets the oldest go where the log is full. -/
def push (log : Diagnostics) (d : Diagnostic) : Noted Diagnostics :=
  if log.capacity = 0 then ⟨{ log with dropped := log.dropped + 1 }, []⟩
  else if log.kept.length < log.capacity then ⟨{ log with kept := log.kept ++ [d] }, []⟩
  else
    ⟨{ log with kept := log.kept.tail ++ [d], dropped := log.dropped + 1 },
      if log.dropped = 0 then [.logFull log.capacity] else []⟩

/-- Does one step. -/
def step (log : Diagnostics) : LogStep → Noted Diagnostics
  | .report n => ⟨log, [n]⟩
  | .push d => log.push d

/-- Does steps one after the other. -/
def run (log : Diagnostics) : List LogStep → Noted Diagnostics
  | [] => return log
  | s :: rest => do (← log.step s).run rest

/-- The log emptied, its count of drops included. -/
def drain (log : Diagnostics) : Diagnostics := { capacity := log.capacity }

end Diagnostics

end FieldAtlas
