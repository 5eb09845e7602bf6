/-!
# `interleave` — the steps of several workers in one order

Each worker has its steps to do in order, and nothing is said of how one worker gets on beside
another.  What decides that is a list of turns: at each turn the named worker does its next step,
and a turn goes by unused if there is no such worker or nothing is left for it.  When the turns
are used up the workers finish one after the other, so that without any turn there is in effect
one worker for everything.
-/

namespace FieldAtlas

/-- The steps of the workers in the order in which they happen. -/
def interleave {α : Type} : (workers : List (List α)) → (turns : List Nat) → List α
  | workers, [] => workers.flatten
  | workers, i :: turns =>
    match workers[i]? with
    | some (step :: rest) => step :: interleave (workers.set i rest) turns
    | some [] | none => interleave workers turns

end FieldAtlas
