import FieldAtlas.Interleaving
import Mathlib.Data.List.Forall2

/-!
# `Turns` — the orders in which workers can get on

`interleave` takes the turns of the workers as a list, so it is a function and can be run.  What it
stands for is a relation: an order of steps is possible if every step in it is the next one of some
worker (`Interleaves`).  `interleaves_iff` says that turns make all of these orders and no others,
so what holds for all turns holds however the workers are scheduled.

The order is open, and what is in it is not: it is always the same steps
(`interleave_perm`).  And of two sets of workers that show the same at every single step, with the
same turns the same is to be seen (`filterMap_interleave`).
-/

namespace FieldAtlas

variable {α β γ : Type} {workers : List (List α)} {steps : List α}

/-- Steps that are taken one by one, each the next of some worker, until nothing is left. -/
inductive Interleaves : List (List α) → List α → Prop where
  | done {workers : List (List α)} : (∀ w ∈ workers, w = []) → Interleaves workers []
  | step {workers : List (List α)} {i : Nat} {first : α} {rest steps : List α} :
      workers[i]? = some (first :: rest) → Interleaves (workers.set i rest) steps →
      Interleaves workers (first :: steps)

/-! ## All orders -/

/-- If the first workers are through, the others may go on one after the other. -/
theorem Interleaves.of_finished (workers : List (List α)) :
    ∀ through : List (List α), (∀ w ∈ through, w = []) →
      Interleaves (through ++ workers) workers.flatten := by
  induction workers with
  | nil =>
      intro through h
      rw [List.append_nil]
      exact .done h
  | cons w rest ih =>
      intro through h
      induction w with
      | nil =>
          have hmore : ∀ w ∈ through ++ [[]], w = [] := by
            intro w hw
            rcases List.mem_append.mp hw with hw | hw
            · exact h w hw
            · exact List.mem_singleton.mp hw
          have hrest := ih (through ++ [[]]) hmore
          rwa [List.append_assoc] at hrest
      | cons first w ihw =>
          have hnext : (through ++ (first :: w) :: rest)[through.length]? = some (first :: w) := by
            rw [List.getElem?_append_right (Nat.le_refl _), Nat.sub_self, List.getElem?_cons_zero]
          refine .step hnext ?_
          rw [List.set_append_right _ _ (Nat.le_refl _), Nat.sub_self]
          exact ihw

/-- Turns make exactly the orders in which the workers can get on. -/
theorem interleaves_iff :
    Interleaves workers steps ↔ ∃ turns, interleave workers turns = steps := by
  constructor
  · intro h
    induction h with
    | done h => exact ⟨[], List.flatten_eq_nil_iff.mpr h⟩
    | @step workers i first rest steps hnext _ ih =>
        obtain ⟨turns, hturns⟩ := ih
        refine ⟨i :: turns, ?_⟩
        rw [interleave, hnext, ← hturns]
  · rintro ⟨turns, rfl⟩
    induction turns generalizing workers with
    | nil => exact .of_finished workers [] nofun
    | cons i turns ih =>
        rw [interleave]
        split
        · next hnext => exact .step hnext ih
        · exact ih
        · exact ih

/-- The second worker begins, and from the third step on nothing is said. -/
example : interleave [[1, 2], [3, 4]] [1, 0] = [3, 1, 2, 4] := rfl

/-! ## One turn -/

/-- At each turn the next step of a worker is taken off its steps, if there is one. -/
theorem interleave_cons (i : Nat) (turns : List Nat) : interleave workers (i :: turns) =
    (workers[i]?.bind List.head?).toList ++ interleave (workers.modify i List.tail) turns := by
  rw [interleave]
  split
  · next first rest hnext =>
      rw [hnext, List.modify_eq_set, hnext]
      rfl
  · next hnext =>
      have hstill : workers.modify i List.tail = workers := by
        refine List.ext_getElem? fun j => ?_
        rw [List.getElem?_modify]
        by_cases hij : i = j
        · simp [← hij, hnext]
        · simp [hij]
      rw [hnext, hstill]
      rfl
  · next hnext =>
      rw [hnext, List.modify_eq_self (List.getElem?_eq_none_iff.mp hnext)]
      rfl

/-- What is taken in one turn was among the steps that were left. -/
theorem perm_flatten_modify : ∀ (i : Nat) (workers : List (List α)),
    ((workers[i]?.bind List.head?).toList ++ (workers.modify i List.tail).flatten).Perm
      workers.flatten
  | _, [] => by simp
  | 0, [] :: _ => List.Perm.refl _
  | 0, (_ :: _) :: _ => List.Perm.refl _
  | i + 1, w :: rest => by
      have ih := (perm_flatten_modify i rest).append_left w
      exact (List.perm_append_comm_assoc _ _ _).trans ih

/-- Whoever gets on when, in the end every worker has done its steps. -/
theorem interleave_perm (workers : List (List α)) (turns : List Nat) :
    (interleave workers turns).Perm workers.flatten := by
  induction turns generalizing workers with
  | nil => exact List.Perm.refl _
  | cons i turns ih =>
      rw [interleave_cons]
      exact ((ih _).append_left _).trans (perm_flatten_modify i workers)

/-! ## What is to be seen of the steps -/

/-- At each single step two workers show the same, where one that is through shows nothing. -/
def ShowAlike (f : α → Option γ) (g : β → Option γ) (xs : List α) (ys : List β) : Prop :=
  ∀ k : Nat, xs[k]?.bind f = ys[k]?.bind g

section

variable {f : α → Option γ} {g : β → Option γ}

namespace ShowAlike

variable {xs : List α} {ys : List β}

theorem head (h : ShowAlike f g xs ys) : xs.head?.bind f = ys.head?.bind g := by
  rw [List.head?_eq_getElem?, List.head?_eq_getElem?]
  exact h 0

theorem tail (h : ShowAlike f g xs ys) : ShowAlike f g xs.tail ys.tail := by
  intro k
  rw [List.getElem?_tail, List.getElem?_tail]
  exact h (k + 1)

/-- Who shows nothing at any step shows nothing at all. -/
theorem nil_iff : ShowAlike f g xs [] ↔ xs.filterMap f = [] := by
  rw [List.filterMap_eq_nil_iff]
  constructor
  · intro h x hx
    obtain ⟨k, hk⟩ := List.mem_iff_getElem?.mp hx
    have hshown := h k
    rwa [hk] at hshown
  · intro h k
    cases hk : xs[k]? with
    | none => rfl
    | some x => exact h x (List.mem_of_getElem? hk)

theorem filterMap_eq (h : ShowAlike f g xs ys) : xs.filterMap f = ys.filterMap g := by
  induction xs generalizing ys with
  | nil => exact (nil_iff.mp fun k => (h k).symm).symm
  | cons x xs ih =>
      cases ys with
      | nil => exact nil_iff.mp h
      | cons y ys =>
          have hhead : f x = g y := h.head
          have htail : xs.filterMap f = ys.filterMap g := ih h.tail
          rw [List.filterMap_cons, List.filterMap_cons, hhead, htail]

end ShowAlike

variable {workers : List (List α)} {workers' : List (List β)}

theorem filterMap_toList (f : α → Option γ) (o : Option α) :
    o.toList.filterMap f = (o.bind f).toList := by
  cases o with
  | none => rfl
  | some x => cases h : f x <;> simp [h]

/-- After a turn, workers that show the same at every step still do, and so did the turn. -/
theorem showAlike_turn (h : List.Forall₂ (ShowAlike f g) workers workers') (i : Nat) :
    (workers[i]?.bind List.head?).bind f = (workers'[i]?.bind List.head?).bind g ∧
      List.Forall₂ (ShowAlike f g) (workers.modify i List.tail) (workers'.modify i List.tail) := by
  induction h generalizing i with
  | nil => exact ⟨rfl, by rw [List.modify_nil, List.modify_nil]; exact .nil⟩
  | cons hfirst hrest ih =>
      cases i with
      | zero => exact ⟨hfirst.head, .cons hfirst.tail hrest⟩
      | succ i => exact ⟨(ih i).1, .cons hfirst (ih i).2⟩

/-- With the same turns, workers that show the same at every step show the same in all. -/
theorem filterMap_interleave (h : List.Forall₂ (ShowAlike f g) workers workers')
    (turns : List Nat) :
    (interleave workers turns).filterMap f = (interleave workers' turns).filterMap g := by
  induction turns generalizing workers workers' with
  | nil =>
      rw [interleave, interleave]
      induction h with
      | nil => rfl
      | cons hfirst _ ih =>
          rw [List.flatten_cons, List.flatten_cons, List.filterMap_append, List.filterMap_append,
            hfirst.filterMap_eq, ih]
  | cons i turns ih =>
      obtain ⟨hnow, hlater⟩ := showAlike_turn h i
      rw [interleave_cons, interleave_cons, List.filterMap_append, List.filterMap_append,
        filterMap_toList, filterMap_toList, hnow, ih hlater]

end

end FieldAtlas
