import FieldAtlas.Tree.Construction

/-!
# `Preorder` — what numbering in preorder says about places

A tree stores no parent links and no table of nodes.  Both are recovered here from the way
in which places are listed:

* the places of a tree are its root and whatever lies one step below a place, so a property
  of places is proved by one induction, `Rose.places_induction`;
* a numbered tree lists its places under consecutive numbers (`Rose.ids_number`), so the number
  of a place is its index and no two places share one;
* a step down goes to a larger number (`Rose.id_lt_of_mem_below`), which is what makes every
  climb to the root end.
-/

namespace FieldAtlas

namespace Rose

variable {α : Type}

/-! ## Places and steps -/

theorem place_mem_forestPlaces {above : List α} {t : Rose α} :
    ∀ {ts : List (Rose α)}, t ∈ ts → t.place above ∈ forestPlaces above ts
  | u :: us, h => by
      rw [forestPlaces, List.mem_append]
      rcases List.mem_cons.mp h with rfl | h
      · cases t with
        | node a ts => exact Or.inl List.mem_cons_self
      · exact Or.inr (place_mem_forestPlaces h)

theorem root_mem_places (above : List α) (t : Rose α) : t.place above ∈ t.places above := by
  cases t with
  | node a ts => exact List.mem_cons_self

mutual
/-- A step down from a place of the tree leads to a place of the tree. -/
theorem mem_places_of_mem_below {above : List α} {p c : Place α} :
    ∀ {t : Rose α}, p ∈ t.places above → c ∈ p.below → c ∈ t.places above
  | node a ts, hp, hc => by
      rcases List.mem_cons.mp hp with rfl | hp
      · obtain ⟨u, hu, rfl⟩ := List.mem_map.mp hc
        exact List.mem_cons_of_mem _ (place_mem_forestPlaces hu)
      · exact List.mem_cons_of_mem _ (mem_forestPlaces_of_mem_below hp hc)

theorem mem_forestPlaces_of_mem_below {above : List α} {p c : Place α} :
    ∀ {ts : List (Rose α)}, p ∈ forestPlaces above ts → c ∈ p.below → c ∈ forestPlaces above ts
  | t :: ts, hp, hc => by
      rw [forestPlaces, List.mem_append] at hp ⊢
      rcases hp with hp | hp
      · exact Or.inl (mem_places_of_mem_below hp hc)
      · exact Or.inr (mem_forestPlaces_of_mem_below hp hc)
end

mutual
theorem forall_mem_places {P : Place α → Prop} (step : ∀ p, P p → ∀ c ∈ p.below, P c)
    {above : List α} :
    ∀ {t : Rose α}, P (t.place above) → ∀ p ∈ t.places above, P p
  | node a ts, root, p, hp => by
      rcases List.mem_cons.mp hp with rfl | hp
      · exact root
      · refine forall_mem_forestPlaces step (fun u hu => ?_) p hp
        exact step _ root _ (List.mem_map_of_mem hu)

theorem forall_mem_forestPlaces {P : Place α → Prop} (step : ∀ p, P p → ∀ c ∈ p.below, P c)
    {above : List α} :
    ∀ {ts : List (Rose α)}, (∀ t ∈ ts, P (t.place above)) → ∀ p ∈ forestPlaces above ts, P p
  | t :: ts, roots, p, hp => by
      rw [forestPlaces, List.mem_append] at hp
      rcases hp with hp | hp
      · exact forall_mem_places step (roots t List.mem_cons_self) p hp
      · exact forall_mem_forestPlaces step (fun u hu => roots u (List.mem_cons_of_mem _ hu)) p hp
end

/-- A property holds of every place if it holds of the root and every step down keeps it. -/
theorem places_induction {P : Place α → Prop} {above : List α} {t : Rose α}
    (root : P (t.place above)) (step : ∀ p ∈ t.places above, P p → ∀ c ∈ p.below, P c) :
    ∀ p ∈ t.places above, P p := by
  intro p hp
  have key : ∀ q ∈ t.places above, q ∈ t.places above ∧ P q :=
    forall_mem_places (P := fun q => q ∈ t.places above ∧ P q)
      (fun q hq c hc => ⟨mem_places_of_mem_below hq.1 hc, step q hq.1 hq.2 c hc⟩)
      ⟨root_mem_places above t, root⟩
  exact (key p hp).2

/-- Every place but the root is one step below another. -/
theorem eq_root_or_mem_below {above : List α} {t : Rose α} :
    ∀ p ∈ t.places above, p = t.place above ∨ ∃ q ∈ t.places above, p ∈ q.below :=
  places_induction (Or.inl rfl) fun q hq _ _ hc => Or.inr ⟨q, hq, hc⟩

/-! ## Numbers -/

mutual
/-- The places of a numbered tree have consecutive numbers. -/
theorem ids_number (above : List Label) :
    ∀ (start : Nat) (t : Rose Entry),
      ((t.number Label.mk start).places above).map (·.label.id) = List.range' start t.size
  | start, node e ts => by
      simp only [number, places, size, List.map_cons, List.range'_succ,
        ids_numberForest _ (start + 1) ts]

theorem ids_numberForest (above : List Label) :
    ∀ (start : Nat) (ts : List (Rose Entry)),
      (forestPlaces above (numberForest Label.mk start ts)).map (·.label.id) =
        List.range' start (forestSize ts)
  | _, [] => rfl
  | start, t :: ts => by
      simp only [numberForest, forestPlaces, forestSize, List.map_append,
        ids_number above start t, ids_numberForest above (start + t.size) ts,
        List.range'_append_1]
end

mutual
/-- A step down goes to a larger number. -/
theorem id_lt_of_mem_below {above : List Label} {p c : Node} :
    ∀ {start : Nat} {t : Rose Entry},
      p ∈ (t.number Label.mk start).places above → c ∈ p.below → p.id < c.id
  | start, node e ts, hp, hc => by
      rcases List.mem_cons.mp hp with rfl | hp
      · obtain ⟨u, hu, rfl⟩ := List.mem_map.mp hc
        have hmem : (u.place (⟨start, e⟩ :: above)).id ∈
            (forestPlaces (⟨start, e⟩ :: above) (numberForest Label.mk (start + 1) ts)).map
              (·.label.id) :=
          List.mem_map_of_mem (place_mem_forestPlaces hu)
        rw [ids_numberForest, List.mem_range'_1] at hmem
        exact hmem.1
      · exact id_lt_of_mem_below_forest hp hc

theorem id_lt_of_mem_below_forest {above : List Label} {p c : Node} :
    ∀ {start : Nat} {ts : List (Rose Entry)},
      p ∈ forestPlaces above (numberForest Label.mk start ts) → c ∈ p.below → p.id < c.id
  | start, t :: ts, hp, hc => by
      rw [numberForest, forestPlaces, List.mem_append] at hp
      rcases hp with hp | hp
      · exact id_lt_of_mem_below hp hc
      · exact id_lt_of_mem_below_forest hp hc
end

end Rose

end FieldAtlas
