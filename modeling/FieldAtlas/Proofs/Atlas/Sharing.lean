import FieldAtlas.Atlas
import FieldAtlas.Proofs.Tree.Invariant

/-!
# `Sharing` — the first build that succeeds is the one that everybody gets

A process asks for the shared atlas in three ways: with a loader at hand, as something that has
to be there, and as something that may be missing.  What a request gets depends on the requests
before it only through the slot, and of those only one counts: the first that could build an
atlas.  `AtlasSlot.after_eq_or` says so, by induction on the requests.

A failed build is the case that needs care.  It must leave the slot empty, or the next request
with a better loader would find a slot that nobody can fill any more.
-/

namespace FieldAtlas

/-- A request for the shared atlas. -/
inductive SlotRequest where
  | init (root : String) (load : Unit → Option Message) (v : Vocabulary) (p : Policy)
  | get
  /-- Asks whether there is one. -/
  | peek

/-- What comes back from a request. -/
inductive SlotReply where
  | shared (a : Atlas)
  | absent
  /-- The request does not return. -/
  | fault (why : SlotFault)

namespace SlotReply

def ofExcept : Except SlotFault Atlas → SlotReply
  | .ok a => shared a
  | .error why => fault why

def ofOption : Option Atlas → SlotReply
  | some a => shared a
  | none => absent

end SlotReply

/-- What a request comes to: its reply, the slot it leaves, and how often its loader was called. -/
structure SlotEffect where
  reply : SlotReply
  slot : AtlasSlot
  loads : Nat

namespace SlotRequest

/-- Puts a request to the slot. -/
def perform (slot : AtlasSlot) : SlotRequest → Noted SlotEffect
  | init root load v p =>
    (fun answer => ⟨.ofExcept answer.result, answer.slot, answer.loads⟩) <$>
      slot.init root load v p
  | get => pure ⟨.ofExcept slot.get, slot, 0⟩
  | peek => pure ⟨.ofOption slot, slot, 0⟩

/-- The atlas that a request could fill an empty slot with. -/
def built? : SlotRequest → Option Atlas
  | init root load v p => (Atlas.build root (load ()) v p).value.toOption
  | get | peek => none

end SlotRequest

/-- The slot after requests, the first of them first. -/
def AtlasSlot.after (slot : AtlasSlot) (requests : List SlotRequest) : AtlasSlot :=
  requests.foldl (fun s c => (c.perform s).value.slot) slot

/-! ## One request -/

/-- A build fails for want of a description or because of the shape of its root, and for nothing
else. -/
theorem Atlas.value_build (root : String) (m : Option Message) (v : Vocabulary) (p : Policy) :
    (Atlas.build root m v p).value =
      match m with
      | none => .error (.noRoot root)
      | some type =>
        match v.classify type with
        | .structural => .ok ⟨.ofEntries (Tree.rootBranch v root type).value, p⟩
        | found => .error (.shapedRoot type.name found) := by
  cases m with
  | none => rfl
  | some type =>
      rw [Atlas.build, Noted.value_map, Tree.build]
      cases hclass : v.classify type <;> simp only [hclass] <;> rfl

namespace SlotRequest

/-- Whoever finds the slot filled gets what is there, and nothing else happens. -/
theorem perform_some (a : Atlas) (c : SlotRequest) :
    c.perform (some a) = ⟨⟨.shared a, some a, 0⟩, []⟩ := by
  cases c <;> rfl

/-- On an empty slot the loader is called once, and only a finished atlas is kept. -/
theorem value_perform_init_none (root : String) (load : Unit → Option Message) (v : Vocabulary)
    (p : Policy) :
    ((init root load v p).perform none).value =
      match (Atlas.build root (load ()) v p).value with
      | .ok a => ⟨.shared a, some a, 1⟩
      | .error reason => ⟨.fault (.buildFailed reason), none, 1⟩ := by
  have hfill : ((AtlasSlot.fill none root load v p).run 0).value =
      ((AtlasSlot.keep root (Atlas.build root (load ()) v p).value).value, 1) := rfl
  rw [perform, Noted.value_map, AtlasSlot.init, Noted.value_bind, hfill]
  cases (Atlas.build root (load ()) v p).value <;> rfl

/-- What a request leaves is what was there, or else what it could build. -/
theorem slot_perform (slot : AtlasSlot) (c : SlotRequest) :
    (c.perform slot).value.slot = slot.or c.built? := by
  cases slot with
  | some a => rw [perform_some, Option.some_or]
  | none =>
      rw [Option.none_or]
      cases c with
      | init root load v p =>
          rw [value_perform_init_none, built?]
          cases (Atlas.build root (load ()) v p).value <;> rfl
      | get => rfl
      | peek => rfl

end SlotRequest

/-! ## Any number of requests -/

namespace AtlasSlot

/-- By induction on the requests, the first one that could build an atlas fills the slot. -/
theorem after_eq_or (slot : AtlasSlot) (requests : List SlotRequest) :
    slot.after requests = slot.or (requests.findSome? (·.built?)) := by
  induction requests generalizing slot with
  | nil => exact (Option.or_none).symm
  | cons c rest ih =>
      have hstep : slot.after (c :: rest) = after (slot.or c.built?) rest := by
        rw [← c.slot_perform]
        rfl
      rw [hstep, ih, Option.or_assoc, List.findSome?_cons]
      cases c.built? <;> rfl

/-- Whatever was asked, the slot holds what the first successful request has built, and everybody
gets that.  As long as there is no such request the slot is empty: then there is nothing to get,
and a request with a loader calls it once and succeeds if the description has a tree.  On a filled
slot no loader is called. -/
theorem shared_after (front : List SlotRequest) :
    let slot := AtlasSlot.after none front
    match front.findSome? (·.built?) with
    | some a => slot = some a ∧
        ∀ c : SlotRequest, c.perform slot = ⟨⟨.shared a, some a, 0⟩, []⟩
    | none => slot = none ∧
        (SlotRequest.peek.perform slot).value = ⟨.absent, none, 0⟩ ∧
        (SlotRequest.get.perform slot).value = ⟨.fault .empty, none, 0⟩ ∧
        ∀ root load v p, ((SlotRequest.init root load v p).perform slot).value =
          match load () with
          | none => ⟨.fault (.buildFailed (.noRoot root)), none, 1⟩
          | some m =>
            match v.classify m with
            | .structural =>
              let a : Atlas := ⟨.ofEntries (Tree.rootBranch v root m).value, p⟩
              ⟨.shared a, some a, 1⟩
            | found => ⟨.fault (.buildFailed (.shapedRoot m.name found)), none, 1⟩ := by
  intro slot
  have hslot : slot = front.findSome? (·.built?) := after_eq_or none front
  cases hfirst : front.findSome? (·.built?) with
  | some a =>
      rw [hslot, hfirst]
      exact ⟨rfl, fun c => c.perform_some a⟩
  | none =>
      rw [hslot, hfirst]
      refine ⟨rfl, rfl, rfl, fun root load v p => ?_⟩
      rw [SlotRequest.value_perform_init_none, Atlas.value_build]
      cases load () with
      | none => rfl
      | some m => cases hclass : v.classify m <;> simp only [hclass]

/-- A loader that finds nothing and a root that is a bag leave the slot open for the third. -/
example :
    AtlasSlot.after none
        [.peek, .init "log" (fun _ => none) {} {}, .init "log" (fun _ => some sampleLabels) {} {},
          .init "log" (fun _ => some sampleLog) {} {}, .get,
          .init "other" (fun _ => some sampleLog) {} {}] =
      some ⟨Tree.sampleTree, {}⟩ :=
  rfl

end AtlasSlot

end FieldAtlas
