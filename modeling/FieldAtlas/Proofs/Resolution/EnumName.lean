import FieldAtlas.Proofs.Resolution.History
import FieldAtlas.Proofs.Tree.Origin
import FieldAtlas.Proofs.Tree.Representation

/-!
# `EnumName` — what is named like the constant of an enum

The name is put together from the type of the node above and the name of the target, and neither is
asked what it is.  Below a bag or a label map the type is that of a message that was classified as a
bag (`Tree.exists_bag`), and the name is meant for exactly these entries.

Everything else below the root gets a name as well: fields of messages, bags as a whole, and the
members of a field's enum, which are named after the message of the field.  Only the root and what
does not resolve have none (`Tree.enumName_of_path`).
-/

namespace FieldAtlas

/-- From the root, the answer is that of the target that the path leads to, if there is one. -/
theorem Resolver.value_findEnumName (r : Resolver) (path : String) :
    (r.perform [] (.findEnumName path)).value.1 =
      .text ((resolveFrom r.policy r.tree.rootNode path).toOption.bind (·.target.enumName?)) := by
  have htext : (r.lookupText r.tree.rootNode path Target.enumName?).value.1 =
      (resolveFrom r.policy r.tree.rootNode path).toOption.bind (·.target.enumName?) := by
    rw [← r.found_job]
    rfl
  rw [perform, Place.walk?]
  dsimp only
  rw [performAt, Noted.value_bind, ← htext]
  generalize (r.lookupText r.tree.rootNode path Target.enumName?).value = answered
  obtain ⟨_ | text, r⟩ := answered <;> rfl

namespace Tree

variable {v : Vocabulary} {root : String} {type : Message} {t : Tree} {n : Node}

/-- Right above a target other than the root there is a node. -/
theorem exists_parent_of_home {target : Target} (hhome : target.home ∈ t.nodes)
    (hne : target ≠ .listed t.rootNode) : ∃ q ∈ t.nodes, target.parent? = some q.label := by
  cases target with
  | synthesized bag key => exact ⟨bag, hhome, rfl⟩
  | listed n =>
      rcases eq_rootNode_or_mem_below hhome with rfl | ⟨q, hq, hbelow⟩
      · exact absurd rfl hne
      · exact ⟨q, hq, congrArg List.head? (Place.above_of_mem_below hbelow)⟩

theorem parent?_listed_rootNode (t : Tree) : (Target.listed t.rootNode).parent? = none :=
  congrArg List.head? t.above_rootNode

/-- The field that the node of a bag or a label map comes from, with the message that it holds. -/
structure BagField (t : Tree) (v : Vocabulary) (type : Message) (q : Node) (f : Field)
    (fs : List Field) (m : Message) (flavor : BagFlavor) : Prop where
  origin : t.Origin v type q (f :: fs) (fieldSource v f)
  holds : f.type.Holds m
  bag : v.classify m = .bag flavor
  typed : q.entry.typeName = Text.dropEnding "_t" m.name

/-- A bag or a label map comes from a field that holds a bag, and is typed by it. -/
theorem exists_bag (built : (build v root (some type)).value = .ok t) (hn : n ∈ t.nodes)
    (hshape : n.shape.isBag = true ∨ n.shape = .labelMap) :
    ∃ f fs m flavor, t.BagField v type n f fs m flavor := by
  have hne : n.shape ≠ .plain ∧ n.shape ≠ .enumMarker ∧ n.shape ≠ .keyedRecords := by
    refine ⟨?_, ?_, ?_⟩ <;>
    · intro h
      rw [h] at hshape
      rcases hshape with hbag | hlabels
      · cases hbag
      · cases hlabels
  obtain ⟨f, fs, m, b, notices, repeated, inMap, position, horigin, hm, hembodies, hoffer⟩ :=
    exists_messageOffer built hn hne.1 hne.2.1
  have hlabel := label_of_messageOffer hoffer
  rw [Place.shape, hembodies.entry] at hne
  cases hclass : v.classify m with
  | structural =>
      rw [hclass] at hlabel
      rw [hlabel] at hne
      exact absurd rfl hne.1
  | keyedRecords =>
      rw [hclass] at hlabel
      rw [hlabel] at hne
      exact absurd rfl hne.2.2
  | bag flavor =>
      rw [hclass] at hlabel
      refine ⟨f, fs, m, flavor, horigin, hm, hclass, ?_⟩
      rw [hembodies.entry, hlabel]
      rfl

/-- A target below the node `q` is named by the type of `q` and its own name. -/
structure NamedBelow (t : Tree) (v : Vocabulary) (type : Message) (target : Target) (q : Node)
    (answer : Option String) : Prop where
  mem : q ∈ t.nodes
  parent : target.parent? = some q.label
  named : answer = some (q.entry.typeName ++ "::" ++ target.entry.name)
  /-- Above the entry of a bag or of a label map, the type is the name of the message that the field
  of the bag holds. -/
  bag : q.shape.isBag = true ∨ q.shape = .labelMap → ∃ f fs m flavor,
    t.BagField v type q f fs m flavor

/-- What a resolver answers when it is asked for the enum name of a path from the root. -/
structure EnumNamed (v : Vocabulary) (type : Message) (r : Resolver) (path : String)
    (answer : Option String) : Prop where
  reply : (r.perform [] (.findEnumName path)).value.1 = .text answer
  /-- There is no name for the root and for what does not resolve. -/
  none_iff : answer = none ↔ ∀ found, resolveFrom r.policy r.tree.rootNode path = .ok found →
    found.target = .listed r.tree.rootNode
  /-- Below the root there is one, whatever the shape of the node above. -/
  below : ∀ found, resolveFrom r.policy r.tree.rootNode path = .ok found →
    found.target ≠ .listed r.tree.rootNode →
      ∃ q, r.tree.NamedBelow v type found.target q answer

/-- A name is given exactly for the paths that lead below the root.  It is the type of the node
above, whatever its shape, and the name of the target; above the entry of a bag or of a label map,
the type is the name of the message that the field of the bag holds. -/
theorem enumName_of_path {r : Resolver} (built : (build v root (some type)).value = .ok r.tree)
    (path : String) : ∃ answer, EnumNamed v type r path answer := by
  have hvalue := r.value_findEnumName path
  cases hfound : resolveFrom r.policy r.tree.rootNode path with
  | error failure =>
      have hnone : ∀ found, resolveFrom r.policy r.tree.rootNode path ≠ .ok found := by
        intro found hok
        rw [hfound] at hok
        cases hok
      rw [hfound] at hvalue
      exact ⟨none, hvalue, iff_of_true rfl fun found hok => absurd hok (hnone found),
        fun found hok => absurd hok (hnone found)⟩
  | ok found =>
      rw [hfound] at hvalue
      have hhome := home_mem_nodes_of_resolveFrom r.tree.rootNode_mem_nodes hfound
      refine ⟨found.target.enumName?, hvalue, ?_, ?_⟩
      · rw [Target.enumName?, Option.map_eq_none_iff]
        constructor
        · intro hnone found' hok
          obtain rfl := Except.ok.inj (hfound.symm.trans hok)
          by_contra hne
          obtain ⟨q, -, hparent⟩ := exists_parent_of_home hhome hne
          rw [hnone] at hparent
          cases hparent
        · intro hroot
          rw [hroot found hfound, parent?_listed_rootNode]
      · intro found' hok hne
        obtain rfl := Except.ok.inj (hfound.symm.trans hok)
        obtain ⟨q, hq, hparent⟩ := exists_parent_of_home hhome hne
        refine ⟨q, hq, hparent, ?_, exists_bag built hq⟩
        rw [Target.enumName?, hparent]
        rfl

def sampleResolver : Resolver := ⟨sampleTree, {}, { capacity := 8 }⟩

/-- The member of a bag is named after the bag. -/
theorem enumName_of_path_member :
    (sampleResolver.perform [] (.findEnumName "log.attrs.APP_LIST")).value.1 =
      .text (some "CommonInfoAttr::APP_LIST") := by
  have hparse : Path.parse "log.attrs.APP_LIST" = .ok ⟨"log.attrs.APP_LIST", "log.attrs.APP_LIST",
      [.field "log", .field "attrs", .field "APP_LIST"], none⟩ := by
    decide +kernel
  obtain ⟨n, hdescent, hname, habove⟩ : ∃ n : Node,
      Descent {} sampleTree.rootNode [.field "attrs", .field "APP_LIST"]
        { target := .listed n, kind := .attributeEntry } ∧
      n.name = "APP_LIST" ∧ n.above.head?.map (·.entry.typeName) = some "CommonInfoAttr" :=
    ⟨_, .bagName rfl rfl (by decide) rfl, rfl, rfl⟩
  have found := resolveFrom_eq_ok_iff.mpr ⟨_, hparse, _, rfl, _, hdescent, rfl⟩
  have hne : Target.listed n ≠ .listed sampleTree.rootNode := by
    rintro ⟨⟩
    cases habove
  obtain ⟨answer, hanswer, -, hbelow⟩ :=
    enumName_of_path (r := sampleResolver) build_sampleLog "log.attrs.APP_LIST"
  obtain ⟨q, -, hparent, rfl, -⟩ := hbelow _ found hne
  have hparent : n.above.head? = some q.label := hparent
  rw [hparent] at habove
  have htype : q.entry.typeName = "CommonInfoAttr" := Option.some.inj habove
  rw [hanswer, htype]
  show Reply.text (some ("CommonInfoAttr" ++ "::" ++ n.name)) = _
  rw [hname]
  rfl

/-- The member of an enum that is no bag is named after the message, in which there is no such
enum. -/
theorem enumName_outside_bags :
    ∃ found, resolveFrom {} sampleTree.rootNode "log.ANDROID" = .ok found ∧
      found.target.parent? = some sampleTree.rootNode.label ∧ sampleTree.rootNode.shape = .plain ∧
      (sampleResolver.perform [] (.findEnumName "log.ANDROID")).value.1 =
        .text (some "Log::ANDROID") := by
  have hparse : Path.parse "log.ANDROID" = .ok ⟨"log.ANDROID", "log.ANDROID",
      [.field "log", .field "ANDROID"], none⟩ := by
    decide +kernel
  obtain ⟨n, hdescent, hname, habove⟩ : ∃ n : Node,
      Descent {} sampleTree.rootNode [.field "ANDROID"] { target := .listed n, kind := .enum } ∧
      n.name = "ANDROID" ∧ n.above.head? = some sampleTree.rootNode.label :=
    ⟨_, .marker rfl rfl, rfl, rfl⟩
  have found := resolveFrom_eq_ok_iff.mpr ⟨_, hparse, _, rfl, _, hdescent, rfl⟩
  refine ⟨_, found, habove, rfl, ?_⟩
  have hvalue : (sampleResolver.perform [] (.findEnumName "log.ANDROID")).value.1 =
      .text ((resolveFrom {} sampleTree.rootNode "log.ANDROID").toOption.bind
        (·.target.enumName?)) :=
    sampleResolver.value_findEnumName "log.ANDROID"
  rw [hvalue, found]
  show Reply.text (n.above.head?.map (·.entry.typeName ++ "::" ++ n.name)) = _
  rw [habove, hname]
  rfl

end Tree

end FieldAtlas
