import FieldAtlas.Proofs.Path.Cutting
import FieldAtlas.Proofs.Resolution.Descent
import FieldAtlas.Proofs.Tree.Template

/-!
# `Anchor` — a path read from a node and from the root

A path may start at any node, and then it begins with the name of that node.  Below plain nodes the
same can be said from the root, with the path of the node in place of its name.

The rest of the path is read alike behind both (`Path.parse_append_iff`), and plain nodes leave
nothing in the result of a walk that goes through them (`Tree.Sound.exists_names`).  So the two
resolve alike, or both do not.
-/

namespace FieldAtlas

open Text

/-! ## A walk through plain nodes -/

theorem Site.mem_line (s : Site) : s ∈ s.line := by
  obtain ⟨e, above⟩ := s
  cases above <;> exact List.mem_cons_self

/-- A site on a line of plain nodes asks for no key. -/
theorem Site.requiresKey_of_plain {s : Site} (h : ∀ x ∈ s.line, x.entry.shape = .plain) :
    s.requiresKey = false := by
  rw [requiresKey, requiresKeyFrom_eq_any, List.any_eq_false]
  intro x hx
  simp [hasKeyEnding, bearsKey, h x hx]

/-- The names on a line of plain nodes are its segments, and a walk that has gone through them goes
on from the node as if it had begun there. -/
theorem Tree.Sound.exists_names {t : Tree} (h : t.Sound) (p : Policy) :
    ∀ n ∈ t.nodes, (∀ s ∈ n.site.line, s.entry.shape = .plain) →
      ∃ names : List String, n.site.segments 0 = (t.rootNode.name :: names).map .field ∧
        ∀ rest, descend p t.rootNode (names.map .field ++ rest) = descend p n rest := by
  refine nodes_induction ?_ fun q hq ih c hc hplain => ?_
  · intro _
    refine ⟨[], ?_, fun rest => rfl⟩
    rw [site_rootNode]
    rfl
  · rw [Place.line_of_mem_below hc] at hplain
    obtain ⟨names, hsegments, hwalk⟩ := ih fun s hs => hplain s (List.mem_cons_of_mem _ hs)
    have hshape : c.entry.shape = .plain := hplain c.site List.mem_cons_self
    have hchild := (h.wellFormed q hq).child?_name hc
    have hlast : Site.lastSegments 0 q.entry c.entry = [.field c.name] := by
      rw [Site.lastSegments, hshape]
      rfl
    refine ⟨names ++ [c.name], ?_, fun rest => ?_⟩
    · rw [Place.segments_of_mem_below hc, hsegments, hlast, List.map_cons, List.map_cons,
        List.map_append]
      rfl
    · have hstep : descend p q (.field c.name :: rest) = descend p c rest := by
        have hcshape : c.shape = .plain := hshape
        simp only [descend, hchild, hcshape]
      rw [List.map_append, List.append_assoc, ← hstep]
      exact hwalk _

/-- A path from a node that goes on behind names leads to what its end leads to from where the names
lead. -/
theorem resolveFrom_append_iff {p : Policy} {start n : Node} {names : List String}
    (hwalk : ∀ rest, descend p start (names.map .field ++ rest) = descend p n rest)
    (hnames : ∀ name ∈ start.name :: names, IsPlainName name) {more : String}
    (hmore : DotLed (Path.splitTag more).1) {r : Resolution} :
    resolveFrom p start (Segment.join ((start.name :: names).map .field) ++ more) = .ok r ↔
      ∃ rest inner, Path.GoesOn more rest ∧ descend p n rest = .ok inner ∧
        r = { inner with tag := (Path.splitTag more).2 } := by
  have hparse := Path.parse_append_iff (List.cons_ne_nil _ _) hnames hmore
  simp only [resolveFrom_eq_ok_iff, hparse, ← descend_eq_ok_iff]
  constructor
  · rintro ⟨_, ⟨rest, hrest, rfl⟩, _, hsegments, inner, hinner, rfl⟩
    cases hsegments
    exact ⟨rest, inner, hrest, (hwalk rest).symm.trans hinner, rfl⟩
  · rintro ⟨rest, inner, hrest, hinner, rfl⟩
    exact ⟨_, ⟨rest, hrest, rfl⟩, _, rfl, inner, (hwalk rest).trans hinner, rfl⟩

/-- Below a plain node on a line of plain nodes, a path that begins with its name leads to the same
from the node as a path with the path of the node in front does from the root. -/
theorem Tree.resolve_anchored {v : Vocabulary} {root : String} {m : Option Message} {t : Tree}
    (built : (build v root m).value = .ok t) (p : Policy) {id : Nat} {n : Node}
    (hid : t.node? id = some n) (hplain : ∀ s ∈ n.site.line, s.entry.shape = .plain)
    (hnames : ∀ s ∈ n.site.line, IsPlainName s.entry.name) :
    ∃ text, (n.site.path .dotted none).value = .ok text ∧
      ∀ (rest : String) (tag : Option TypeTag), (rest = "" ∨ ∃ more, rest = "." ++ more) →
        ∀ r, resolveFrom p t.rootNode (text ++ rest ++ TypeTag.suffix tag) = .ok r ↔
          resolveFrom p n (n.name ++ rest ++ TypeTag.suffix tag) = .ok r := by
  have h := sound_of_build built
  have hn := mem_nodes_of_node? hid
  obtain ⟨names, hsegments, hwalk⟩ := h.exists_names p n hn hplain
  have hshape : n.shape = .plain := hplain n.site n.site.mem_line
  have hname : IsPlainName n.name := hnames n.site n.site.mem_line
  have hall : ∀ name ∈ t.rootNode.name :: names, IsPlainName name := by
    intro name hname
    have hprint := h.printable_segments (Nat.zero_le _) n hn hnames
    rw [hsegments] at hprint
    exact hprint (.field name) (List.mem_map_of_mem hname)
  refine ⟨Segment.join (n.site.segments 0), ?_, fun rest tag hrest r => ?_⟩
  · rw [Site.value_path]
    exact h.render_eq_join n hn (Or.inr (Site.requiresKey_of_plain hplain)) (by simp [hshape])
  · have hmore := Path.dotLed_splitTag hrest tag
    have hroot := resolveFrom_append_iff (r := r) hwalk hall hmore
    have hnode : resolveFrom p n (Segment.join ([n.name].map .field) ++ _) = .ok r ↔ _ :=
      resolveFrom_append_iff (fun _ => rfl) (by simpa using hname) hmore
    rw [List.map_singleton, Segment.join_field] at hnode
    rw [hsegments, String.append_assoc, String.append_assoc]
    exact hroot.trans hnode.symm

def sampleTubeUser : Node := (sampleTubeTree.node? 1).get rfl

/-- A field of a record below the tube, with a zero before its key and a tag. -/
theorem Tree.resolve_anchored_amount :
    sampleTubeTree.node? 1 = some sampleTubeUser ∧ ∃ r,
      resolveFrom {} sampleTubeUser "tube_user_info.history.key:07.amount:int64" = .ok r ∧
      resolveFrom {} sampleTubeTree.rootNode "log.tube_user_info.history.key:07.amount:int64" =
        .ok r ∧
      r.target.id? = some 3 ∧ r.collectionKey = some 7 ∧ r.tag = some .int64 := by
  have hparse : Path.parse "tube_user_info.history.key:07.amount:int64" = .ok
      { raw := "tube_user_info.history.key:07.amount:int64"
        body := "tube_user_info.history.key:07.amount"
        segments := [.field "tube_user_info", .field "history", .key 7, .field "amount"]
        tag := some .int64 } := by
    decide +kernel
  have hdescent : Descent {} sampleTubeUser [.field "history", .key 7, .field "amount"] _ :=
    .record rfl rfl (.plain rfl rfl .here)
  have found := resolveFrom_eq_ok_iff.mpr ⟨_, hparse, _, rfl, _, hdescent, rfl⟩
  have hid : sampleTubeTree.node? 1 = some sampleTubeUser := rfl
  obtain ⟨text, htext, hsame⟩ := resolve_anchored build_sampleTube {} hid (by decide) (by decide)
  cases htext
  have hrest : ∃ more, ".history.key:07.amount" = "." ++ more := ⟨"history.key:07.amount", rfl⟩
  exact ⟨hid, _, found, (hsame _ (some .int64) (Or.inr hrest) _).mpr found, rfl, rfl, rfl⟩

end FieldAtlas
