import FieldAtlas.Proofs.Text.Replacing
import FieldAtlas.Proofs.Tree.Template

/-!
# `Flattened` — the flattened path read off the dotted one

A flattened path is the dotted one with its separators replaced, `.key:` before `.`, as long as no
name holds a dot or a colon.  Replacing is not local in general, but what a step down adds to a
dotted path begins with a dot, and there a path can be cut (`underscored_append`).

A fixed path breaks the line in two.  What stands above it is lost, and below it the flattened path
goes on like the dotted one, behind the fixed path of the nearest node that has one.
-/

namespace FieldAtlas

open Text

/-- A dotted path with the separators of a flattened one. -/
def underscored (s : String) : String := replace "." "_" (replace ".key:" "_key_" s)

example : underscored "log.history.key:7.amount" = "log_history_key_7_amount" := by decide +kernel

/-! ## Replacing separators -/

theorem toList_underscored (s : String) : (underscored s).toList =
    (replaceFrom ".key:".toList "_key_".toList 0 s.toList).flatMap
      fun c => if '.' = c then ['_'] else [c] := by
  rw [underscored, replace, replace, String.toList_ofList]
  have hdot : ".".toList = ['.'] := rfl
  have hline : "_".toList = ['_'] := rfl
  rw [hdot, hline, replaceFrom_singleton, String.toList_ofList]

theorem flatMap_dot_of_not_mem {s : List Char} (h : '.' ∉ s) :
    (s.flatMap fun c => if '.' = c then ['_'] else [c]) = s := by
  rw [← replaceFrom_singleton]
  exact replaceFrom_of_not_mem ['_'] List.mem_cons_self h

/-- A path can be cut before a dot. -/
theorem underscored_append (s : String) {x : String} (hx : DotLed x) :
    underscored (s ++ x) = underscored s ++ underscored x := by
  apply String.toList_inj.mp
  rw [String.toList_append, toList_underscored, toList_underscored, toList_underscored,
    String.toList_append, ← List.flatMap_append]
  have hword : '.' ∉ "key:".toList := by decide
  exact congrArg _ (replaceFrom_append hword _ hx (Nat.zero_le _))

/-- A text without dots and colons stays as it is. -/
theorem underscored_of_plain {s : String} (hdot : '.' ∉ s.toList) (hcolon : ':' ∉ s.toList) :
    underscored s = s := by
  apply String.toList_inj.mp
  rw [toList_underscored, replaceFrom_of_not_mem _ (c := ':') (by decide) hcolon,
    flatMap_dot_of_not_mem hdot]

theorem underscored_dot {name : String} (hdot : '.' ∉ name.toList) (hcolon : ':' ∉ name.toList) :
    underscored ("." ++ name) = "_" ++ name := by
  apply String.toList_inj.mp
  have hnot : ':' ∉ ("." ++ name).toList := by
    rw [String.toList_append, List.mem_append, not_or]
    exact ⟨by decide, hcolon⟩
  rw [toList_underscored, replaceFrom_of_not_mem _ (c := ':') (by decide) hnot,
    String.toList_append, String.toList_append, List.flatMap_append, flatMap_dot_of_not_mem hdot]
  rfl

theorem Decimal.not_mem_text {c : Char} (hdigit : c.isDigit = false) (hminus : c ≠ '-') (k : Int) :
    c ∉ (text k).toList := by
  have hdigits : ∀ n, c ∉ digits n := fun n hc => by
    rw [isDigit_of_mem_digits hc] at hdigit
    cases hdigit
  rw [text, String.toList_ofList]
  cases k with
  | ofNat n => exact hdigits n
  | negSucc n => exact List.not_mem_cons_of_ne_of_not_mem hminus (hdigits (n + 1))

theorem underscored_key (k : Int) :
    underscored (".key:" ++ Decimal.text k) = "_key_" ++ Decimal.text k := by
  apply String.toList_inj.mp
  have hcolon : ':' ∉ (Decimal.text k).toList := Decimal.not_mem_text (by decide) (by decide) k
  have hdot : '.' ∉ (Decimal.text k).toList := Decimal.not_mem_text (by decide) (by decide) k
  rw [toList_underscored, String.toList_append, replaceFrom_of_prefix (by decide),
    replaceFrom_of_not_mem _ (c := ':') (by decide) hcolon, List.flatMap_append,
    flatMap_dot_of_not_mem hdot, String.toList_append]
  rfl

/-! ## Endings -/

theorem dotLed_key (k : Int) : DotLed (".key:" ++ Decimal.text k) :=
  Or.inr ⟨"key:".toList ++ (Decimal.text k).toList, String.toList_append⟩

/-- What a step down adds to a dotted path begins with a dot. -/
theorem dotLed_ending (k : Int) (parent e : Entry) :
    DotLed (Template.fill k (Site.endingTemplate .dotted parent e)) := by
  unfold Site.endingTemplate
  cases e.shape with
  | plain | listBag | mapBag | labelMap =>
      rw [Template.fill, Template.fill, String.append_empty]
      exact dotLed_dot e.name
  | keyedRecords =>
      rw [Template.fill, Piece.fill, PathStyle.separator, String.append_assoc]
      exact dotLed_dot _
  | enumMarker =>
      dsimp only
      split
      · rw [Template.fill, Template.fill, Template.fill, String.append_empty]
        exact dotLed_key k
      · split <;> rw [Template.fill, Template.fill, String.append_empty]
        · exact dotLed_key e.ordinal
        · exact dotLed_dot e.name

/-- What a step down adds to a flattened path is what it adds to the dotted one, with the
separators replaced. -/
theorem underscored_ending {e : Entry} (hdot : '.' ∉ e.name.toList) (hcolon : ':' ∉ e.name.toList)
    (k : Int) (parent : Entry) :
    Template.fill k (Site.endingTemplate .flattened parent e) =
      underscored (Template.fill k (Site.endingTemplate .dotted parent e)) := by
  unfold Site.endingTemplate
  cases e.shape with
  | plain | listBag | mapBag | labelMap =>
      simp only [Template.fill, Piece.fill, PathStyle.separator, String.append_empty,
        underscored_dot hdot hcolon]
  | keyedRecords =>
      simp only [Template.fill, Piece.fill, PathStyle.separator, PathStyle.keyMark,
        String.append_empty, underscored_append _ (dotLed_key k), underscored_dot hdot hcolon,
        underscored_key]
  | enumMarker =>
      dsimp only
      split
      · simp only [Template.fill, Piece.fill, PathStyle.keyMark, String.append_empty,
          underscored_key]
      · split
        · simp only [Template.fill, Piece.fill, PathStyle.keyMark, String.append_empty,
            underscored_key]
        · simp only [Template.fill, Piece.fill, PathStyle.separator, String.append_empty,
            underscored_dot hdot hcolon]

theorem ending_flattened {e : Entry} (hdot : '.' ∉ e.name.toList) (hcolon : ':' ∉ e.name.toList)
    (key : Option Int) (parent : Entry) :
    Site.ending .flattened key parent e = (Site.ending .dotted key parent e).map underscored := by
  cases key with
  | some k =>
      rw [Site.ending_some, Site.ending_some, underscored_ending hdot hcolon]
      rfl
  | none =>
      rw [Site.ending_none _ 0, Site.ending_none _ 0, underscored_ending hdot hcolon]
      simp only [Site.key_mem_endingTemplate_iff]
      split <;> rfl

theorem dotLed_of_ending {key : Option Int} {parent e : Entry} {last : String}
    (h : Site.ending .dotted key parent e = .ok last) : DotLed last := by
  cases key with
  | some k =>
      rw [Site.ending_some] at h
      exact Except.ok.inj h ▸ dotLed_ending k parent e
  | none =>
      rw [Site.ending_none _ 0] at h
      split at h
      · cases h
      · exact Except.ok.inj h ▸ dotLed_ending 0 parent e

/-! ## The line down to a node -/

theorem Place.render_flattened_of_mem_below {n c : Node} (hc : c ∈ n.below) (key : Option Int) :
    c.site.render .flattened key =
      match c.entry.fixedPath with
      | some path => .ok path
      | none => (n.site.render .flattened key).bind fun start =>
          (Site.ending .flattened key n.entry c.entry).map (start ++ ·) := by
  rw [site_of_mem_below hc]
  rfl

namespace Tree

variable {t : Tree}

/-- Where no fixed path is on the line, the flattened path is the dotted one with the separators
replaced, and it lacks its key where the dotted one does. -/
theorem render_flattened_of_no_fixed
    (hnames : ∀ q ∈ t.nodes, '.' ∉ q.name.toList ∧ ':' ∉ q.name.toList) (key : Option Int) :
    ∀ n ∈ t.nodes, (∀ s ∈ n.site.line, s.entry.fixedPath = none) →
      n.site.render .flattened key = (n.site.render .dotted key).map underscored := by
  refine nodes_induction ?_ fun q hq ih c hc hfixed => ?_
  · intro _
    obtain ⟨hdot, hcolon⟩ := hnames t.rootNode t.rootNode_mem_nodes
    rw [site_rootNode]
    exact congrArg Except.ok (underscored_of_plain hdot hcolon).symm
  · obtain ⟨hdot, hcolon⟩ := hnames c (mem_nodes_of_mem_below hq hc)
    rw [Place.line_of_mem_below hc] at hfixed
    have hnone : c.entry.fixedPath = none := hfixed c.site List.mem_cons_self
    have hstart := ih fun s hs => hfixed s (List.mem_cons_of_mem _ hs)
    rw [Place.render_flattened_of_mem_below hc, hnone, Place.render_of_mem_below hc, hstart]
    dsimp only
    rw [ending_flattened hdot hcolon]
    cases q.site.render .dotted key with
    | error missing => rfl
    | ok start =>
        cases hlast : Site.ending .dotted key q.entry c.entry with
        | error missing => rfl
        | ok last =>
            have hcut := underscored_append start (dotLed_of_ending hlast)
            exact congrArg Except.ok hcut.symm

/-- Below the nearest fixed path, the flattened path goes on like the dotted one. -/
theorem render_flattened_of_fixed
    (hnames : ∀ q ∈ t.nodes, '.' ∉ q.name.toList ∧ ':' ∉ q.name.toList)
    (hroot : t.rootNode.entry.fixedPath = none) :
    ∀ n ∈ t.nodes, ∀ {s : Site}, n.site.line.find? (·.entry.fixedPath.isSome) = some s →
      ∃ a ∈ t.nodes, a.site = s ∧ ∃ path, a.entry.fixedPath = some path ∧ ∀ k : Int,
        ∃ start x, a.site.render .dotted (some k) = .ok start ∧
          n.site.render .dotted (some k) = .ok (start ++ x) ∧
          n.site.render .flattened (some k) = .ok (path ++ underscored x) := by
  refine nodes_induction ?_ fun q hq ih c hc s hs => ?_
  · intro s hs
    rw [site_rootNode] at hs
    simp [Site.line, Site.lineFrom, hroot] at hs
  · have hc' := mem_nodes_of_mem_below hq hc
    rw [Place.line_of_mem_below hc, List.find?_cons] at hs
    simp only [Place.render_flattened_of_mem_below hc]
    cases hfixed : c.entry.fixedPath with
    | some path =>
        have hsite : c.site = s := by simpa [Place.site, hfixed] using hs
        -- The child itself is the nearest one, and nothing comes behind it.
        refine ⟨c, hc', hsite, path, hfixed, fun k => ?_⟩
        have hdotted := c.site.render_some .dotted k
        refine ⟨_, "", hdotted, ?_, ?_⟩
        · rw [hdotted, String.append_empty]
        · rw [underscored_of_plain (by decide) (by decide), String.append_empty]
    | none =>
        obtain ⟨hdot, hcolon⟩ := hnames c hc'
        have hsq : q.site.line.find? (·.entry.fixedPath.isSome) = some s := by
          simpa [Place.site, hfixed] using hs
        obtain ⟨a, ha, hsite, path, hpath, hgoes⟩ := ih hsq
        refine ⟨a, ha, hsite, path, hpath, fun k => ?_⟩
        obtain ⟨start, x, hstart, hdotted, hflattened⟩ := hgoes k
        obtain ⟨last, hlast⟩ : ∃ last, Site.ending .dotted (some k) q.entry c.entry = .ok last :=
          ⟨_, Site.ending_some .dotted k q.entry c.entry⟩
        refine ⟨start, x ++ last, hstart, ?_, ?_⟩
        · rw [Place.render_of_mem_below hc, hdotted, hlast, ← String.append_assoc]
          rfl
        · rw [hflattened, ending_flattened hdot hcolon, hlast,
            underscored_append _ (dotLed_of_ending hlast), ← String.append_assoc]
          rfl

/-- Without a fixed path on the line, the flattened path of a node is its dotted path with the
separators replaced.  Otherwise it is the fixed path of the nearest node that has one, and what the
dotted path adds to that of this node; and it lacks a key exactly if one is asked for below. -/
theorem flattened_follows_dotted {v : Vocabulary} {root : String} {m : Option Message}
    (built : (build v root m).value = .ok t)
    (hnames : ∀ q ∈ t.nodes, '.' ∉ q.name.toList ∧ ':' ∉ q.name.toList) {id : Nat} {n : Node}
    (hid : t.node? id = some n) :
    ((∀ s ∈ n.site.line, s.entry.fixedPath = none) ∧
      ∀ key, (n.site.path .flattened key).value =
        (n.site.path .dotted key).value.map underscored) ∨
    ∃ a ∈ t.nodes, ∃ path, n.site.line.find? (·.entry.fixedPath.isSome) = some a.site ∧
      a.entry.fixedPath = some path ∧
      (∀ k : Int, ∃ start x, (a.site.path .dotted (some k)).value = .ok start ∧
        (n.site.path .dotted (some k)).value = .ok (start ++ x) ∧
        (n.site.path .flattened (some k)).value = .ok (path ++ underscored x)) ∧
      ((∃ missing, (n.site.path .flattened none).value = .error missing) ↔
        ∃ s ∈ n.site.belowFixed, s.hasKeyEnding = true) := by
  have hn := mem_nodes_of_node? hid
  have hroot : t.rootNode.entry.fixedPath = none := by
    obtain ⟨_, rfl, -, rfl⟩ := build_eq_ok_iff.mp built
    rfl
  simp only [Site.value_path]
  cases hfind : n.site.line.find? (·.entry.fixedPath.isSome) with
  | none =>
      have hfixed : ∀ s ∈ n.site.line, s.entry.fixedPath = none := by
        simpa using List.find?_eq_none.mp hfind
      exact Or.inl ⟨hfixed, fun key => render_flattened_of_no_fixed hnames key n hn hfixed⟩
  | some s =>
      obtain ⟨a, ha, rfl, path, hpath, hgoes⟩ := render_flattened_of_fixed hnames hroot n hn hfind
      refine Or.inr ⟨a, ha, path, rfl, hpath, hgoes, ?_⟩
      rw [← (sound_of_build built).key_mem_template_iff n hn]
      exact Site.exists_missing_iff

/-- What a record of the small tube holds is found behind the fixed path of the tube. -/
theorem flattened_follows_dotted_amount :
    ∃ n, sampleTubeTree.node? 3 = some n ∧
      ∃ a ∈ sampleTubeTree.nodes, a.entry.fixedPath = some "user_info_tube_user_info" ∧
      (∀ k : Int, ∃ start x, (a.site.path .dotted (some k)).value = .ok start ∧
        (n.site.path .dotted (some k)).value = .ok (start ++ x) ∧
        (n.site.path .flattened (some k)).value =
          .ok ("user_info_tube_user_info" ++ underscored x)) ∧
      ∃ missing, (n.site.path .flattened none).value = .error missing := by
  refine ⟨_, rfl, ?_⟩
  have hid : sampleTubeTree.node? 3 = some _ := rfl
  rcases flattened_follows_dotted build_sampleTube (by decide) hid with
    ⟨hfixed, -⟩ | ⟨a, ha, path, hfind, hpath, hgoes, hmissing⟩
  · exact absurd hfixed (by decide)
  · have hsite : a.site.entry.fixedPath = some "user_info_tube_user_info" :=
      congrArg (·.entry.fixedPath) (Option.some.inj (hfind.symm.trans rfl))
    have hsame : path = "user_info_tube_user_info" :=
      Option.some.inj (hpath.symm.trans hsite)
    subst hsame
    exact ⟨a, ha, hpath, hgoes, hmissing.mpr (by decide)⟩

end Tree

end FieldAtlas
