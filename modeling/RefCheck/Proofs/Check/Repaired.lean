import RefCheck.Proofs.Check.Judgment
import RefCheck.Proofs.Program.Holding

/-!
# Repaired outlines

An outline is repaired if the script of one extern got a placeholder for each missing name. Then no
name is missing any more, the placeholders are reported nowhere, and what is reported of every other
name is as it was, apart from the names that were missing.
-/

namespace RefCheck.Check

open RefCheck.Text RefCheck.Script

/-- What becomes of an outline when a host gets placeholders for some names. The host may be new. -/
structure Repaired (o after : Outline) (names : List String) (host : Option InputId) : Prop where
  externs : ∃ new, after.externs = o.externs ++ new ∧ ∀ i ∈ new, o.body i = []
  mains : after.mains = o.mains
  body : ∀ i, after.body i =
    o.body i ++ if host = some i then names.map Program.placeholder else []
  file : ∀ i ∈ o.externs ++ o.mains, after.file i = o.file i
  module : ∀ i ∈ o.externs ++ o.mains, after.module i = o.module i
  modules : after.modules = o.modules
  blank : ∀ i, host = some i → after.module i = none
  hosted : names ≠ [] → ∃ i ∈ after.externs, host = some i
  undeclared : ∀ x ∈ names, x ≠ "" ∧ o.declarer? x = none
  complete : ∀ m ∈ o.all, o.isMissing m → m.name ∈ names

namespace Repaired

variable {o after : Outline} {names : List String} {host : Option InputId} {m : Mention}

theorem forestDeclaredNames_append (above : NodeKind) (trees more : List Tree) :
    Tree.forestDeclaredNames above (trees ++ more) =
      Tree.forestDeclaredNames above trees ++ Tree.forestDeclaredNames above more := by
  induction trees with
  | nil => rfl
  | cons t rest ih =>
    rw [List.cons_append, Tree.forestDeclaredNames, Tree.forestDeclaredNames, ih, List.append_assoc]

theorem forestDeclaredNames_placeholders (names : List String) :
    Tree.forestDeclaredNames .script (names.map Program.placeholder) = names := by
  induction names with
  | nil => rfl
  | cons x rest ih =>
    rw [List.map_cons, Tree.forestDeclaredNames, ih]
    rfl

/-- What a script declares after the repair. -/
theorem mem_declared (h : Repaired o after names host) {x : String} {i : InputId} :
    x ∈ Tree.forestDeclaredNames .script (after.body i) ↔
      x ∈ Tree.forestDeclaredNames .script (o.body i) ∨ host = some i ∧ x ∈ names := by
  rw [h.body, forestDeclaredNames_append, List.mem_append]
  apply or_congr_right
  by_cases hhost : host = some i
  · rw [if_pos hhost, forestDeclaredNames_placeholders]
    simp [hhost]
  · rw [if_neg hhost]
    simp [hhost, Tree.forestDeclaredNames]

/-- Names that were not missing are declared where they were. -/
theorem declarer?_of_not_mem (h : Repaired o after names host) {x : String} (hx : x ∉ names) :
    after.declarer? x = o.declarer? x := by
  obtain ⟨new, hexterns, hnew⟩ := h.externs
  have hsame : ∀ i, decide (x ∈ Tree.forestDeclaredNames .script (after.body i)) =
      decide (x ∈ Tree.forestDeclaredNames .script (o.body i)) := by
    intro i
    simp [h.mem_declared, hx]
  have hnone : new.find? (fun i => x ∈ Tree.forestDeclaredNames .script (o.body i)) = none := by
    apply List.find?_eq_none.mpr
    intro i hi
    simp [hnew i hi, Tree.forestDeclaredNames]
  simp only [Outline.declarer?, hsame, hexterns, h.mains, List.find?_append, hnone, Option.or_none]

/-- What was missing is declared by no script of before. -/
theorem not_mem_declared (h : Repaired o after names host) {x : String} (hx : x ∈ names)
    {i : InputId} (hi : i ∈ after.externs ++ after.mains) :
    x ∉ Tree.forestDeclaredNames .script (o.body i) := by
  obtain ⟨new, hexterns, hnew⟩ := h.externs
  have hnone := List.find?_eq_none.mp (h.undeclared x hx).2
  have hold : ∀ j ∈ o.externs ++ o.mains, x ∉ Tree.forestDeclaredNames .script (o.body j) :=
    fun j hj hmem => hnone j hj (decide_eq_true hmem)
  rw [hexterns, h.mains, List.append_assoc] at hi
  rcases List.mem_append.mp hi with hi | hi
  · exact hold i (List.mem_append_left _ hi)
  · rcases List.mem_append.mp hi with hi | hi
    · rw [hnew i hi]
      exact List.not_mem_nil
    · exact hold i (List.mem_append_right _ hi)

/-- Names that were missing are declared by the host. -/
theorem declarer?_of_mem (h : Repaired o after names host) {x : String} (hx : x ∈ names) :
    ∃ i, host = some i ∧ after.declarer? x = some i := by
  obtain ⟨i, hi, hhost⟩ := h.hosted (List.ne_nil_of_mem hx)
  refine ⟨i, hhost, ?_⟩
  cases hfound : after.declarer? x with
  | none =>
    have hmissing := List.find?_eq_none.mp hfound i (List.mem_append_left _ hi)
    exact absurd (decide_eq_true (h.mem_declared.mpr (.inr ⟨hhost, hx⟩))) hmissing
  | some j =>
    have hj : x ∈ Tree.forestDeclaredNames .script (after.body j) := by
      simpa using List.find?_some hfound
    rcases h.mem_declared.mp hj with hj | ⟨hj, -⟩
    · exact absurd hj (h.not_mem_declared hx (List.mem_of_find?_eq_some hfound))
    · rw [← hj, hhost]

/-- The name of a placeholder. -/
def placeholderMention (i : InputId) (x : String) : Mention :=
  ⟨x, Span.none, ⟨.var, true, false, i, []⟩⟩

theorem mentions_placeholders (i : InputId) (names : List String) :
    (names.map Program.placeholder).flatMap (Tree.mentions (Context.top i)) =
      names.map (placeholderMention i) := by
  induction names with
  | nil => rfl
  | cons x rest ih =>
    rw [List.map_cons, List.flatMap_cons, ih]
    rfl

/-- The names in a script after the repair. -/
theorem body_mentions (h : Repaired o after names host) (i : InputId) :
    (after.body i).flatMap (Tree.mentions (Context.top i)) =
      (o.body i).flatMap (Tree.mentions (Context.top i)) ++
        if host = some i then names.map (placeholderMention i) else [] := by
  rw [h.body, List.flatMap_append]
  apply congrArg
  split
  · exact mentions_placeholders i names
  · rfl

/-- What is collected from the names does not change if it does not for the old ones, and if there
is nothing to collect from placeholders. -/
theorem flatMap_mentions {α : Type} (h : Repaired o after names host) {inputs : List InputId}
    {f g : Mention → List α} (hold : ∀ m ∈ o.mentions inputs, f m = g m)
    (hplaceholders : ∀ i x, host = some i → x ∈ names → f (placeholderMention i x) = []) :
    (after.mentions inputs).flatMap f = (o.mentions inputs).flatMap g := by
  rw [Outline.mentions, Outline.mentions, List.flatMap_assoc, List.flatMap_assoc]
  apply List.flatMap_congr
  intro i hi
  rw [h.body_mentions, List.flatMap_append]
  have hnothing :
      (if host = some i then names.map (placeholderMention i) else []).flatMap f = [] := by
    split
    · next hhost =>
      apply List.flatMap_eq_nil_iff.mpr
      intro m hm
      obtain ⟨x, hx, rfl⟩ := List.mem_map.mp hm
      exact hplaceholders i x hhost hx
    · rfl
  rw [hnothing, List.append_nil]
  apply List.flatMap_congr
  intro m hm
  exact hold m (List.mem_flatMap.mpr ⟨i, hi, hm⟩)

theorem mentions_externs (h : Repaired o after names host) :
    o.mentions after.externs = o.mentions o.externs := by
  obtain ⟨new, hexterns, hnew⟩ := h.externs
  have hnone : o.mentions new = [] := by
    apply List.flatMap_eq_nil_iff.mpr
    intro i hi
    rw [hnew i hi]
    rfl
  rw [hexterns, Outline.mentions_append, hnone, List.append_nil]

theorem mentions_all (h : Repaired o after names host) :
    o.mentions (after.externs ++ after.mains) = o.all := by
  rw [Outline.mentions_append, h.mentions_externs, h.mains, ← Outline.mentions_append]
  rfl

section Reports

variable (h : Repaired o after names host)

include h

theorem report_eq (hm : m.context.input ∈ o.externs ++ o.mains) (rule : Rule) (args : List String) :
    after.report rule m args = o.report rule m args := by
  rw [Outline.report, Outline.report, h.file _ hm]

theorem crossing_eq (hm : m.context.input ∈ o.externs ++ o.mains) {declaring : InputId}
    (hdeclaring : declaring ∈ o.externs ++ o.mains) (sanity : Bool) :
    Outline.crossing sanity after m declaring = Outline.crossing sanity o m declaring := by
  simp only [Outline.crossing, h.module _ hm, h.module _ hdeclaring, h.modules, h.report_eq hm]

/-- References to placeholders break no rule. -/
theorem crossing_host {i : InputId} (hhost : host = some i) (sanity : Bool) (m : Mention) :
    Outline.crossing sanity after m i = [] := by
  rw [Outline.crossing, h.blank i hhost]
  split <;> simp_all

theorem remarks_eq (hm : m.context.input ∈ o.externs ++ o.mains) (sanity : Bool) :
    Outline.remarks sanity after m = Outline.remarks sanity o m := by
  simp only [Outline.remarks, h.report_eq hm]
  by_cases hname : m.name ∈ names
  · obtain ⟨i, hhost, hdeclarer⟩ := h.declarer?_of_mem hname
    rw [hdeclarer, (h.undeclared _ hname).2]
    simp only [h.crossing_host hhost]
  · rw [h.declarer?_of_not_mem hname]
    cases hdeclarer : o.declarer? m.name with
    | none => rfl
    | some declaring => simp only [h.crossing_eq hm (List.mem_of_find?_eq_some hdeclarer)]

theorem remarks_placeholder (i : InputId) {x : String} (hx : x ∈ names) (sanity : Bool) :
    Outline.remarks sanity after (placeholderMention i x) = [] := by
  obtain ⟨j, hj, hdeclarer⟩ := h.declarer?_of_mem hx
  have hname : (placeholderMention i x).name = x := rfl
  have hlabel : (placeholderMention i x).context.isLabel = false := rfl
  have hbound : (placeholderMention i x).context.bound = [] := rfl
  simp only [Outline.remarks, hlabel, hname, hbound, hdeclarer, h.crossing_host hj]
  simp [(h.undeclared x hx).1]

theorem noEffect_eq :
    after.noEffect (after.mentions after.externs) = o.noEffect (o.mentions o.externs) := by
  rw [Outline.noEffect_eq, Outline.noEffect_eq, ← h.mentions_externs]
  apply h.flatMap_mentions
  · intro m hm
    rw [h.mentions_externs] at hm
    have hinput := List.mem_append_left o.mains (Outline.input_of_mem_mentions hm)
    cases heffect : hasEffectBelow m.context.above <;>
      simp [Outline.noEffect, heffect, h.report_eq hinput]
  · intro i x _ _
    rfl

/-- No name is missing any more. -/
theorem not_isMissing (hm : m ∈ after.all) : ¬ after.isMissing m := by
  intro hmissing
  obtain ⟨hlabel, hname, hbound, hnone⟩ := Outline.isMissing_iff.mp hmissing
  have hnames : m.name ∉ names := by
    intro hmem
    obtain ⟨i, -, hdeclarer⟩ := h.declarer?_of_mem hmem
    rw [hdeclarer] at hnone
    cases hnone
  -- A name that was there before was missing then as well, and a placeholder is declared.
  obtain ⟨i, hi, hm⟩ := Outline.mem_mentions.mp hm
  rw [h.body_mentions] at hm
  rcases List.mem_append.mp hm with hm | hm
  · have hall : m ∈ o.all := by
      rw [← h.mentions_all]
      exact Outline.mem_mentions.mpr ⟨i, hi, hm⟩
    rw [h.declarer?_of_not_mem hnames] at hnone
    exact hnames (h.complete m hall (Outline.isMissing_iff.mpr ⟨hlabel, hname, hbound, hnone⟩))
  · split at hm
    · obtain ⟨x, hx, rfl⟩ := List.mem_map.mp hm
      exact hnames hx
    · cases hm

/-- What is reported after the repair is what was reported before of names that were not missing. -/
theorem reports_eq :
    after.reports = o.reports.filter fun d => d.key ≠ Rule.undefinedVariable.key := by
  have hkeys : (o.noEffect (o.mentions o.externs)).filter
      (fun d => d.key ≠ Rule.undefinedVariable.key) = o.noEffect (o.mentions o.externs) := by
    apply List.filter_eq_self.mpr
    intro d hd
    rw [Outline.key_of_mem_noEffect hd]
    decide
  have hremarks : after.all.flatMap (Outline.remarks false after) =
      o.all.flatMap (Outline.remarks false o) := by
    rw [← h.mentions_all]
    apply h.flatMap_mentions
    · intro m hm
      rw [h.mentions_all] at hm
      exact h.remarks_eq (Outline.input_of_mem_mentions hm) false
    · intro i x _ hx
      exact h.remarks_placeholder i hx false
  calc after.reports
    _ = o.noEffect (o.mentions o.externs) ++ after.all.flatMap (Outline.remarks false after) := by
      rw [Outline.reports, h.noEffect_eq, Outline.findings_of_declared fun m => h.not_isMissing]
    _ = o.noEffect (o.mentions o.externs) ++ o.all.flatMap (Outline.remarks false o) := by
      rw [hremarks]
    _ = o.reports.filter fun d => d.key ≠ Rule.undefinedVariable.key := by
      rw [Outline.reports, List.filter_append, hkeys, Outline.filter_findings]

end Reports

end Repaired

end RefCheck.Check
