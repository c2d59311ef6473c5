import RefCheck.Check.Externs
import RefCheck.Proofs.Check.Plots

/-!
# The check of externs

The walk over the externs adds a report for each name that has no effect there, and does nothing
else.
-/

namespace RefCheck.Check

open RefCheck.Text RefCheck.Script

variable {p : Program} {plots : List Plot} {ds : List Diagnostic} {s : WalkState Unit} {v : Visit}
  {ids : List Nat}

/-- A program with further reports. -/
def noting (p : Program) (ds : List Diagnostic) : Program :=
  { p with bag := { p.bag with reports := p.bag.reports ++ ds } }

/-- A state in which some reports were added to a program. -/
structure Notes (p : Program) (ds : List Diagnostic) (s : WalkState Unit) : Prop where
  program : s.program = noting p ds
  sound : s.scopes.Sound
  isGlobal : s.scopes.parent? 0 = some none

theorem Notes.refl (h : Notes p ds s) : After (Notes p) s ds s :=
  ⟨h, NodeStore.grew_refl _, h.sound.keeps⟩

/-- What is done at a visit, as far as it depends on the outline. -/
def noteVisit (o : Outline) (v : Visit) (ds : List Diagnostic) : Progress Empty (List Diagnostic) :=
  .on (ds ++ o.noEffect v.mention?.toList)

theorem each_noteVisit (o : Outline) (visits : List Visit) (ds : List Diagnostic) :
    Progress.each (noteVisit o) visits ds =
      .on (ds ++ o.noEffect (visits.filterMap Visit.mention?)) := by
  induction visits generalizing ds with
  | nil => simp [Progress.each, Outline.noEffect]
  | cons v rest ih =>
    have hcons : (v :: rest).filterMap Visit.mention? =
        v.mention?.toList ++ rest.filterMap Visit.mention? := by
      cases hm : v.mention? <;> simp [hm]
    rw [Progress.each, noteVisit, Progress.on_andThen, ih, hcons, Outline.noEffect_append,
      List.append_assoc]

theorem Notes.visit (h : Notes p ds s) (hstands : s.program.store.Stands v) :
    (noteVisit (plotted p plots) v ds).Follows (After (Notes p) s)
      (externNames (v.place ids) s) := by
  have hkind : s.program.store.kind? (some (v.place ids).node) = some v.tree.tree.kind :=
    hstands.shown.kind_eq
  have habove : s.program.store.kind? (v.place ids).parent = some v.site.above :=
    hstands.hosts.kind_eq
  have hskip : (plotted p plots).noEffect v.mention?.toList = [] →
      (noteVisit (plotted p plots) v ds).Follows (After (Notes p) s) (.on s) := by
    intro hnone
    rw [noteVisit, hnone, List.append_nil]
    exact h.refl
  rw [externNames]
  simp only [hkind, habove, Option.map_some, Option.getD_some, Option.some.injEq]
  by_cases hname : v.tree.tree.kind = .name
  · have hm : v.mention? = some ⟨v.tree.tree.text, v.tree.tree.span, v.context⟩ := if_pos hname
    by_cases heffect : hasEffectBelow v.site.above = true
    · rw [if_neg (by simp [heffect])]
      apply hskip
      simp [hm, Outline.noEffect, Visit.context, heffect]
    · rw [if_pos (by simp [hname, heffect])]
      have hfile : s.sourceName (v.place ids) = p.inputName v.site.input := by
        change s.program.inputName v.site.input = _
        rw [h.program]
        rfl
      refine ⟨⟨?_, h.sound, h.isGlobal⟩, NodeStore.grew_refl _, h.sound.keeps⟩
      have hspan : s.program.store.span (some (v.place ids).node) = v.tree.tree.span :=
        hstands.shown.span_eq
      have htext : s.program.store.text (some (v.place ids).node) = v.tree.tree.text :=
        hstands.shown.text_eq
      rw [WalkState.report, hfile, hspan, htext, h.program]
      simp [hm, noting, Program.report, Bag.report, Outline.noEffect, Outline.report, Visit.context,
        heffect, outline]
  · rw [if_neg (by simp [hname])]
    apply hskip
    simp [Visit.mention?, hname, Outline.noEffect]

theorem skips_externNames : externNames.SkipsScripts := by
  intro place s kind hkind hskip
  rw [externNames]
  rcases hskip with rfl | rfl <;> simp [hkind]

theorem notes_simulation (hp : p.Holds plots) :
    ScriptSimulation externNames (noteVisit (plotted p plots)) (Notes p)
      (fun _ => True) plots (p.store.size + 2) where
  sound ds s h := h.sound
  tables ds s t h hkeeps _ := {
    program := h.program
    sound := hkeeps.sound
    isGlobal := (hkeeps.parent 0 (ScopeTable.lt_of_parent? h.isGlobal)).trans h.isGlobal }
  visits ds s v ids h _ hstands _ := h.visit hstands
  skips ds s place kind h := skips_externNames.follows h.refl
  inputs _ _ := trivial
  global ds s h := h.isGlobal
  scripts ds s h plot hplot := by
    have hstore : s.program.store = (noting p ds).store := congrArg Program.store h.program
    exact (hp.shown plot hplot).unchanged hstore (Nat.le_add_right _ _)

/-- The check of externs reports what has no effect in them. -/
theorem externs_eq (hp : p.Holds plots) :
    externs p (some Program.externsRoot) =
      let o := plotted p plots
      noting p (o.noEffect (o.mentions o.externs)) := by
  let scripts := plots.filter fun plot => plot.above = Program.externsRoot
  have hscripts : ∀ plot ∈ scripts, plot ∈ plots ∧ plot.above = Program.externsRoot :=
    fun plot => mem_filter_above
  have hroot := children_root hp (.inl rfl)
  have hglobal : (ScopeTable.empty.pushGlobal p.store [some Program.externsRoot]).GlobalOf
      (scripts.map Plot.frame) := by
    apply ScopeTable.pushGlobal_globalOf
    · obtain ⟨node, hnode, -, hchildren⟩ := hroot
      simp [NodeStore.children, hnode, hchildren, scripts]
    · intro plot hplot
      exact hp.shown plot (hscripts plot hplot).1
  have hstart : Notes p [] (Walk.start p [some Program.externsRoot] ()) :=
    ⟨by simp [Walk.start, noting], hglobal.sound, hglobal.isGlobal⟩
  have hwalk := (notes_simulation hp).root hscripts hroot hstart
  have hmentions : (scripts.flatMap Plot.visits).filterMap Visit.mention? =
      (plotted p plots).mentions (plotted p plots).externs := by
    rw [visits_mentions hp fun plot hplot => (hscripts plot hplot).1]
    exact congrArg _ (filter_inputs hp true)
  rw [each_noteVisit, List.nil_append, hmentions] at hwalk
  rw [externs, Walk.roots, Progress.each_singleton]
  cases hend : Walk.subtree externNames (p.store.size + 2 + 2) (some Program.externsRoot) none none
      [0] (Walk.start p [some Program.externsRoot] ()) with
  | on t =>
    rw [hend] at hwalk
    rw [show Walk.depthBound p = p.store.size + 2 + 2 from rfl, hend]
    exact hwalk.related.program
  | stopped e t => exact e.elim

end RefCheck.Check
