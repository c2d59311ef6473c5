import RefCheck.Proofs.Walk.Simulation

/-!
# Walks of scripts and of the roots above them

A walk may come to a script that got more statements since it began. These are visited too, and if
the steps for them change nothing, the walk does the same as the steps for what was there before.
-/

namespace RefCheck

open RefCheck.Script

namespace Script

/-- Where the statements of a script stand. -/
def Plot.site (plot : Plot) : Site where
  parent := plot.root
  above := .script
  first := none
  isDeclared := false
  input := plot.input
  functions := []

/-- The visits to the statements of a script. -/
def Plot.visits (plot : Plot) : List Visit := plot.body.flatMap (Planted.visits plot.site)

theorem NodeStore.ShowsScript.stands {s : NodeStore} {plot : Plot} {c : Planted}
    (h : s.ShowsScript plot) (hc : c ∈ plot.body) : s.Stands ⟨c, plot.site⟩ where
  shown := h.body c hc
  hosts := {
    node := ⟨plot.record, h.node, rfl, by simpa [Plot.record] using List.ne_nil_of_mem hc,
      fun habove => absurd rfl habove⟩
    outer := nofun
    plain := fun _ => rfl }
  input := by
    have hsize := (h.body c hc).size_le
    have hpos := c.tree.size_pos
    refine ⟨1, ?_, by dsimp only; omega⟩
    change s.inputWithin 1 (some plot.root) = some plot.input
    rw [NodeStore.inputWithin, h.node]
    rfl

end Script

variable {ε σ β : Type} {visit : Visitor ε σ} {step : Visit → β → Progress ε β}
  {R : β → WalkState σ → Prop} {b : β} {s t : WalkState σ}

/-- Nothing happens at roots and scripts. -/
def Visitor.SkipsScripts (visit : Visitor ε σ) : Prop :=
  ∀ place s kind, s.program.store.kind? (some place.node) = some kind →
    kind = .script ∨ kind = .root → visit place s = .on s

theorem Visitor.SkipsScripts.follows (h : visit.SkipsScripts) {place : Place} {kind : NodeKind}
    (hrefl : After R s b s) (hkind : s.program.store.kind? (some place.node) = some kind)
    (hskip : kind = .script ∨ kind = .root) :
    (Progress.on b).Follows (After R s) (visit place s) := by
  rw [h place s kind hkind hskip]
  exact hrefl

/-- A step changes nothing for some visits, in all states that are later than one. -/
def Silent (step : Visit → β → Progress ε β) (R : β → WalkState σ → Prop) (s : WalkState σ)
    (visits : List Visit) : Prop :=
  ∀ b t, After R s b t → ∀ v ∈ visits, step v b = .on b

theorem Progress.each_of_forall {ι : Type} {step : ι → β → Progress ε β} {items : List ι}
    (h : ∀ item ∈ items, step item b = .on b) : Progress.each step items b = .on b := by
  induction items with
  | nil => rfl
  | cons item rest ih =>
    obtain ⟨hitem, hrest⟩ := List.forall_mem_cons.mp h
    rw [Progress.each, hitem, Progress.on_andThen, ih hrest]

/-- A simulation for walks over whole scripts. The step does nothing at roots and scripts, and each
script may have got statements for which the step changes nothing. -/
structure ScriptSimulation (visit : Visitor ε σ) (step : Visit → β → Progress ε β)
    (R : β → WalkState σ → Prop) (known : InputId → Prop) (plots : List Plot) (depth : Nat) : Prop
    extends Simulation visit step R known where
  skips : ∀ b s place kind, R b s → s.program.store.kind? (some place.node) = some kind →
    kind = .script ∨ kind = .root → (Progress.on b).Follows (After R s) (visit place s)
  inputs : ∀ plot ∈ plots, known plot.input
  global : ∀ b s, R b s → s.scopes.Models [] []
  scripts : ∀ b s, R b s → ∀ plot ∈ plots, ∃ more,
    s.program.store.ShowsScript { plot with body := plot.body ++ more } ∧
    (∀ c ∈ plot.body ++ more, c.tree.size ≤ depth) ∧
    Silent step R s (more.flatMap (Planted.visits plot.site))

variable {known : InputId → Prop} {plots : List Plot} {depth : Nat}

/-- While a program keeps its store, no script gets statements. -/
theorem Script.NodeStore.ShowsScript.unchanged {store : NodeStore} {plot : Plot}
    (h : store.ShowsScript plot) (hstore : s.program.store = store) (hdepth : store.size ≤ depth) :
    ∃ more, s.program.store.ShowsScript { plot with body := plot.body ++ more } ∧
      (∀ c ∈ plot.body ++ more, c.tree.size ≤ depth) ∧
      Silent step R s (more.flatMap (Planted.visits plot.site)) := by
  refine ⟨[], ?_, fun c hc => ?_, fun _ _ _ => List.forall_mem_nil _⟩
  · rwa [hstore, List.append_nil]
  · rw [List.append_nil] at hc
    have hsize := (h.body c hc).size_le
    omega

theorem ScriptSimulation.script (hsim : ScriptSimulation visit step R known plots depth)
    {plot : Plot} (hmem : plot ∈ plots) (hR : R b s) :
    (Progress.each step plot.visits b).Follows (After R s)
      (Walk.subtree visit (depth + 1) (some plot.root) (some plot.above) none [0] s) := by
  obtain ⟨more, hplot, hsize, hsilent⟩ := hsim.scripts b s hR plot hmem
  have hwalks := hsim.toSimulation.walks depth
  have hglobal := hsim.global b s hR
  have hknown := hsim.inputs plot hmem
  rw [Walk.subtree_plain hplot.node (by simp [Plot.record])]
  rw [if_pos (show (Plot.record _).kind = .script from rfl),
    ← Progress.andThen_on (Progress.each _ _ _)]
  refine Progress.Follows.andThen (R := After R s) ?_ (fun _ _ => id) fun b' t ht => ?_
  · rw [← Progress.andThen_on (Progress.each _ _ _)]
    simp only [Plot.record, List.map_append, Progress.each_append]
    refine Progress.Follows.andThen (R := After R s) ?_ (fun _ _ => id) fun b' t ht => ?_
    · exact hsim.toSimulation.forest hwalks plot.site [] plot.body hR
        (fun c hc => ⟨hplot.stands (List.mem_append_left _ hc),
          hsize c (List.mem_append_left _ hc)⟩) hknown hglobal
    · have hmore := hsim.toSimulation.forest hwalks plot.site [] more ht.related
        (fun c hc => ⟨(hplot.stands (List.mem_append_right _ hc)).mono ht.grew,
          hsize c (List.mem_append_right _ hc)⟩) hknown (hglobal.mono ht.keeps)
      rw [Progress.each_of_forall (hsilent b' t ht)] at hmore
      exact hmore.imp fun _ _ => ht.trans
  · exact (hsim.skips b' t _ .script ht.related (ht.grew.kind hplot.kind_eq) (.inl rfl)).imp
      fun _ _ => ht.trans

theorem ScriptSimulation.forest (hsim : ScriptSimulation visit step R known plots depth)
    {root : Nat} (scripts : List Plot)
    (hscripts : ∀ plot ∈ scripts, plot ∈ plots ∧ plot.above = root) (hR : R b s) :
    (Progress.each step (scripts.flatMap Plot.visits) b).Follows (After R s)
      (Progress.each (fun child => Walk.subtree visit (depth + 1) child (some root) none [0])
        (scripts.map fun plot => some plot.root) s) := by
  induction scripts generalizing b s with
  | nil => exact hsim.refl hR
  | cons plot rest ih =>
    obtain ⟨⟨hplot, habove⟩, hrest⟩ := List.forall_mem_cons.mp hscripts
    rw [List.flatMap_cons, Progress.each_append, List.map_cons, Progress.each, ← habove]
    refine (hsim.script hplot hR).andThen (fun _ _ => id) fun b' t ht => ?_
    rw [habove]
    exact (ih hrest ht.related).imp fun _ _ => ht.trans

/-- A walk of a root does the same as the steps for the visits to the scripts below it. -/
theorem ScriptSimulation.root (hsim : ScriptSimulation visit step R known plots depth) {root : Nat}
    {scripts : List Plot} (hscripts : ∀ plot ∈ scripts, plot ∈ plots ∧ plot.above = root)
    (hnode : ∃ node, s.program.store.get? (some root) = some node ∧ node.kind = .root ∧
      node.children = scripts.map fun plot => some plot.root) (hR : R b s) :
    (Progress.each step (scripts.flatMap Plot.visits) b).Follows (After R s)
      (Walk.subtree visit (depth + 2) (some root) none none [0] s) := by
  obtain ⟨node, hnode, hkind, hchildren⟩ := hnode
  rw [Walk.subtree_plain hnode (by simp [hkind]), hchildren]
  rw [if_neg (by simp [hkind]), ← Progress.andThen_on (Progress.each _ _ _)]
  refine Progress.Follows.andThen (R := After R s) ?_ (fun _ _ => id) fun b' t ht => ?_
  · exact hsim.forest scripts hscripts hR
  · have hroot : s.program.store.kind? (some root) = some .root := by
      rw [NodeStore.kind?, hnode, ← hkind]
      rfl
    exact (hsim.skips b' t _ .root ht.related (ht.grew.kind hroot) (.inr rfl)).imp
      fun _ _ => ht.trans

/-- A walk of both roots, if the visitor leaves the second one as it is. -/
theorem ScriptSimulation.roots (hsim : ScriptSimulation visit step R known plots depth)
    {first second : Nat} (externs mains : List Plot)
    (hexterns : ∀ plot ∈ externs, plot ∈ plots ∧ plot.above = first)
    (hmains : ∀ plot ∈ mains, plot ∈ plots ∧ plot.above = second)
    (hfirst : ∃ node, s.program.store.get? (some first) = some node ∧ node.kind = .root ∧
      node.children = externs.map fun plot => some plot.root)
    (hsecond : ∀ b t, R b t → ∃ node, t.program.store.get? (some second) = some node ∧
      node.kind = .root ∧ node.children = mains.map fun plot => some plot.root) (hR : R b s) :
    (Progress.each step ((externs ++ mains).flatMap Plot.visits) b).Follows (After R s)
      (Progress.each (fun id => Walk.subtree visit (depth + 2) id none none [0])
        [some first, some second] s) := by
  rw [List.flatMap_append, Progress.each_append, Progress.each]
  refine (hsim.root hexterns hfirst hR).andThen (fun _ _ => id) fun b' t ht => ?_
  rw [Progress.each_singleton]
  exact (hsim.root hmains (hsecond b' t ht.related) ht.related).imp fun _ _ => ht.trans

end RefCheck
