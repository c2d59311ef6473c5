import RefCheck.Proofs.Check.Mending
import RefCheck.Proofs.Check.Reference
import RefCheck.Proofs.Walk.Scripts

/-!
# The outline of a program that holds plots

The scripts of a program come to the names of its outline, and what they declare globally is what
its outline says is declared.
-/

namespace RefCheck.Check

open RefCheck.Text RefCheck.Script

/-- The outline of a program that holds some plots. -/
abbrev plotted (p : Program) (plots : List Plot) : Outline := outline p (bodyOf plots)

variable {p : Program} {plots : List Plot}

/-- The plots in the order of a walk. -/
def walked (plots : List Plot) : List Plot :=
  plots.filter (fun plot => plot.above = Program.externsRoot) ++
    plots.filter fun plot => plot.above = Program.mainRoot

theorem mem_filter_above {root : Nat} {plot : Plot}
    (h : plot ∈ plots.filter fun plot => plot.above = root) : plot ∈ plots ∧ plot.above = root := by
  simpa using h

theorem inputs_eq (hp : p.Holds plots) : plots.map Plot.input = List.range p.inputs.length := by
  apply List.ext_getElem?
  intro i
  rw [List.getElem?_map]
  cases hi : plots[i]? with
  | none =>
    have hlength := List.getElem?_eq_none_iff.mp hi
    rw [hp.length] at hlength
    exact (List.getElem?_eq_none (by simpa using hlength)).symm
  | some plot =>
    obtain ⟨_, _, hinput, -⟩ := hp.spec hi
    have hlt := (List.getElem?_eq_some_iff.mp hi).1
    rw [List.getElem?_range (hp.length ▸ hlt), Option.map_some, hinput]

theorem filter_inputs (hp : p.Holds plots) (isExtern : Bool) :
    (plots.filter fun plot => plot.above = Program.rootFor isExtern).map Plot.input =
      inputIds p isExtern := by
  have hside : ∀ plot ∈ plots, decide (plot.above = Program.rootFor isExtern) =
      decide ((p.input? plot.input).map (·.isExtern) = some isExtern) := by
    intro plot hplot
    obtain ⟨input, hinput, -, habove, -⟩ := hp.spec (hp.getElem?_input hplot)
    rw [Program.input?, hinput, habove, Option.map_some]
    cases input.isExtern <;> cases isExtern <;> decide
  rw [List.filter_congr hside, inputIds, ← inputs_eq hp, List.filter_map]
  rfl

theorem walked_inputs (hp : p.Holds plots) :
    (walked plots).map Plot.input = (plotted p plots).externs ++ (plotted p plots).mains := by
  rw [walked, List.map_append]
  exact congr (congrArg _ (filter_inputs hp true)) (filter_inputs hp false)

theorem bodyOf_input (hp : p.Holds plots) {plot : Plot} (hplot : plot ∈ plots) :
    bodyOf plots plot.input = plot.body.map Planted.tree := by
  rw [bodyOf, hp.getElem?_input hplot]
  rfl

/-- The visits to some scripts come to the names in them. -/
theorem visits_mentions (hp : p.Holds plots) {scripts : List Plot}
    (hscripts : ∀ plot ∈ scripts, plot ∈ plots) :
    (scripts.flatMap Plot.visits).filterMap Visit.mention? =
      (plotted p plots).mentions (scripts.map Plot.input) := by
  rw [List.filterMap_flatMap, Outline.mentions, List.flatMap_map]
  apply List.flatMap_congr
  intro plot hplot
  have hbody : (plotted p plots).body plot.input = plot.body.map Planted.tree :=
    bodyOf_input hp (hscripts plot hplot)
  rw [hbody, Plot.visits, List.filterMap_flatMap, List.flatMap_map]
  apply List.flatMap_congr
  intro c _
  rw [mentions_eq]
  rfl

theorem mem_of_mem_walked {plot : Plot} (h : plot ∈ walked plots) : plot ∈ plots := by
  rcases List.mem_append.mp h with h | h
  · exact (mem_filter_above h).1
  · exact (mem_filter_above h).1

/-- What a script declares, by name. -/
theorem hoisted_names (plot : Plot) :
    (plot.hoisted.map fun q => q.tree.text) =
      Tree.forestDeclaredNames .script (plot.body.map Planted.tree) := by
  rw [Plot.hoisted]
  induction plot.body with
  | nil => rfl
  | cons c rest ih =>
    rw [List.flatMap_cons, List.map_append, ih, List.map_cons, Tree.forestDeclaredNames,
      Planted.hoisted, declaredNames_eq]

/-- The global scope of some scripts binds a name to the first one that declares it. -/
theorem global_eq_find (scripts : List Plot) {x : String} (hx : x ≠ "") :
    (Frame.global (scripts.map Plot.frame) x).map (fun var => (var.input, var.isGlobal)) =
      (scripts.find? fun plot =>
        x ∈ Tree.forestDeclaredNames .script (plot.body.map Planted.tree)).map fun plot =>
          (some plot.input, true) := by
  induction scripts with
  | nil => rfl
  | cons plot rest ih =>
    have hsome : (plot.frame.first? x).isSome ↔
        x ∈ Tree.forestDeclaredNames .script (plot.body.map Planted.tree) := by
      rw [Frame.first?_isSome hx, ← hoisted_names]
      rfl
    rw [Frame.global] at ih ⊢
    rw [List.map_cons, List.findSome?_cons, List.find?_cons, Frame.var?]
    cases hfirst : plot.frame.first? x with
    | some q =>
      rw [hfirst] at hsome
      rw [decide_eq_true (hsome.mp rfl)]
      rfl
    | none =>
      rw [hfirst] at hsome
      rw [decide_eq_false (fun hmem => Bool.noConfusion (hsome.mpr hmem))]
      exact ih

/-- The global scope binds a name to its declarer. -/
theorem global_eq (hp : p.Holds plots) {x : String} (hx : x ≠ "") :
    (Frame.global ((walked plots).map Plot.frame) x).map (fun var => (var.input, var.isGlobal)) =
      ((plotted p plots).declarer? x).map fun declaring => (some declaring, true) := by
  rw [global_eq_find _ hx, Outline.declarer?, ← walked_inputs hp, List.find?_map, Option.map_map]
  refine congrArg (Option.map _) (List.find?_congr fun plot hplot => ?_)
  simp only [Function.comp_apply, ← bodyOf_input hp (mem_of_mem_walked hplot)]
  rfl

theorem input_lt (hp : p.Holds plots) {plot : Plot} (hplot : plot ∈ plots) :
    plot.input < p.inputs.length := by
  have hlt := (List.getElem?_eq_some_iff.mp (hp.getElem?_input hplot)).1
  rwa [hp.length] at hlt

/-- The scripts below a root are those of its plots. -/
theorem children_root (hp : p.Holds plots) {root : Nat}
    (hroot : root = Program.externsRoot ∨ root = Program.mainRoot) :
    ∃ node, p.store.get? (some root) = some node ∧ node.kind = .root ∧
      node.children = (plots.filter fun plot => plot.above = root).map fun plot =>
        some plot.root := ⟨_, hp.node root hroot, rfl, rfl⟩

/-- The table at the start of a walk binds what the scripts declare. -/
theorem globalOf_start (hp : p.Holds plots) :
    (ScopeTable.empty.pushGlobal p.store
      [some Program.externsRoot, some Program.mainRoot]).GlobalOf
        ((walked plots).map Plot.frame) := by
  refine ScopeTable.pushGlobal_globalOf ?_ fun plot hplot => hp.shown plot (mem_of_mem_walked hplot)
  have hchildren : ∀ root, root = Program.externsRoot ∨ root = Program.mainRoot →
      p.store.children (some root) =
        (plots.filter fun plot => plot.above = root).map fun plot => some plot.root := by
    intro root hroot
    rw [NodeStore.children, hp.node root hroot]
    rfl
  rw [walked, List.map_append, List.flatMap_cons, List.flatMap_cons, List.flatMap_nil,
    List.append_nil, hchildren _ (.inl rfl), hchildren _ (.inr rfl)]

end RefCheck.Check
