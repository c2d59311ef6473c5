import RefCheck.Proofs.Program.Holding

/-!
# Programs that were made by edits

Modules, dependencies, externs and sources are added to a program in any order, and adding a source
may fail. Whatever is added, the program holds the statements that can be parsed from the texts of
its inputs.
-/

namespace RefCheck

open RefCheck.Script

/-- What can be added to a program. -/
inductive Edit
  | addModule (name : String)
  | addDependency (source target : ModuleId)
  | addExtern (name source : String)
  | addSource (name source : String) (module : Option ModuleId)
  | newExtern (name : String)
deriving DecidableEq, Repr

/-- The statements that are parsed from the text of an input. -/
def Input.statements (input : Input) : List Tree :=
  match input.source.map parse with
  | some (.ok tree) => tree.children
  | _ => []

theorem Input.mem_statements {input : Input} {t : Tree} (h : t ∈ input.statements) :
    ∃ source tree, input.source = some source ∧ parse source = .ok tree ∧ t ∈ tree.children := by
  rw [statements] at h
  split at h
  · next tree hparse =>
    obtain ⟨source, hsource, hparse⟩ := Option.map_eq_some_iff.mp hparse
    exact ⟨source, tree, hsource, hparse, h⟩
  · cases h

theorem Input.fits_statements (input : Input) {t : Tree} (h : t ∈ input.statements) :
    Fits maxNesting .statement t := by
  obtain ⟨source, tree, -, hparse, ht⟩ := mem_statements h
  obtain ⟨span, body, rfl, hbody⟩ := fits_of_parse hparse
  exact hbody t ht

/-- The names in what is parsed from a text stand in it. -/
theorem Input.named_statements {input : Input} {t : Tree} (h : t ∈ input.statements) :
    ∃ source, input.source = some source ∧ t.Named (.within source) := by
  obtain ⟨source, tree, hsource, hparse, ht⟩ := mem_statements h
  obtain ⟨span, body, rfl, hbody⟩ := names_of_parse hparse
  exact ⟨source, hsource, named_of_fits (hbody t ht)⟩

namespace Program

/-- A program after something was added to it. A source that cannot be parsed adds no input. -/
def edit (p : Program) : Edit → Program
  | .addModule name => { p with modules := (p.modules.add name).1 }
  | .addDependency source target => { p with modules := p.modules.addDependency source target }
  | .addExtern name source => (p.addExtern name source).1
  | .addSource name source module => (p.addSource name source module).1
  | .newExtern name => (p.newExtern name).1

/-- A program after some things were added to it, in this order. -/
def edited (p : Program) (edits : List Edit) : Program := edits.foldl edit p

/-- The statements of an input, as they are parsed from its text. -/
def statements (p : Program) (i : InputId) : List Tree :=
  ((p.input? i).map Input.statements).getD []

theorem mem_statements {p : Program} {i : InputId} {t : Tree} (h : t ∈ p.statements i) :
    ∃ input, p.input? i = some input ∧ t ∈ input.statements := by
  rw [statements] at h
  cases hinput : p.input? i with
  | none =>
    rw [hinput] at h
    cases h
  | some input =>
    rw [hinput] at h
    exact ⟨input, rfl, h⟩

theorem fits_statements {p : Program} {i : InputId} {t : Tree} (h : t ∈ p.statements i) :
    Fits maxNesting .statement t := by
  obtain ⟨input, -, ht⟩ := mem_statements h
  exact input.fits_statements ht

variable {p q : Program} {plots after : List Plot}

/-- A program to which inputs were added, with the plots before and after that. -/
structure Extended (p : Program) (plots : List Plot) (q : Program) (after : List Plot) : Prop where
  holds : q.Holds after
  kept : ∀ plot ∈ plots, plot ∈ after
  inputs : ∃ new, q.inputs = p.inputs ++ new
  reports : q.bag.reports = p.bag.reports
  bodies : ∀ i, bodyOf after i = if i < p.inputs.length then bodyOf plots i else q.statements i

/-- Nothing changes for the scripts if there are no new inputs. -/
theorem Holds.extended_same (h : p.Holds plots) (hq : q.Holds plots) (hinputs : q.inputs = p.inputs)
    (hreports : q.bag.reports = p.bag.reports) : Extended p plots q plots where
  holds := hq
  kept _ := id
  inputs := ⟨[], by rw [hinputs, List.append_nil]⟩
  reports := hreports
  bodies i := by
    by_cases hlt : i < p.inputs.length
    · rw [if_pos hlt]
    · have hplot : plots[i]? = none := List.getElem?_eq_none (h.length ▸ Nat.le_of_not_lt hlt)
      have hinput : q.input? i = none :=
        List.getElem?_eq_none (hinputs ▸ Nat.le_of_not_lt hlt)
      rw [if_neg hlt, bodyOf, hplot, statements, hinput]
      rfl

/-- One more input comes with its own statements. -/
theorem Holds.extended_new (h : p.Holds plots) {plot : Plot} (input : Input)
    (hq : q.Holds (plots ++ [plot])) (hinputs : q.inputs = p.inputs ++ [input])
    (hreports : q.bag.reports = p.bag.reports)
    (hbody : plot.body.map Planted.tree = input.statements) :
    Extended p plots q (plots ++ [plot]) where
  holds := hq
  kept _ hplot := List.mem_append_left _ hplot
  inputs := ⟨[input], hinputs⟩
  reports := hreports
  bodies i := by
    rw [bodyOf, statements, input?, hinputs]
    by_cases hlt : i < p.inputs.length
    · rw [if_pos hlt, List.getElem?_append_left (h.length ▸ hlt)]
      rfl
    · rw [if_neg hlt, List.getElem?_append_right (h.length ▸ Nat.le_of_not_lt hlt),
        List.getElem?_append_right (Nat.le_of_not_lt hlt), h.length]
      cases i - p.inputs.length with
      | zero => exact hbody
      | succ n => rfl

theorem Holds.extended_addParsed (h : p.Holds plots) (name source : String)
    (module : Option ModuleId) (isExtern : Bool) :
    ∃ after, Extended p plots (p.addParsed name source module isExtern).1 after := by
  cases hparse : parse source with
  | error refusal =>
    have hadded : (p.addParsed name source module isExtern).1 =
        { p with store := p.store.strew refusal.loose } := by
      rw [Program.addParsed_of_error hparse]
    rw [hadded]
    refine ⟨plots, h.extended_same ?_ rfl rfl⟩
    exact h.append ((Tree.forestPlan p.store.size refusal.loose).nodes none [])
  | ok tree =>
    obtain ⟨span, body, rfl, hbody⟩ := fits_of_parse hparse
    have hholds : (p.addParsed name source module isExtern).1.Holds
        (plots ++ [p.nextPlot isExtern span body]) :=
      h.addParsed hparse fun t ht => inner_of_fits (hbody t ht)
    let input : Input := ⟨p.inputs.length, name, module, isExtern,
      p.store.nextRoot (.node .script "" span body), some source⟩
    have hstatements : input.statements = body := by
      simp [Input.statements, input, hparse, Tree.children]
    have hspread : (p.nextPlot isExtern span body).body.map Planted.tree = body :=
      map_tree_spread p.store.size body
    refine ⟨_, h.extended_new input hholds ?_ ?_ (hspread.trans hstatements.symm)⟩
    · rw [Program.addParsed_of_ok hparse]
    · rw [Program.addParsed_of_ok hparse]

theorem Holds.extended_edit (h : p.Holds plots) (e : Edit) :
    ∃ after, Extended p plots (p.edit e) after := by
  cases e with
  | addModule name =>
    exact ⟨plots, h.extended_same ⟨h.length, h.input, h.shown, h.node⟩ rfl rfl⟩
  | addDependency source target =>
    exact ⟨plots, h.extended_same ⟨h.length, h.input, h.shown, h.node⟩ rfl rfl⟩
  | addExtern name source => exact h.extended_addParsed name source none true
  | addSource name source module => exact h.extended_addParsed name source module false
  | newExtern name => exact ⟨_, h.extended_new _ (h.newExtern name) rfl rfl rfl⟩

theorem Extended.statements (h : Extended p plots q after) {i : InputId}
    (hi : i < p.inputs.length) : q.statements i = p.statements i := by
  obtain ⟨new, hnew⟩ := h.inputs
  rw [Program.statements, Program.statements, input?, input?, hnew, List.getElem?_append_left hi]

theorem Extended.trans {r : Program} {last : List Plot} (h : Extended p plots q after)
    (h' : Extended q after r last) : Extended p plots r last where
  holds := h'.holds
  kept plot hplot := h'.kept plot (h.kept plot hplot)
  inputs := by
    obtain ⟨new, hnew⟩ := h.inputs
    obtain ⟨more, hmore⟩ := h'.inputs
    exact ⟨new ++ more, by rw [hmore, hnew, List.append_assoc]⟩
  reports := h'.reports.trans h.reports
  bodies i := by
    have hle : p.inputs.length ≤ q.inputs.length := by
      obtain ⟨new, hnew⟩ := h.inputs
      rw [hnew, List.length_append]
      omega
    rw [h'.bodies, h.bodies]
    by_cases hq : i < q.inputs.length
    · rw [if_pos hq, h'.statements hq]
    · have hp : ¬ i < p.inputs.length := fun hp => hq (Nat.lt_of_lt_of_le hp hle)
      rw [if_neg hq, if_neg hp]

theorem Holds.extended_edited (h : p.Holds plots) (edits : List Edit) :
    ∃ after, Extended p plots (p.edited edits) after := by
  induction edits generalizing p plots with
  | nil => exact ⟨plots, h.extended_same h rfl rfl⟩
  | cons e rest ih =>
    obtain ⟨mid, hmid⟩ := h.extended_edit e
    obtain ⟨after, hafter⟩ := ih hmid.holds
    exact ⟨after, hmid.trans hafter⟩

/-- A program that was made by edits holds the statements parsed from the texts of its inputs, and
nothing was reported so far. -/
theorem holds_edited (levels : Levels) (edits : List Edit) :
    ∃ plots, ((empty levels).edited edits).Holds plots ∧
      bodyOf plots = ((empty levels).edited edits).statements ∧
      ((empty levels).edited edits).bag.reports = [] := by
  obtain ⟨plots, hplots⟩ := (holds_empty levels).extended_edited edits
  exact ⟨plots, hplots.holds, funext hplots.bodies, hplots.reports⟩

end Program

end RefCheck
