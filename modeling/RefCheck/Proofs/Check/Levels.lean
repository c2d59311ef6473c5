import RefCheck.Proofs.Check.Located
import RefCheck.Proofs.Check.Unseen

/-!
# Levels filter at the end

Nothing that happens in a session looks at the levels or at what was reported so far. So sessions
under different levels go on alike, down to every node, and what is shown of their reports is one
list seen through the levels.
-/

namespace RefCheck

open RefCheck.Text RefCheck.Script

/-- What is shown of reports: their categories as the levels have them, without those that are
off. -/
theorem Bag.diagnostics_eq (b : Bag) :
    b.diagnostics =
      (b.reports.map fun d => { d with category := b.levels.levelFor d.key d.category }).filter
        fun d => d.category ≠ .off := by
  rw [Bag.diagnostics, List.filter_map, ← List.filterMap_eq_map, List.filterMap_filter]
  refine List.filterMap_congr fun d _ => ?_
  rw [Levels.apply]
  by_cases h : b.levels.levelFor d.key d.category = .off <;> simp [h]

namespace Program

/-- A program whose reports are seen through other levels. -/
def withLevels (levels : Levels) (p : Program) : Program :=
  { p with bag := { p.bag with levels } }

theorem addParsed_withLevels (levels : Levels) (p : Program) (name source : String)
    (module : Option ModuleId) (isExtern : Bool) :
    (p.withLevels levels).addParsed name source module isExtern =
      ((p.addParsed name source module isExtern).1.withLevels levels,
        (p.addParsed name source module isExtern).2) := by
  cases hparse : parse source with
  | error refusal =>
    rw [addParsed_of_error hparse, addParsed_of_error hparse]
    rfl
  | ok tree =>
    rw [addParsed_of_ok hparse, addParsed_of_ok hparse]
    rfl

theorem edit_withLevels (levels : Levels) (p : Program) (e : Edit) :
    (p.withLevels levels).edit e = (p.edit e).withLevels levels := by
  cases e with
  | addModule | addDependency | newExtern => rfl
  | addExtern | addSource => exact congrArg Prod.fst (p.addParsed_withLevels levels ..)

end Program

namespace Check

variable {plots : List Plot} {s : Session}

namespace Session

/-- A session under other levels. -/
def withLevels (levels : Levels) (s : Session) : Session :=
  { s with program := s.program.withLevels levels }

theorem Held.withLevels (h : s.Held plots) (levels : Levels) :
    (s.withLevels levels).Held plots where
  checkable := h.checkable.withBag _
  hosted checker hmem := (h.hosted checker hmem).withBag _
  sane := h.sane

/-- Whatever happens does not depend on the levels. -/
theorem Held.act_withLevels (h : s.Held plots) (levels : Levels) (action : Action) :
    (s.withLevels levels).act action = (s.act action).withLevels levels := by
  cases action with
  | edit e =>
    exact congrArg (Session.mk · s.checkers) (s.program.edit_withLevels levels e)
  | join sanity => rfl
  | check i =>
    cases hchecker : s.checkers[i]? with
    | none => simp only [Session.act, Session.withLevels, hchecker]
    | some checker =>
      have houtline : plotted (s.withLevels levels).program plots = plotted s.program plots := rfl
      have hmend : ∀ names, mend ((s.withLevels levels).program, checker.repairs) names =
          ({ (mend (s.program, checker.repairs) names).1 with
            bag := { s.program.bag with levels } },
            (mend (s.program, checker.repairs) names).2) := mend_bag _ _ _
      rw [(h.act_check hchecker).1, ((h.withLevels levels).act_check hchecker).1]
      simp only [houtline, hmend]
      rfl

theorem Held.answer_withLevels (h : s.Held plots) (levels : Levels) (action : Action) :
    (s.withLevels levels).answer action = s.answer action := by
  cases action with
  | edit e =>
    cases e with
    | addModule | addDependency | newExtern => rfl
    | addExtern | addSource =>
      exact congrArg (fun added => Answer.added added.2)
        (s.program.addParsed_withLevels levels ..)
  | join sanity => rfl
  | check i =>
    cases hchecker : s.checkers[i]? with
    | none => simp only [Session.answer, Session.withLevels, hchecker]
    | some checker =>
      rw [(h.act_check hchecker).2, ((h.withLevels levels).act_check hchecker).2]
      rfl

/-- What some things that happen are answered. -/
def answers (s : Session) (actions : List Action) : List Answer := (s.seen actions).map Prod.fst

/-- A session under other levels goes on as before, and is answered as before. -/
theorem Held.acts_withLevels (h : s.Held plots) (levels : Levels) (actions : List Action) :
    actions.foldl Session.act (s.withLevels levels) =
        (actions.foldl Session.act s).withLevels levels ∧
      (s.withLevels levels).answers actions = s.answers actions := by
  induction actions generalizing s plots with
  | nil => exact ⟨rfl, rfl⟩
  | cons action rest ih =>
    obtain ⟨after, hafter⟩ := h.act action
    obtain ⟨hacts, hanswers⟩ := ih hafter
    have hact := h.act_withLevels levels action
    constructor
    · rw [List.foldl_cons, List.foldl_cons, hact, hacts]
    · simp only [answers, seen, List.map_cons, h.answer_withLevels] at hanswers ⊢
      rw [hact, hanswers]

theorem after_eq (levels : Levels) (actions : List Action) :
    after levels actions = (after .none actions).withLevels levels ∧
      (start levels).answers actions = (start .none).answers actions :=
  (Held.start .none).acts_withLevels levels actions

end Session

/-- A diagnostic has the key, the category and the message of a rule. -/
def Obeys (d : Diagnostic) : Prop :=
  ∃ rule ∈ Rule.all, d.key = rule.key ∧ d.category = rule.category ∧
    d.message = Diagnostic.Template.fill rule.template d.args

theorem obeys_of_mem_found {o : Outline} {sanity : Bool} {d : Diagnostic} (h : d ∈ o.found sanity) :
    Obeys d := by
  obtain ⟨m, -, hspeaks⟩ := Outline.speaks_of_mem_found h
  have hreport : ∀ rule ∈ Rule.all, ∀ args, Obeys (o.report rule m args) :=
    fun rule hrule args => ⟨rule, hrule, rfl, rfl, rfl⟩
  cases hspeaks with
  | noEffect => exact hreport _ (by decide) _
  | missing => exact hreport _ (by decide) _
  | unnamed => exact hreport _ (by decide) _
  | crossing _ hrule =>
    have hsub : ∀ rule ∈ [Rule.strictModuleDependency, Rule.violatedModuleDependency,
        Rule.missingModuleDependency], rule ∈ Rule.all := by decide
    exact hreport _ (hsub _ hrule) _

namespace Session

/-- All reports of a session so far are as their rules have them. -/
def Ruled (s : Session) : Prop := ∀ d ∈ s.program.bag.reports, Obeys d

theorem Held.ruled_act (h : s.Held plots) (hruled : s.Ruled) (action : Action) :
    (s.act action).Ruled := by
  cases action with
  | edit e =>
    obtain ⟨after, hafter⟩ := h.checkable.holds.extended_edit e
    intro d hd
    have hsame : (s.act (.edit e)).program.bag.reports = s.program.bag.reports := hafter.reports
    exact hruled d (hsame ▸ hd)
  | join sanity => exact hruled
  | check i =>
    cases hchecker : s.checkers[i]? with
    | none => simpa only [Session.act, hchecker] using hruled
    | some checker =>
      rw [(h.act_check hchecker).1]
      intro d hd
      rcases List.mem_append.mp hd with hd | hd
      · exact hruled d hd
      · exact obeys_of_mem_found hd

theorem Held.ruled_acts (h : s.Held plots) (hruled : s.Ruled) (actions : List Action) :
    (actions.foldl Session.act s).Ruled := by
  induction actions generalizing s plots with
  | nil => exact hruled
  | cons action rest ih =>
    obtain ⟨after, hafter⟩ := h.act action
    exact ih hafter (h.ruled_act hruled action)

theorem ruled (levels : Levels) (actions : List Action) : (after levels actions).Ruled :=
  (Held.start levels).ruled_acts (fun _ hd => absurd hd List.not_mem_nil) actions

end Session

/-- Levels are only a final filter. Whatever happens in a session, there is one list of reports,
each as its rule has it, such that under all levels the levels' categories take the place of the
rules' in what is shown, what is off is left out, and everything else is the same: the answers, all
nodes, the inputs, the modules, the checkers and the names of their placeholders. -/
theorem levels_only_filter (actions : List Action) :
    ∃ (reports : List Diagnostic) (answers : List Answer) (store : NodeStore)
      (inputs : List Input) (modules : ModuleGraph) (checkers : List Checker)
      (names : List (List String)),
      (∀ d ∈ reports, ∃ rule ∈ Rule.all, d.key = rule.key ∧ d.category = rule.category ∧
        d.message = Diagnostic.Template.fill rule.template d.args) ∧
      ∀ levels : Levels,
        let s := Session.after levels actions
        s.program.bag.diagnostics =
          (reports.map fun d => { d with category := levels.levelFor d.key d.category }).filter
            (fun d => d.category ≠ .off) ∧
        (Session.start levels).answers actions = answers ∧
        s.program.store = store ∧ s.program.inputs = inputs ∧ s.program.modules = modules ∧
        s.checkers = checkers ∧
        (s.checkers.map fun checker => placeholderNames checker.repairs s.program) = names := by
  let s := Session.after .none actions
  refine ⟨s.program.bag.reports, (Session.start .none).answers actions, s.program.store,
    s.program.inputs, s.program.modules, s.checkers,
    s.checkers.map fun checker => placeholderNames checker.repairs s.program,
    Session.ruled .none actions, fun levels => ?_⟩
  obtain ⟨hafter, hanswers⟩ := Session.after_eq levels actions
  dsimp only
  rw [hafter, Bag.diagnostics_eq]
  exact ⟨rfl, hanswers, rfl, rfl, rfl, rfl, rfl⟩

end Check

end RefCheck
