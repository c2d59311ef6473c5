import RefCheck.Proofs.Check.Reordered
import RefCheck.Proofs.Check.Unseen

/-!
# The order of sources

Sessions that have the same externs and modules, and in which the same sources were added in some
order, are checked alike: the same names get placeholders, and if no name is declared by two of the
sources, the same is found, apart from where missing names are reported.
-/

namespace RefCheck

open RefCheck.Text RefCheck.Script

/-- Where an input is from, and its module. -/
def Input.origin (input : Input) : String × Option String × Option ModuleId :=
  (input.name, input.source, input.module)

namespace Program

variable {p : Program}

/-- The name and the source of an input, or the names that it declares if it was made up. -/
def known (p : Program) (input : Input) : String × Option String × List String :=
  (input.name, input.source,
    if input.source = none then Placeholders.names ⟨input.id, input.root⟩ p else [])

/-- What is known of the externs, in their order. -/
def knownExterns (p : Program) : List (String × Option String × List String) :=
  (p.inputs.filter fun input => input.isExtern = true).map p.known

/-- No name is declared globally by two inputs that are no externs. -/
def Unambiguous (p : Program) : Prop :=
  ∀ i input j other, p.input? i = some input → p.input? j = some other →
    input.isExtern = false → other.isExtern = false → ∀ x d e, p.DeclaresGlobally i d →
      p.DeclaresGlobally j e → p.store.Spells x d → p.store.Spells x e → i = j

end Program

namespace Check

variable {p q : Program} {plots : List Plot} {s : Session} {made : InputId → List String}

/-- A source that is added successfully, with the name of its input and its module. -/
def Action.source? : Action → Option (String × String × Option ModuleId)
  | .edit (.addSource name source module) =>
    if (parse source).isOk then some (name, source, module) else none
  | _ => none

/-- The sources that were added successfully. -/
def sources (actions : List Action) : List (String × String × Option ModuleId) :=
  actions.filterMap Action.source?

/-- Some sources are the inputs that are no externs, in this order, and externs have no module. -/
structure Collects (p : Program) (added : List (String × String × Option ModuleId)) : Prop where
  mains : (p.inputs.filter fun input => input.isExtern = false).map Input.origin =
    added.map fun (name, source, module) => (name, some source, module)
  externs : ∀ input ∈ p.inputs, input.isExtern = true → input.module = none

namespace Collects

variable {added : List (String × String × Option ModuleId)} {input : Input}

theorem same (h : Collects p added) (hinputs : q.inputs = p.inputs) : Collects q added :=
  ⟨hinputs ▸ h.mains, hinputs ▸ h.externs⟩

theorem source_ne (h : Collects p added) (hmem : input ∈ p.inputs)
    (hmain : input.isExtern = false) : input.source ≠ none := by
  have horigin : input.origin ∈
      (p.inputs.filter fun input => input.isExtern = false).map Input.origin :=
    List.mem_map_of_mem (List.mem_filter.mpr ⟨hmem, decide_eq_true hmain⟩)
  rw [h.mains] at horigin
  obtain ⟨⟨name, source, module⟩, -, heq⟩ := List.mem_map.mp horigin
  have hsource : some source = input.source := congrArg (·.2.1) heq
  rw [← hsource]
  exact Option.some_ne_none source

theorem append_extern (h : Collects p added) (hinputs : q.inputs = p.inputs ++ [input])
    (hside : input.isExtern = true) (hmodule : input.module = none) : Collects q added where
  mains := by
    rw [hinputs, List.filter_append, List.filter_cons_of_neg (by simp [hside]), List.filter_nil,
      List.append_nil]
    exact h.mains
  externs other hother := by
    rw [hinputs] at hother
    rcases List.mem_append.mp hother with hother | hother
    · exact h.externs other hother
    · rw [List.mem_singleton.mp hother]
      exact fun _ => hmodule

theorem append_main (h : Collects p added) (hinputs : q.inputs = p.inputs ++ [input])
    (hmain : input.isExtern = false) {source : String} (hsource : input.source = some source) :
    Collects q (added ++ [(input.name, source, input.module)]) where
  mains := by
    rw [hinputs, List.filter_append, List.filter_cons_of_pos (by simp [hmain]), List.filter_nil,
      List.map_append, List.map_append, h.mains]
    simp [Input.origin, hsource]
  externs other hother := by
    rw [hinputs] at hother
    rcases List.mem_append.mp hother with hother | hother
    · exact h.externs other hother
    · rw [List.mem_singleton.mp hother, hmain]
      exact Bool.noConfusion

theorem edit (h : Collects p added) (e : Edit) :
    Collects (p.edit e) (added ++ (Action.edit e).source?.toList) := by
  cases e with
  | addModule name => exact (List.append_nil added).symm ▸ h.same rfl
  | addDependency source target => exact (List.append_nil added).symm ▸ h.same rfl
  | addExtern name source =>
    refine (List.append_nil added).symm ▸ ?_
    change Collects (p.addParsed name source none true).1 added
    cases hparse : parse source with
    | error refusal =>
      rw [Program.addParsed_of_error hparse]
      exact h.same rfl
    | ok tree =>
      rw [Program.addParsed_of_ok hparse]
      exact h.append_extern rfl rfl rfl
  | addSource name source module =>
    change Collects (p.addParsed name source module false).1 _
    rw [Action.source?]
    cases hparse : parse source with
    | error refusal =>
      rw [Program.addParsed_of_error hparse]
      exact (List.append_nil added).symm ▸ h.same rfl
    | ok tree =>
      rw [Program.addParsed_of_ok hparse]
      let input : Input :=
        ⟨p.inputs.length, name, module, false, p.store.nextRoot tree, some source⟩
      have hsource : input.source = some source := rfl
      exact h.append_main rfl rfl hsource
  | newExtern name => exact (List.append_nil added).symm ▸ h.append_extern rfl rfl rfl

theorem act (h : Collects s.program added) (hs : s.Held plots) (action : Action) :
    Collects (s.act action).program (added ++ action.source?.toList) := by
  cases action with
  | edit e => exact h.edit e
  | join sanity => exact (List.append_nil added).symm ▸ h
  | check i =>
    refine (List.append_nil added).symm ▸ ?_
    rw [Session.act]
    cases hchecker : s.checkers[i]? with
    | none => exact h
    | some checker =>
      have hchecks := hs.checks (List.mem_of_getElem? hchecker)
      obtain ⟨bag, hprogram, -⟩ := hchecks.run_mends checker.sanity
      dsimp only [Checker.verdict]
      rw [hprogram]
      rcases mend_inputs hchecks.holds hchecks.hosted
        ((plotted s.program plots).mends checker.sanity) with ⟨-, hsame⟩ | ⟨-, -, hnew⟩
      · exact h.same hsame
      · exact h.append_extern hnew rfl rfl

theorem acts (h : Collects s.program added) (hs : s.Held plots) (actions : List Action) :
    Collects (actions.foldl Session.act s).program (added ++ sources actions) := by
  induction actions generalizing s plots added with
  | nil => exact (List.append_nil added).symm ▸ h
  | cons action rest ih =>
    obtain ⟨after, hafter⟩ := hs.act action
    have hrest := ih (h.act hs action) hafter
    rw [List.append_assoc] at hrest
    have hsplit : action.source?.toList ++ sources rest = sources (action :: rest) := by
      rw [sources, sources, List.filterMap_cons]
      cases action.source? <;> rfl
    rwa [hsplit] at hrest

end Collects

theorem collects (levels : Levels) (actions : List Action) :
    Collects (Session.after levels actions).program (sources actions) := by
  have hstart : Collects (Session.start levels).program [] := ⟨rfl, nofun⟩
  exact hstart.acts (.start levels) actions

/-- What is read off the inputs of one side. -/
theorem map_inputIds {α : Type} (p : Program) (isExtern : Bool) (read : Input → α) :
    (inputIds p isExtern).map (fun i => (p.input? i).map read) =
      ((p.inputs.filter fun input => input.isExtern = isExtern).map read).map some := by
  have hall : (List.range p.inputs.length).map p.input? = p.inputs.map some := by
    apply List.ext_getElem
    · simp
    · intro i hi hi'
      simp only [List.length_map] at hi'
      simp [Program.input?, List.getElem?_eq_getElem hi']
  calc (inputIds p isExtern).map (fun i => (p.input? i).map read)
    _ = (((List.range p.inputs.length).map p.input?).filter fun input =>
          input.map (·.isExtern) = some isExtern).map (Option.map read) := by
      rw [List.filter_map, List.map_map]
      rfl
    _ = ((p.inputs.map some).filter fun input =>
          input.map (·.isExtern) = some isExtern).map (Option.map read) := by rw [hall]
    _ = _ := by
      rw [List.filter_map, List.map_map, List.map_map]
      simp [Function.comp_def]

theorem mem_inputIds {i : InputId} {isExtern : Bool} :
    i ∈ inputIds p isExtern ↔ ∃ input, p.input? i = some input ∧ input.isExtern = isExtern := by
  rw [inputIds, List.mem_filter, List.mem_range, decide_eq_true_iff, Option.map_eq_some_iff]
  constructor
  · exact And.right
  · rintro ⟨input, hinput, hside⟩
    exact ⟨(List.getElem?_eq_some_iff.mp hinput).1, input, hinput, hside⟩

/-- An input without a source has its placeholders. -/
theorem body_of_blank (ha : s.Accounts plots made) {i : InputId} {input : Input}
    (hinput : s.program.input? i = some input) (hsource : input.source = none) :
    bodyOf plots i =
      (Placeholders.names ⟨i, input.root⟩ s.program).map Program.placeholder := by
  have hmem : (⟨i, input.root⟩ : Placeholders) ∈ madeUp s.program :=
    mem_madeUp.mpr ⟨input, hinput, hsource, rfl⟩
  rw [ha.names_madeUp hmem, ha.bodies, statements_of_blank hinput hsource]
  rfl

/-- What an outline has of an input. -/
theorem unnumbered_eq {i : InputId} {input : Input} (hinput : p.input? i = some input) :
    (plotted p plots).unnumbered i = ⟨input.name, input.module, bodyOf plots i⟩ := by
  simp [Outline.unnumbered, outline, Program.inputName, Program.moduleOf, hinput]

section Two

variable {t : Session} {others : List Plot} {made' : InputId → List String}
  {added added' : List (String × String × Option ModuleId)} (ha : s.Accounts plots made)
  (hb : t.Accounts others made') (hs : Collects s.program added) (ht : Collects t.program added')

include ha hb hs ht

theorem externs_unnumbered (hknown : s.program.knownExterns = t.program.knownExterns) :
    (plotted s.program plots).externs.map (plotted s.program plots).unnumbered =
      (plotted t.program others).externs.map (plotted t.program others).unnumbered := by
  have hread : ∀ p : Program, (inputIds p true).map (fun i => (p.input? i).map p.known) =
      p.knownExterns.map some := by
    intro p
    rw [map_inputIds, Program.knownExterns]
  have hmaps := (hread s.program).trans ((congrArg _ hknown).trans (hread t.program).symm)
  refine map_eq_of_map_eq hmaps fun i hi j hj hsame => ?_
  obtain ⟨input, hinput, hside⟩ := mem_inputIds.mp hi
  obtain ⟨other, hother, hside'⟩ := mem_inputIds.mp hj
  rw [hinput, hother] at hsame
  have hfacts : s.program.known input = t.program.known other := Option.some.inj hsame
  have hname : input.name = other.name := congrArg Prod.fst hfacts
  have hsource : input.source = other.source := congrArg (·.2.1) hfacts
  have hbody : bodyOf plots i = bodyOf others j := by
    cases hblank : input.source with
    | none =>
      have hnames := congrArg (·.2.2) hfacts
      simp only [Program.known, ← hsource, hblank, if_true] at hnames
      rw [body_of_blank ha hinput hblank, body_of_blank hb hother (hsource ▸ hblank)]
      exact congrArg (List.map Program.placeholder) hnames
    | some text =>
      have hne : input.source ≠ none := by rw [hblank]; exact Option.some_ne_none _
      rw [ha.body_of_source hinput hne, hb.body_of_source hother (hsource ▸ hne),
        Input.statements, Input.statements, hsource]
  rw [unnumbered_eq hinput, unnumbered_eq hother, hname, hbody,
    hs.externs input (List.mem_of_getElem? hinput) hside,
    ht.externs other (List.mem_of_getElem? hother) hside']

theorem mains_unnumbered (hadded : added.Perm added') :
    ((plotted s.program plots).mains.map (plotted s.program plots).unnumbered).Perm
      ((plotted t.program others).mains.map (plotted t.program others).unnumbered) := by
  have hread : ∀ {p : Program} {added}, Collects p added →
      (inputIds p false).map (fun i => (p.input? i).map Input.origin) =
        added.map fun (name, source, module) => some (name, some source, module) := by
    intro p added hp
    rw [map_inputIds, hp.mains, List.map_map]
    rfl
  have hmaps : ((inputIds s.program false).map fun i => (s.program.input? i).map Input.origin).Perm
      ((inputIds t.program false).map fun i => (t.program.input? i).map Input.origin) := by
    rw [hread hs, hread ht]
    exact hadded.map _
  refine map_perm_of_map_perm hmaps fun i hi j hj hsame => ?_
  obtain ⟨input, hinput, hmain⟩ := mem_inputIds.mp hi
  obtain ⟨other, hother, -⟩ := mem_inputIds.mp hj
  rw [hinput, hother] at hsame
  have horigin : input.origin = other.origin := Option.some.inj hsame
  have hname : input.name = other.name := congrArg Prod.fst horigin
  have hsource : input.source = other.source := congrArg (·.2.1) horigin
  have hmodule : input.module = other.module := congrArg (·.2.2) horigin
  have hne := hs.source_ne (List.mem_of_getElem? hinput) hmain
  rw [unnumbered_eq hinput, unnumbered_eq hother, hname, hmodule, ha.body_of_source hinput hne,
    hb.body_of_source hother (hsource ▸ hne), Input.statements, Input.statements, hsource]

theorem reordered (hknown : s.program.knownExterns = t.program.knownExterns)
    (hmodules : s.program.modules = t.program.modules) (hadded : added.Perm added') :
    (plotted s.program plots).Reordered (plotted t.program others) :=
  ⟨hmodules, externs_unnumbered ha hb hs ht hknown, mains_unnumbered ha hb hs ht hadded⟩

end Two

theorem nodup_inputIds (p : Program) (isExtern : Bool) : (inputIds p isExtern).Nodup :=
  List.nodup_range.filter _

/-- A script declares a name if some node in it does. -/
theorem exists_declares (hs : s.Held plots) {i : InputId} {x : String} (hx : x ≠ "") :
    (∃ d, s.program.DeclaresGlobally i d ∧ s.program.store.Spells x d) ↔
      x ∈ Tree.forestDeclaredNames .script (bodyOf plots i) := by
  have hp := hs.checkable.holds
  have hlayered : ∀ plot ∈ plots, ∀ c ∈ plot.body, c.tree.Layered := by
    intro plot hplot c hc
    refine layered_of_fits (hs.checkable.fits plot.input c.tree ?_)
    rw [bodyOf_input hp hplot]
    exact List.mem_map_of_mem hc
  cases hi : plots[i]? with
  | none =>
    have hinput : s.program.input? i = none :=
      List.getElem?_eq_none (hp.length ▸ List.getElem?_eq_none_iff.mp hi)
    rw [bodyOf, hi]
    constructor
    · rintro ⟨d, ⟨input, hsome, -⟩, -⟩
      rw [hinput] at hsome
      cases hsome
    · intro hmem
      cases hmem
  | some plot =>
    obtain ⟨-, -, rfl, -⟩ := hp.spec hi
    have hplot := List.mem_of_getElem? hi
    have hlists := hp.lists_hoisted hlayered hplot
    rw [bodyOf_input hp hplot, ← hoisted_names]
    constructor
    · rintro ⟨d, hd, -, htext⟩
      obtain ⟨q, hq, rfl⟩ := (hlists.mem d).mp hd
      exact List.mem_map.mpr ⟨q, hq, (hlists.text q hq).symm.trans htext⟩
    · intro hmem
      obtain ⟨q, hq, rfl⟩ := List.mem_map.mp hmem
      exact ⟨q.root, (hlists.mem q.root).mpr ⟨q, hq, rfl⟩, hx, hlists.text q hq⟩

theorem unambiguous_plotted (hs : s.Held plots) :
    s.program.Unambiguous ↔ (plotted s.program plots).Unambiguous := by
  constructor
  · intro h i hi j hj x hx hxi hxj
    obtain ⟨input, hinput, hmain⟩ := mem_inputIds.mp hi
    obtain ⟨other, hother, hmain'⟩ := mem_inputIds.mp hj
    obtain ⟨d, hd, hspells⟩ := (exists_declares hs hx).mpr hxi
    obtain ⟨e, he, hspells'⟩ := (exists_declares hs hx).mpr hxj
    exact h i input j other hinput hother hmain hmain' x d e hd he hspells hspells'
  · intro h i input j other hinput hother hmain hmain' x d e hd he hspells hspells'
    exact h i (mem_inputIds.mpr ⟨input, hinput, hmain⟩) j
      (mem_inputIds.mpr ⟨other, hother, hmain'⟩) x hspells.1
      ((exists_declares hs hspells.1).mp ⟨d, hd, hspells⟩)
      ((exists_declares hs hspells.1).mp ⟨e, he, hspells'⟩)

/-- The names that the source of an input declares globally. -/
def declaredNames (p : Program) (i : InputId) : List String :=
  Tree.forestDeclaredNames .script (p.statements i)

/-- Whether two sources declare the same name can be read off their statements. -/
theorem unambiguous_iff (levels : Levels) (actions : List Action) :
    let p := (Session.after levels actions).program
    p.Unambiguous ↔ ∀ i ∈ inputIds p false, ∀ j ∈ inputIds p false, i ≠ j →
      ∀ x ∈ declaredNames p i, x ∈ declaredNames p j → x = "" := by
  intro p
  obtain ⟨plots, made, ha⟩ := Session.accounts levels actions
  have hbody : ∀ i ∈ inputIds p false, bodyOf plots i = p.statements i := by
    intro i hi
    obtain ⟨input, hinput, hmain⟩ := mem_inputIds.mp hi
    have hne := (collects levels actions).source_ne (List.mem_of_getElem? hinput) hmain
    rw [ha.body_of_source hinput hne, Program.statements, hinput]
    rfl
  refine (unambiguous_plotted ha.toHeld).trans ?_
  constructor
  · intro h i hi j hj hne x hxi hxj
    by_contra hx
    rw [declaredNames, ← hbody i hi] at hxi
    rw [declaredNames, ← hbody j hj] at hxj
    exact hne (h i hi j hj x hx hxi hxj)
  · intro h i hi j hj x hx hxi hxj
    by_contra hne
    change x ∈ Tree.forestDeclaredNames .script (bodyOf plots i) at hxi
    change x ∈ Tree.forestDeclaredNames .script (bodyOf plots j) at hxj
    rw [hbody i hi] at hxi
    rw [hbody j hj] at hxj
    exact hx (h i hi j hj hne x hxi hxj)

/-- A checker that joins puts placeholders in place of the missing names. -/
theorem Session.Accounts.fresh_names (ha : s.Accounts plots made) :
    let verdict := (Checker.fresh false).verdict s.program
    placeholderNames verdict.repairs verdict.program =
      (plotted s.program plots).lacking [] (plotted s.program plots).all := by
  have hchecker :
      (s.act (.join false)).checkers[s.checkers.length]? = some (Checker.fresh false) := by
    simp [Session.act]
  obtain ⟨bag, hprogram, hrepairs⟩ := ha.checkable.run_mends false
  obtain ⟨after, hafter, -⟩ := ha.checkable.mended Outline.nonempty_of_mends
  have hnames := (ha.join false).placeholderNames_mended hchecker hafter bag
  intro verdict
  have hverdict : verdict = run false none s.program := rfl
  rw [hverdict, hprogram, hrepairs]
  exact hnames

/-- The order of sources does not matter. Say two sessions have the same externs in the same order
and the same modules, and the same sources were added in both, in any order. Then checks by new
checkers give placeholders to the same names. If besides no name is declared globally by two of the
sources, they find the same references between modules that are not covered, the same declared
functions without a name and the same names without effect in externs, each as often. -/
theorem order_irrelevant (levels levels' : Levels) (actions actions' : List Action)
    (hknown : (Session.after levels actions).program.knownExterns =
      (Session.after levels' actions').program.knownExterns)
    (hmodules : (Session.after levels actions).program.modules =
      (Session.after levels' actions').program.modules)
    (hsources : (sources actions).Perm (sources actions')) :
    let p := (Session.after levels actions).program
    let q := (Session.after levels' actions').program
    let verdict := (Checker.fresh false).verdict p
    let verdict' := (Checker.fresh false).verdict q
    (∀ x, x ∈ placeholderNames verdict.repairs verdict.program ↔
      x ∈ placeholderNames verdict'.repairs verdict'.program) ∧
    (p.Unambiguous → ∃ found found',
      verdict.program.bag.reports = p.bag.reports ++ found ∧
      verdict'.program.bag.reports = q.bag.reports ++ found' ∧
      (found.filter fun d => d.key ∈ Outline.settledKeys).Perm
        (found'.filter fun d => d.key ∈ Outline.settledKeys)) := by
  obtain ⟨plots, made, ha⟩ := Session.accounts levels actions
  obtain ⟨others, made', hb⟩ := Session.accounts levels' actions'
  have hs := collects levels actions
  have ht := collects levels' actions'
  have h := reordered ha hb hs ht hknown hmodules hsources
  refine ⟨fun x => ?_, fun hclear => ?_⟩
  · rw [ha.fresh_names, hb.fresh_names]
    exact ⟨h.mem_lacking, h.symm.mem_lacking⟩
  · refine ⟨_, _, ha.checkable.run_found false, hb.checkable.run_found false, ?_⟩
    exact h.found_perm ((unambiguous_plotted ha.toHeld).mp hclear) (nodup_inputIds _ _)

/-- For instance two sources that refer to each other and to what is missing. -/
theorem order_irrelevant_swapped :
    let environment : List Action := [.edit (.addModule "first"), .edit (.addModule "second"),
      .edit (.addExtern "env.js" "var env;")]
    let first := Action.edit (.addSource "first.js" "function f() { return g; } lost;" (some 0))
    let second := Action.edit (.addSource "second.js" "var g = f(env, lost, gone);" (some 1))
    let p := (Session.after .none (environment ++ [first, second])).program
    let q := (Session.after .none (environment ++ [second, first])).program
    let verdict := (Checker.fresh false).verdict p
    let verdict' := (Checker.fresh false).verdict q
    (∀ x, x ∈ placeholderNames verdict.repairs verdict.program ↔
      x ∈ placeholderNames verdict'.repairs verdict'.program) ∧
    p.Unambiguous ∧ ∃ found found',
      verdict.program.bag.reports = p.bag.reports ++ found ∧
      verdict'.program.bag.reports = q.bag.reports ++ found' ∧
      (found.filter fun d => d.key ∈ Outline.settledKeys).Perm
        (found'.filter fun d => d.key ∈ Outline.settledKeys) := by
  intro environment first second
  have hclear : (Session.after .none (environment ++ [first, second])).program.Unambiguous :=
    (unambiguous_iff .none (environment ++ [first, second])).mpr (by decide +kernel)
  have hboth := order_irrelevant .none .none (environment ++ [first, second])
    (environment ++ [second, first]) (by decide +kernel) (by decide +kernel) (by decide +kernel)
  exact ⟨hboth.1, hclear, hboth.2 hclear⟩

end Check

end RefCheck
