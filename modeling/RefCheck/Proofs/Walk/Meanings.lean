import RefCheck.Walk.Trace
import RefCheck.Proofs.Check.Plots
import RefCheck.Proofs.Program.Edits
import RefCheck.Proofs.Walk.Around

/-!
# What names mean

A name means what the innermost function around it says that declares it, and there the first
declaration. If no function around it does, it means the first global declaration, those of externs
before all others, or else nothing. A walk that writes down what it sees finds these meanings at all
names.
-/

namespace RefCheck

open RefCheck.Script

namespace Program

/-- The inputs in the order in which their global declarations count. -/
def inOrder (p : Program) : List InputId := Check.inputIds p true ++ Check.inputIds p false

/-- A name is declared by the script of an input, outside all functions. -/
def DeclaresGlobally (p : Program) (i : InputId) (d : NodeId) : Prop :=
  ∃ input, p.input? i = some input ∧ p.store.DeclaredIn input.root d

/-- The first global declaration of a name, with its input. -/
structure FirstGlobal (p : Program) (x : String) (i : InputId) (d : NodeId) : Prop where
  first : p.store.First (p.DeclaresGlobally i) x d
  earliest : ∃ before after, p.inOrder = before ++ i :: after ∧
    ∀ j ∈ before, ∀ e, p.DeclaresGlobally j e → ¬ p.store.Spells x e

/-- What a name means inside some functions, the innermost first. Each of them has a scope, and the
scripts have one together. -/
inductive Means (p : Program) (x : String) : List NodeId → List ScopeId → Option Var → Prop
  | bound {f d functions scope scopes} : p.store.First (p.store.DeclaredBy f) x d →
      Means p x (f :: functions) (scope :: scopes)
        (some ⟨x, some d, p.store.inputOf (some f), some scope, false⟩)
  | outside {f functions scope scopes meaning} :
      (∀ d, p.store.DeclaredBy f d → ¬ p.store.Spells x d) → Means p x functions scopes meaning →
      Means p x (f :: functions) (scope :: scopes) meaning
  | global {i d scope} : p.FirstGlobal x i d →
      Means p x [] [scope] (some ⟨x, some d, some i, some scope, true⟩)
  | nothing {scope} : (∀ i d, p.DeclaresGlobally i d → ¬ p.store.Spells x d) →
      Means p x [] [scope] none

end Program

namespace Script.NodeStore

variable {s : NodeStore} {among : NodeId → Prop} {names : List Planted} {input : InputId}
  {x : String} {q : Planted}

theorem Lists.first (h : s.Lists among names) (hq : (Frame.mk names input).first? x = some q) :
    s.First among x q.root := by
  rw [Frame.first?] at hq
  split at hq
  · cases hq
  · next hx =>
    obtain ⟨htext, before, after, hnames, hbefore⟩ := List.find?_eq_some_iff_append.mp hq
    dsimp only at hnames
    have hmem : q ∈ names := by simp [hnames]
    have hordered := h.ordered
    refine ⟨(h.mem _).mpr ⟨q, hmem, rfl⟩, ⟨hx, (h.text q hmem).trans (by simpa using htext)⟩, ?_⟩
    intro e he hspells
    obtain ⟨q', hq', rfl⟩ := (h.mem e).mp he
    have htext' : q'.tree.text = x := (h.text q' hq').symm.trans hspells.2
    rw [hnames] at hq' hordered
    rcases List.mem_append.mp hq' with hq' | hq'
    · have hno := hbefore q' hq'
      simp [htext'] at hno
    · rcases List.mem_cons.mp hq' with rfl | hq'
      · exact .inl rfl
      · exact .inr (List.rel_of_pairwise_cons (List.pairwise_append.mp hordered).2.1 hq')

theorem Lists.none (h : s.Lists among names) (hnone : (Frame.mk names input).first? x = none) :
    ∀ d, among d → ¬ s.Spells x d := by
  intro d hd hspells
  obtain ⟨q, hq, rfl⟩ := (h.mem d).mp hd
  have hsome : ((Frame.mk names input).first? x).isSome := by
    rw [Frame.first?_isSome hspells.1]
    exact List.mem_map.mpr ⟨q, hq, (h.text q hq).symm.trans hspells.2⟩
  rw [hnone] at hsome
  cases hsome

end Script.NodeStore

namespace Program

open RefCheck.Check

variable {p : Program} {plots : List Plot} {x : String}

/-- Functions that declare a name hide what is around them. -/
theorem Means.functions {meaning : Option Var} (hglobal : p.Means x [] [0] meaning)
    {input : InputId} {names : List (List Planted)} {functions : List NodeId} {ids : List Nat}
    (h : List.Forall₂ (p.store.Introduces input) names functions)
    (hlength : ids.length = names.length) :
    p.Means x functions (ids ++ [0])
      ((Frame.meaning ids (names.map fun names => ⟨names, input⟩) x).or meaning) := by
  induction h generalizing ids with
  | nil =>
    obtain rfl := List.length_eq_zero_iff.mp hlength
    exact hglobal
  | @cons own f rest functions hf _ ih =>
    cases ids with
    | nil => cases hlength
    | cons id ids =>
      have hrest := ih (Nat.succ.inj hlength)
      rw [List.map_cons, Frame.meaning, Frame.var?]
      cases hfirst : (Frame.mk own input).first? x with
      | some q =>
        have hbound : p.Means x (f :: functions) (id :: (ids ++ [0]))
            (some ⟨x, some q.root, p.store.inputOf (some f), some id, false⟩) :=
          .bound (hf.1.first hfirst)
        rw [hf.2] at hbound
        exact hbound
      | none => exact .outside (hf.1.none hfirst) hrest

theorem Holds.lists_hoisted (h : p.Holds plots)
    (hlayered : ∀ plot ∈ plots, ∀ c ∈ plot.body, c.tree.Layered) {plot : Plot}
    (hplot : plot ∈ plots) :
    p.store.Lists (p.DeclaresGlobally plot.input) plot.hoisted := by
  obtain ⟨input, hinput, -, -, hroot⟩ := h.spec (h.getElem?_input hplot)
  have hlists := (h.shown plot hplot).lists_hoisted (hlayered plot hplot)
  refine ⟨fun d => ?_, hlists.ordered, hlists.text⟩
  rw [← hlists.mem, DeclaresGlobally, input?, hinput, hroot]
  simp

theorem Holds.mem_walked (h : p.Holds plots) {plot : Plot} (hplot : plot ∈ plots) :
    plot ∈ walked plots := by
  obtain ⟨input, -, -, habove, -⟩ := h.spec (h.getElem?_input hplot)
  refine List.mem_append.mpr ?_
  rcases rootFor_or input.isExtern with hroot | hroot
  · exact .inl (List.mem_filter.mpr ⟨hplot, by simp [habove, hroot]⟩)
  · exact .inr (List.mem_filter.mpr ⟨hplot, by simp [habove, hroot]⟩)

/-- The global scope binds a name to its first global declaration. -/
theorem Holds.means_global (h : p.Holds plots)
    (hlayered : ∀ plot ∈ plots, ∀ c ∈ plot.body, c.tree.Layered) :
    p.Means x [] [0] (Frame.global ((walked plots).map Plot.frame) x) := by
  have horder : p.inOrder = (walked plots).map Plot.input := (walked_inputs h).symm
  have hlists : ∀ plot ∈ walked plots,
      p.store.Lists (p.DeclaresGlobally plot.input) plot.hoisted :=
    fun plot hplot => h.lists_hoisted hlayered (mem_of_mem_walked hplot)
  rw [Frame.global, List.findSome?_map]
  cases hfound : (walked plots).findSome? ((fun f : Frame => f.var? 0 true x) ∘ Plot.frame) with
  | some var =>
    obtain ⟨before, plot, after, hwalked, hvar, hbefore⟩ := List.findSome?_eq_some_iff.mp hfound
    obtain ⟨q, hq, rfl⟩ := Option.map_eq_some_iff.mp hvar
    rw [hwalked] at hlists
    refine .global ⟨(hlists plot (by simp)).first hq, before.map Plot.input, after.map Plot.input,
      ?_, ?_⟩
    · rw [horder, hwalked, List.map_append, List.map_cons]
      rfl
    · intro j hj
      obtain ⟨other, hother, rfl⟩ := List.mem_map.mp hj
      have hnone : other.frame.first? x = none := Option.map_eq_none_iff.mp (hbefore other hother)
      exact (hlists other (List.mem_append_left _ hother)).none hnone
  | none =>
    refine .nothing fun i d hdeclares => ?_
    obtain ⟨input, hinput, -⟩ := id hdeclares
    have hlt : i < plots.length := h.length ▸ (List.getElem?_eq_some_iff.mp hinput).1
    have hplot := List.getElem_mem hlt
    obtain ⟨-, -, hi, -⟩ := h.spec (List.getElem?_eq_getElem hlt)
    have hwalked := h.mem_walked hplot
    have hnone : (plots[i]).frame.first? x = none :=
      Option.map_eq_none_iff.mp (List.findSome?_eq_none_iff.mp hfound _ hwalked)
    exact (hlists _ hwalked).none hnone d (hi.symm ▸ hdeclares)

end Program

section Trace

open RefCheck.Check

variable {p : Program} {plots : List Plot} {visits : List Visit} {s : WalkState Trace} {v : Visit}
  {ids : List Nat}

/-- What is written down at a name is what its visit comes to. -/
structure Sighting.Of (p : Program) (plots : List Plot) (σ : Sighting) (v : Visit) : Prop where
  tree : v.tree.tree.kind = .name
  text : σ.text = p.store.text (some v.tree.root)
  meant : ∃ ids : List Nat, ids.length = v.site.functions.length ∧ σ.place = v.place ids ∧
    σ.meaning = (Frame.meaning ids v.site.frames σ.text).or
      (Frame.global ((walked plots).map Plot.frame) σ.text)

/-- A walk that changed nothing so far, and wrote down the names among some visits. -/
structure Traced (p : Program) (plots : List Plot) (visits : List Visit) (s : WalkState Trace) :
    Prop where
  program : s.program = p
  sound : s.scopes.Sound
  isGlobal : s.scopes.parent? 0 = some none
  global : ∀ x, s.scopes.own? (some 0) x = Frame.global ((walked plots).map Plot.frame) x
  names : ∀ σ ∈ s.own.sightings, σ.kind = .name → ∃ v ∈ visits, σ.Of p plots v

/-- Visits are counted as they come. -/
def countVisit (v : Visit) (visits : List Visit) : Progress NodeId (List Visit) :=
  .on (visits ++ [v])

theorem each_countVisit (more visits : List Visit) :
    Progress.each countVisit more visits = .on (visits ++ more) := by
  induction more generalizing visits with
  | nil => rw [Progress.each, List.append_nil]
  | cons v rest ih =>
    rw [Progress.each, countVisit, Progress.on_andThen, ih, List.append_assoc]
    rfl

/-- At most the sighting of a visit is new. -/
theorem Traced.seen (h : Traced p plots visits s) (place : Place) (more : List Visit)
    (hnew : s.program.store.kind? (some place.node) = some .name →
      ∃ v ∈ visits ++ more, (Trace.sighting place s).Of p plots v) :
    (Progress.on (visits ++ more) : Progress NodeId (List Visit)).Follows
      (After (Traced p plots) s) (Trace.visitor none place s) := by
  refine ⟨⟨h.program, h.sound, h.isGlobal, h.global, fun σ hσ hkind => ?_⟩,
    NodeStore.grew_refl _, h.sound.keeps⟩
  rcases List.mem_append.mp hσ with hσ | hσ
  · obtain ⟨v, hv, hof⟩ := h.names σ hσ hkind
    exact ⟨v, List.mem_append_left _ hv, hof⟩
  · obtain rfl := List.mem_singleton.mp hσ
    apply hnew
    cases hnode : s.program.store.kind? (some place.node) with
    | none => simp [Trace.sighting, hnode] at hkind
    | some kind =>
      simp only [Trace.sighting, hnode, Option.getD_some] at hkind
      rw [hkind]

theorem Traced.visit (h : Traced p plots visits s) (hstands : s.program.store.Stands v)
    (hmodels : s.scopes.Models ids v.site.frames) :
    (countVisit v visits).Follows (After (Traced p plots) s)
      (Trace.visitor none (v.place ids) s) := by
  refine h.seen (v.place ids) [v] fun hname => ⟨v, List.mem_append_right _ List.mem_cons_self, ?_⟩
  have hkind : s.program.store.kind? (some (v.place ids).node) = some v.tree.tree.kind :=
    hstands.shown.kind_eq
  rw [hkind] at hname
  refine ⟨Option.some.inj hname, ?_, ids, ?_, rfl, ?_⟩
  · rw [← h.program]
    rfl
  · have hlength := hmodels.length
    rwa [Site.frames, List.length_map] at hlength
  · have hscope : (v.place ids).scope = some (Frame.nearest ids) := by cases ids <;> rfl
    rw [Trace.sighting, WalkState.lookup?, hscope, hmodels.lookup?, h.global]

theorem traced_simulation (hp : p.Holds plots) :
    ScriptSimulation (Trace.visitor none) countVisit (Traced p plots) (fun _ => True) plots
      (p.store.size + 2) where
  sound visits s h := h.sound
  tables visits s t h hkeeps hglobal := {
    program := h.program
    sound := hkeeps.sound
    isGlobal := (hkeeps.parent 0 (ScopeTable.lt_of_parent? h.isGlobal)).trans h.isGlobal
    global := fun x => (hglobal x).trans (h.global x)
    names := h.names }
  visits visits s v ids h _ hstands hmodels := h.visit hstands hmodels
  skips visits s place kind h hkind hskip := by
    have hseen := h.seen place [] fun hname => by
      rw [hkind] at hname
      rcases hskip with rfl | rfl <;> cases hname
    rwa [List.append_nil] at hseen
  inputs _ _ := trivial
  global visits s h := h.isGlobal
  scripts visits s h plot hplot := (hp.shown plot hplot).unchanged
    (congrArg Program.store h.program) (Nat.le_add_right _ _)

/-- The names that a walk of all scripts sees are among the visits to them. -/
theorem traced_walk (hp : p.Holds plots) :
    Traced p plots ((walked plots).flatMap Plot.visits)
      (Walk.roots (Trace.visitor none) p [some Program.externsRoot, some Program.mainRoot]
        Trace.empty).state := by
  have hglobal := globalOf_start hp
  have hstart : Traced p plots []
      (Walk.start p [some Program.externsRoot, some Program.mainRoot] Trace.empty) :=
    ⟨rfl, hglobal.sound, hglobal.isGlobal, hglobal.own,
      fun σ hσ => absurd hσ (List.not_mem_nil (a := σ))⟩
  have hwalk := (traced_simulation hp).roots (plots.filter _) (plots.filter _)
    (fun plot => mem_filter_above) (fun plot => mem_filter_above) (children_root hp (.inl rfl))
    (fun visits t ht => ht.program.symm ▸ children_root hp (.inr rfl)) hstart
  rw [each_countVisit] at hwalk
  exact hwalk.ended.1.related

theorem means_of_traced (hp : p.Holds plots)
    (hlayered : ∀ plot ∈ plots, ∀ c ∈ plot.body, c.tree.Layered)
    (h : Traced p plots ((walked plots).flatMap Plot.visits) s) {σ : Sighting}
    (hσ : σ ∈ s.own.sightings) (hkind : σ.kind = .name) :
    σ.text = p.store.text (some σ.place.node) ∧
      ∃ functions, p.store.Around σ.place.node functions ∧
        p.Means σ.text functions σ.place.scopes σ.meaning := by
  obtain ⟨v, hv, hof⟩ := h.names σ hσ hkind
  obtain ⟨plot, hplot, hv⟩ := List.mem_flatMap.mp hv
  have hplot := mem_of_mem_walked hplot
  have hsurrounded := (hp.shown plot hplot).surrounded (hlayered plot hplot) v hv
  obtain ⟨functions, haround, hintroduces⟩ := hsurrounded.around
  obtain ⟨ids, hlength, hplace, hmeaning⟩ := hof.meant
  rw [hmeaning, hplace]
  refine ⟨hof.text, functions, haround, ?_⟩
  exact (hp.means_global hlayered).functions hintroduces hlength

end Trace

/-- Statements that were parsed are layered. -/
theorem Program.layered_of_parsed {p : Program} {plots : List Plot} (hp : p.Holds plots)
    (hbodies : bodyOf plots = p.statements) :
    ∀ plot ∈ plots, ∀ c ∈ plot.body, c.tree.Layered := by
  intro plot hplot c hc
  have hmem : c.tree ∈ bodyOf plots plot.input := by
    rw [Check.bodyOf_input hp hplot]
    exact List.mem_map_of_mem hc
  rw [hbodies] at hmem
  exact layered_of_fits (Program.fits_statements hmem)

/-- Every name that a walk of all scripts sees means what the innermost function around it says that
declares it, or else the first global declaration, if there is one. -/
theorem meaning_of_sighting (levels : Levels) (edits : List Edit) (σ : Sighting) :
    let p := (Program.empty levels).edited edits
    σ ∈ (Walk.roots (Trace.visitor none) p [some Program.externsRoot, some Program.mainRoot]
      Trace.empty).state.own.sightings → σ.kind = .name →
    σ.text = p.store.text (some σ.place.node) ∧
      ∃ functions, p.store.Around σ.place.node functions ∧
        p.Means σ.text functions σ.place.scopes σ.meaning := by
  intro p hσ hkind
  obtain ⟨plots, hp, hbodies, -⟩ := Program.holds_edited levels edits
  exact means_of_traced hp (Program.layered_of_parsed hp hbodies) (traced_walk hp) hσ hkind

/-- For instance the parameter of a function inside it. -/
theorem meaning_of_sighting_parameter :
    let p := (Program.empty Levels.none).edited
      [.addExtern "env.js" "var x;", .addSource "main.js" "function f(a) { return a + x; }" none]
    let seen := (Walk.roots (Trace.visitor none) p
      [some Program.externsRoot, some Program.mainRoot] Trace.empty).state.own.sightings
    ∃ σ ∈ seen, (σ.kind = .name ∧ σ.place.node = 8) ∧
      ∃ functions, p.store.Around 8 functions ∧
        p.Means "a" functions σ.place.scopes (some ⟨"a", some 6, some 1, some 1, false⟩) := by
  have hseen : ∃ σ ∈ (Walk.roots (Trace.visitor none) ((Program.empty Levels.none).edited
      [.addExtern "env.js" "var x;", .addSource "main.js" "function f(a) { return a + x; }" none])
      [some Program.externsRoot, some Program.mainRoot] Trace.empty).state.own.sightings,
      (σ.kind = .name ∧ σ.place.node = 8) ∧
        σ.text = "a" ∧ σ.meaning = some ⟨"a", some 6, some 1, some 1, false⟩ := by
    decide +kernel
  obtain ⟨σ, hσ, hkind, htext, hmeaning⟩ := hseen
  obtain ⟨-, functions, haround, hmeans⟩ := meaning_of_sighting Levels.none
    [.addExtern "env.js" "var x;", .addSource "main.js" "function f(a) { return a + x; }" none]
    σ hσ hkind.1
  rw [hkind.2] at haround
  rw [htext, hmeaning] at hmeans
  exact ⟨σ, hσ, hkind, functions, haround, hmeans⟩

end RefCheck
