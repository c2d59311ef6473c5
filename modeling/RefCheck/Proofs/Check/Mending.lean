import RefCheck.Check.Variables
import RefCheck.Proofs.Program.Holding

/-!
# What placeholders do to a program

Names are mended one after the other: the first one may make the script that collects placeholders,
and each adds a statement to it. Nothing else of the program changes.
-/

namespace RefCheck.Check

open RefCheck.Text RefCheck.Script

variable {p : Program} {plots : List Plot} {h : Placeholders} {name : String} {names : List String}

/-- A program and its placeholders after a name got one. -/
def mendOne (q : Program × Repairs) (name : String) : Program × Repairs :=
  let (p, h) := placeholders q.2 q.1
  ((h.declare p name).1, some h)

/-- A program and its placeholders after some names got one, in this order. -/
def mend (q : Program × Repairs) (names : List String) : Program × Repairs := names.foldl mendOne q

theorem mend_append (q : Program × Repairs) (names more : List String) :
    mend q (names ++ more) = mend (mend q names) more := List.foldl_append

/-- What mending leaves of a program. -/
structure Kept (p q : Program) : Prop where
  modules : q.modules = p.modules
  bag : q.bag = p.bag
  store : p.store.Grew q.store

theorem Kept.trans {p q r : Program} (hpq : Kept p q) (hqr : Kept q r) : Kept p r :=
  ⟨hqr.modules.trans hpq.modules, hqr.bag.trans hpq.bag, hpq.store.trans hqr.store⟩

theorem kept_refl (p : Program) : Kept p p := ⟨rfl, rfl, NodeStore.grew_refl _⟩

/-- Names get placeholders in a script that is there. -/
theorem mend_some {plot : Plot} (hp : p.Holds plots) (hplot : plot ∈ plots)
    (hroot : plot.root = h.root) (names : List String) :
    ∃ placed : List Planted, placed.map Planted.tree = names.map Program.placeholder ∧
      (mend (p, some h) names).2 = some h ∧
      (mend (p, some h) names).1.inputs = p.inputs ∧
      Kept p (mend (p, some h) names).1 ∧
      (mend (p, some h) names).1.Holds (plots.map (Plot.grown h.root placed)) := by
  induction names generalizing p plots plot with
  | nil =>
    refine ⟨[], rfl, rfl, rfl, kept_refl p, ?_⟩
    rw [Plot.grown_nil, List.map_id]
    exact hp
  | cons name rest ih =>
    have hlt : h.root < p.store.size :=
      hroot ▸ (Array.getElem?_eq_some_iff.mp (hp.shown plot hplot).node).1
    have hone : mendOne (p, some h) name = (p.withPlaceholder h.root name, some h) :=
      congrArg (·, some h) (Program.declare_eq hlt)
    let statement : Planted := ⟨p.store.size, Program.placeholder name⟩
    have hheld : (p.withPlaceholder h.root name).Holds
        (plots.map (Plot.grown h.root [statement])) := hroot ▸ hp.withPlaceholder hplot name
    have hkept : Kept p (p.withPlaceholder h.root name) :=
      ⟨rfl, rfl, NodeStore.grew_hang (hroot ▸ (hp.shown plot hplot).node) (.inl rfl)⟩
    obtain ⟨placed, htrees, hrepairs, hinputs, hrest, hplots⟩ :=
      ih hheld (List.mem_map_of_mem hplot) (Plot.grown_root.trans hroot)
    rw [mend, List.foldl_cons, hone]
    refine ⟨statement :: placed, ?_, hrepairs, hinputs, hkept.trans hrest, ?_⟩
    · rw [List.map_cons, List.map_cons, htrees]
    · rw [List.map_map] at hplots
      have hgrown : Plot.grown h.root placed ∘ Plot.grown h.root [statement] =
          Plot.grown h.root (statement :: placed) := funext fun q => q.grown_grown placed
      rwa [hgrown] at hplots

/-- The first name makes the script that collects placeholders. -/
theorem mendOne_none (p : Program) (name : String) :
    mendOne (p, none) name =
      mendOne ((p.newExtern Placeholders.inputName).1, some ⟨p.inputs.length, p.store.size⟩) name :=
  rfl

/-- The input of the script of the placeholders. -/
abbrev hostInput (h : Placeholders) : Input :=
  ⟨h.input, Placeholders.inputName, none, true, h.root, none⟩

/-- The script of the placeholders is that of an extern that was made up, and declares nothing but
placeholders. -/
structure Hosts (p : Program) (h : Placeholders) (plot : Plot) : Prop where
  input : plot.input = h.input
  root : plot.root = h.root
  body : ∀ c ∈ plot.body, ∃ x, x ≠ "" ∧ c.tree = Program.placeholder x
  blank : p.inputs[h.input]? = some (hostInput h)

/-- The placeholders of a check, if there are any, have their script among the plots. -/
def Hosted (p : Program) (plots : List Plot) (repairs : Repairs) : Prop :=
  ∀ h ∈ repairs, ∃ plot ∈ plots, Hosts p h plot

/-- What mending does, given the plots before and after it. -/
structure Mended (p : Program) (plots : List Plot) (names : List String) (q : Program × Repairs)
    (after : List Plot) : Prop where
  holds : q.1.Holds after
  hosted : Hosted q.1 after q.2
  made : names ≠ [] → q.2.isSome
  kept : Kept p q.1
  inputs : ∃ new, q.1.inputs = p.inputs ++ new ∧
    ∀ input ∈ new, input.isExtern = true ∧ input.module = none
  scripts : ∀ plot ∈ plots, ∃ more, { plot with body := plot.body ++ more } ∈ after ∧
    ∀ c ∈ more, ∃ x ∈ names, c.tree = Program.placeholder x
  mains : Plot.rootRecord after Program.mainRoot = Plot.rootRecord plots Program.mainRoot
  bodies : ∀ i, bodyOf after i =
    bodyOf plots i ++ if q.2.map (·.input) = some i then names.map Program.placeholder else []

section Mended

variable {q : Program × Repairs} {after : List Plot} {i : InputId}

/-- The inputs that were there stay as they are. -/
theorem Mended.input? (h : Mended p plots names q after) (hi : i < p.inputs.length) :
    q.1.input? i = p.input? i := by
  obtain ⟨new, hnew, -⟩ := h.inputs
  rw [Program.input?, Program.input?, hnew, List.getElem?_append_left hi]

/-- The input that collects placeholders is an extern without a module. -/
theorem Mended.host (h : Mended p plots names q after) (hi : q.2.map (·.input) = some i) :
    ∃ root, q.1.input? i = some (hostInput ⟨i, root⟩) := by
  obtain ⟨host, hhost, rfl⟩ := Option.map_eq_some_iff.mp hi
  obtain ⟨plot, -, hhosts⟩ := h.hosted host hhost
  exact ⟨host.root, hhosts.blank⟩

end Mended

theorem bodyOf_map_grown {plot : Plot} {placed : List Planted} (hp : p.Holds plots)
    (hplot : plot ∈ plots) (i : InputId) :
    bodyOf (plots.map (Plot.grown plot.root placed)) i =
      bodyOf plots i ++ if some plot.input = some i then placed.map Planted.tree else [] := by
  simp only [bodyOf]
  rw [List.getElem?_map]
  cases hi : plots[i]? with
  | none =>
    have hne : plot.input ≠ i := by
      rintro rfl
      rw [hp.getElem?_input hplot] at hi
      cases hi
    simp [hne]
  | some q =>
    obtain ⟨_, _, hinput, -⟩ := hp.spec hi
    by_cases hroot : q.root = plot.root
    · have hsame : q = plot := hp.eq_of_root (List.mem_of_getElem? hi) hplot hroot
      subst hsame
      simp [Plot.grown, hinput]
    · have hne : plot.input ≠ i := by
        rintro rfl
        rw [hp.getElem?_input hplot] at hi
        exact hroot (congrArg Plot.root (Option.some.inj hi)).symm
      simp [Plot.grown, hroot, hne]

theorem mended_nil {repairs : Repairs} (hp : p.Holds plots) (hr : Hosted p plots repairs) :
    Mended p plots [] (mend (p, repairs) []) plots where
  holds := hp
  hosted := hr
  made := by simp
  kept := kept_refl p
  inputs := ⟨[], by simp [mend], by simp⟩
  scripts plot hplot := ⟨[], by simpa using hplot, by simp⟩
  mains := rfl
  bodies i := by simp

theorem mended_some {plot : Plot} (hp : p.Holds plots) (hplot : plot ∈ plots)
    (hhost : Hosts p h plot) (hnames : ∀ x ∈ names, x ≠ "") :
    ∃ after, Mended p plots names (mend (p, some h) names) after := by
  obtain ⟨placed, htrees, hrepairs, hinputs, hkept, hheld⟩ :=
    mend_some hp hplot hhost.root names
  have hplaced : ∀ c ∈ placed, ∃ x ∈ names, c.tree = Program.placeholder x := by
    intro c hc
    obtain ⟨x, hx, hxc⟩ := List.mem_map.mp (htrees ▸ List.mem_map_of_mem hc)
    exact ⟨x, hx, hxc.symm⟩
  refine ⟨_, hheld, ?_, fun _ => ?_, hkept, ⟨[], ?_, by simp⟩, fun q hq => ?_,
    Program.rootRecord_map_grown, fun i => ?_⟩
  · intro h' hh'
    rw [hrepairs] at hh'
    cases hh'
    refine ⟨_, List.mem_map_of_mem hplot, ?_⟩
    rw [Plot.grown, if_pos hhost.root]
    refine ⟨hhost.input, hhost.root, fun c hc => ?_, hinputs ▸ hhost.blank⟩
    rcases List.mem_append.mp hc with hc | hc
    · exact hhost.body c hc
    · obtain ⟨x, hx, hxc⟩ := hplaced c hc
      exact ⟨x, hnames x hx, hxc⟩
  · rw [hrepairs]
    rfl
  · rw [hinputs, List.append_nil]
  · have hq' := List.mem_map_of_mem (f := Plot.grown h.root placed) hq
    rw [Plot.grown] at hq'
    split at hq'
    · exact ⟨placed, hq', hplaced⟩
    · exact ⟨[], by simpa using hq', by simp⟩
  · rw [hrepairs, ← hhost.root, bodyOf_map_grown hp hplot, htrees, hhost.input]
    rfl

/-- A script for placeholders that was just made. -/
theorem holds_fresh (hp : p.Holds plots) :
    let q := (p.newExtern Placeholders.inputName).1
    let plot : Plot := ⟨Program.externsRoot, p.inputs.length, p.store.size, Span.none, []⟩
    q.Holds (plots ++ [plot]) ∧ Hosts q ⟨p.inputs.length, p.store.size⟩ plot ∧
      q.inputs = p.inputs ++ [hostInput ⟨p.inputs.length, p.store.size⟩] ∧ Kept p q := by
  have hinputs : (p.newExtern Placeholders.inputName).1.inputs =
      p.inputs ++ [hostInput ⟨p.inputs.length, p.store.size⟩] := by
    rw [hp.newExtern_eq]
    rfl
  refine ⟨hp.newExtern _, ⟨rfl, rfl, nofun, ?_⟩, hinputs, ?_⟩
  · rw [hinputs]
    exact List.getElem?_concat_length
  · rw [hp.newExtern_eq]
    exact ⟨rfl, rfl, hp.grew_withScript _⟩

theorem mend_none (p : Program) (name : String) (rest : List String) :
    mend (p, none) (name :: rest) =
      mend ((p.newExtern Placeholders.inputName).1, some ⟨p.inputs.length, p.store.size⟩)
        (name :: rest) := by
  simp only [mend, List.foldl_cons, mendOne_none]

theorem mended_none (hp : p.Holds plots) (name : String) (rest : List String)
    (hnames : ∀ x ∈ name :: rest, x ≠ "") :
    ∃ after, Mended p plots (name :: rest) (mend (p, none) (name :: rest)) after := by
  let plot : Plot := ⟨Program.externsRoot, p.inputs.length, p.store.size, Span.none, []⟩
  obtain ⟨hq, hhost, hnew, hkept⟩ := holds_fresh hp
  have hplot : plot ∈ plots ++ [plot] := List.mem_append_right _ List.mem_cons_self
  obtain ⟨after, hafter⟩ := mended_some hq hplot hhost hnames
  rw [mend_none]
  obtain ⟨more, hinputs, hmore⟩ := hafter.inputs
  refine ⟨after, hafter.holds, hafter.hosted, hafter.made, hkept.trans hafter.kept, ?_, ?_, ?_, ?_⟩
  · rw [hnew, List.append_assoc] at hinputs
    refine ⟨_, hinputs, fun input hinput => ?_⟩
    rcases List.mem_append.mp hinput with hinput | hinput
    · rw [List.mem_singleton.mp hinput]
      exact ⟨rfl, rfl⟩
    · exact hmore input hinput
  · exact fun old hold => hafter.scripts old (List.mem_append_left _ hold)
  · rw [hafter.mains]
    have hextern : ¬ plot.above = Program.mainRoot := Nat.zero_ne_one
    simp [Plot.rootRecord, List.filter_append, hextern, plot]
  · intro i
    rw [hafter.bodies i]
    congr 1
    simp only [bodyOf]
    rw [List.getElem?_append]
    split
    · rfl
    · next hlt =>
      rw [List.getElem?_eq_none (Nat.le_of_not_lt hlt), List.getElem?_singleton]
      split <;> rfl

theorem mended {repairs : Repairs} (hp : p.Holds plots) (hr : Hosted p plots repairs)
    (names : List String) (hnames : ∀ x ∈ names, x ≠ "") :
    ∃ after, Mended p plots names (mend (p, repairs) names) after := by
  cases names with
  | nil => exact ⟨plots, mended_nil hp hr⟩
  | cons name rest =>
    cases repairs with
    | none => exact mended_none hp name rest hnames
    | some h =>
      obtain ⟨plot, hplot, hhost⟩ := hr h rfl
      exact mended_some hp hplot hhost hnames

/-- Mending adds an input at most, for a checker that had none, which has it from then on. -/
theorem mend_inputs {repairs : Repairs} (hp : p.Holds plots) (hr : Hosted p plots repairs)
    (names : List String) :
    (mend (p, repairs) names).2 = repairs ∧ (mend (p, repairs) names).1.inputs = p.inputs ∨
    repairs = none ∧
      (mend (p, repairs) names).2 = some ⟨p.inputs.length, p.store.size⟩ ∧
      (mend (p, repairs) names).1.inputs =
        p.inputs ++ [hostInput ⟨p.inputs.length, p.store.size⟩] := by
  cases repairs with
  | some h =>
    obtain ⟨plot, hplot, hhosts⟩ := hr h rfl
    obtain ⟨-, -, hrepairs, hinputs, -⟩ := mend_some hp hplot hhosts.root names
    exact .inl ⟨hrepairs, hinputs⟩
  | none =>
    cases names with
    | nil => exact .inl ⟨rfl, rfl⟩
    | cons name rest =>
      obtain ⟨hq, hhosts, hnew, -⟩ := holds_fresh hp
      obtain ⟨-, -, hrepairs, hinputs, -⟩ :=
        mend_some hq (List.mem_append_right _ List.mem_cons_self) hhosts.root (name :: rest)
      rw [mend_none]
      exact .inr ⟨rfl, hrepairs, hinputs.trans hnew⟩

end RefCheck.Check
