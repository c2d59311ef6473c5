import Mathlib.Data.List.Find
import RefCheck.Proofs.Scope.Hoisting

/-!
# Scope tables during a walk

The scopes around a place are the functions around it, each with the names that it declares, and the
global scope. What a name means there is what the innermost function that declares it says, or else
what the global scope says.
-/

namespace RefCheck

open RefCheck.Script

/-- The names that a function, or a script as a whole, declares. -/
structure Frame where
  names : List Planted
  input : InputId

namespace Frame

/-- The first declaration of a name. -/
def first? (f : Frame) (name : String) : Option Planted :=
  if name = "" then none else f.names.find? fun q => q.tree.text = name

/-- The variable that a scope with these names binds to a name. -/
def var? (f : Frame) (scope : ScopeId) (isGlobal : Bool) (name : String) : Option Var :=
  (f.first? name).map fun q => ⟨name, some q.root, some f.input, some scope, isGlobal⟩

/-- The scope that is nearest to a place inside some scopes. -/
def nearest (ids : List Nat) : Nat := ids.head?.getD 0

/-- What a name means inside functions, if one of them declares it. -/
def meaning : List Nat → List Frame → String → Option Var
  | id :: ids, f :: frames, name => (f.var? id false name).or (meaning ids frames name)
  | _, _, _ => none

/-- What a name means in the scope of some scripts. -/
def global (scripts : List Frame) (name : String) : Option Var :=
  scripts.findSome? fun f => f.var? 0 true name

theorem firstSpelled_eq {s : NodeStore} {names : List Planted} {name : String} (input : InputId)
    (h : ∀ q ∈ names, ∃ parent, s.Shows parent q) :
    ScopeTable.firstSpelled s (names.map fun q => some q.root) name =
      ((Frame.mk names input).first? name).map fun q => some q.root := by
  rw [ScopeTable.firstSpelled, first?]
  split
  · rfl
  · rw [List.find?_map]
    refine congrArg (Option.map fun q : Planted => some q.root) (List.find?_congr fun q hq => ?_)
    obtain ⟨parent, hshows⟩ := h q hq
    simp only [Function.comp_apply, hshows.text_eq]

theorem first?_isSome {f : Frame} {name : String} (hname : name ≠ "") :
    (f.first? name).isSome ↔ name ∈ f.names.map fun q => q.tree.text := by
  simp [first?, hname]

theorem input_of_var? {f : Frame} {scope : ScopeId} {isGlobal : Bool} {name : String} {var : Var}
    (h : f.var? scope isGlobal name = some var) :
    var.input = some f.input ∧ var.isGlobal = isGlobal := by
  obtain ⟨q, -, rfl⟩ := Option.map_eq_some_iff.mp h
  exact ⟨rfl, rfl⟩

theorem meaning_of_mem {ids : List Nat} {frames : List Frame} {name : String} (input : InputId)
    (hname : name ≠ "") (hlength : ids.length = frames.length)
    (hinput : ∀ f ∈ frames, f.input = input)
    (hmem : name ∈ frames.flatMap fun f => f.names.map fun q => q.tree.text) :
    ∃ var, meaning ids frames name = some var ∧ var.input = some input := by
  induction frames generalizing ids with
  | nil => cases hmem
  | cons f rest ih =>
    obtain ⟨hf, hrest⟩ := List.forall_mem_cons.mp hinput
    cases ids with
    | nil => cases hlength
    | cons id ids =>
      rw [meaning]
      cases hvar : f.var? id false name with
      | some var => exact ⟨var, rfl, hf ▸ (input_of_var? hvar).1⟩
      | none =>
        refine ih (Nat.succ.inj hlength) hrest ?_
        rw [List.flatMap_cons] at hmem
        apply (List.mem_append.mp hmem).resolve_left
        intro hfirst
        have hsome := (first?_isSome hname).mpr hfirst
        rw [Option.map_eq_none_iff.mp hvar] at hsome
        cases hsome

theorem meaning_of_not_mem {ids : List Nat} {frames : List Frame} {name : String}
    (hname : name ≠ "")
    (hmem : name ∉ frames.flatMap fun f => f.names.map fun q => q.tree.text) :
    meaning ids frames name = none := by
  induction frames generalizing ids with
  | nil => cases ids <;> rfl
  | cons f rest ih =>
    rw [List.flatMap_cons, List.mem_append, not_or] at hmem
    cases ids with
    | nil => rfl
    | cons id ids =>
      have hfirst : f.first? name = none := by
        rw [← Option.not_isSome_iff_eq_none, first?_isSome hname]
        exact hmem.1
      rw [meaning, var?, hfirst, ih hmem.2]
      rfl

/-- What a function declares is local to its input. -/
theorem input_of_meaning {ids : List Nat} {frames : List Frame} {name : String} {input : InputId}
    {var : Var} (hinput : ∀ f ∈ frames, f.input = input)
    (h : meaning ids frames name = some var) : var.input = some input ∧ var.isGlobal = false := by
  induction frames generalizing ids with
  | nil => cases ids <;> cases h
  | cons f rest ih =>
    obtain ⟨hf, hrest⟩ := List.forall_mem_cons.mp hinput
    cases ids with
    | nil => cases h
    | cons id ids =>
      rw [meaning] at h
      rcases Option.or_eq_some_iff.mp h with hvar | ⟨-, hmeaning⟩
      · exact hf ▸ input_of_var? hvar
      · exact ih hrest hmeaning

theorem isGlobal_of_global {scripts : List Frame} {name : String} {var : Var}
    (h : global scripts name = some var) : var.isGlobal = true := by
  obtain ⟨f, -, hvar⟩ := List.exists_of_findSome?_eq_some h
  exact (input_of_var? hvar).2

end Frame

/-- What a script declares globally. -/
def Script.Plot.frame (plot : Plot) : Frame := ⟨plot.hoisted, plot.input⟩

namespace ScopeTable

variable {t u : ScopeTable} {s : NodeStore} {ids : List Nat} {frames : List Frame}
  {parent : Option NodeId} {p : Planted} {above : NodeKind} {name : String} {input : InputId}

/-- The scopes with the ids lie in each other, the last one in the global scope, and bind what the
frames declare. -/
def Models (t : ScopeTable) : List Nat → List Frame → Prop
  | [], [] => t.parent? 0 = some none
  | id :: ids, f :: frames =>
    t.parent? id = some (some (Frame.nearest ids)) ∧ Frame.nearest ids < id ∧
      (∀ name, t.own? (some id) name = f.var? id false name) ∧ t.Models ids frames
  | _, _ => False

theorem lt_of_parent? {i : Nat} {outer : Option ScopeId} (h : t.parent? i = some outer) :
    i < t.size := parent?_isSome.mp (by rw [h]; rfl)

theorem Models.nearest_lt (h : t.Models ids frames) : Frame.nearest ids < t.size := by
  cases ids with
  | nil =>
    cases frames with
    | nil => exact lt_of_parent? h
    | cons f frames => exact h.elim
  | cons id ids =>
    cases frames with
    | nil => exact h.elim
    | cons f frames => exact lt_of_parent? h.1

theorem Models.mono (h : t.Models ids frames) (hkeeps : t.Keeps u) : u.Models ids frames := by
  induction ids generalizing frames with
  | nil =>
    cases frames with
    | nil => exact (hkeeps.parent 0 h.nearest_lt).trans h
    | cons f frames => exact h.elim
  | cons id ids ih =>
    cases frames with
    | nil => exact h.elim
    | cons f frames =>
      have hlt : id < t.size := h.nearest_lt
      obtain ⟨hparent, hless, hown, hrest⟩ := h
      refine ⟨(hkeeps.parent id hlt).trans hparent, hless, fun name => ?_, ih hrest⟩
      exact (hkeeps.own id name (Nat.zero_lt_of_lt hless) hlt).trans (hown name)

theorem Models.length (h : t.Models ids frames) : ids.length = frames.length := by
  induction ids generalizing frames with
  | nil =>
    cases frames with
    | nil => rfl
    | cons f frames => exact h.elim
  | cons id ids ih =>
    cases frames with
    | nil => exact h.elim
    | cons f frames => exact congrArg Nat.succ (ih h.2.2.2)

theorem enclosingWithin_succ {i : Nat} {outer : Option ScopeId} (steps : Nat)
    (h : t.parent? i = some outer) :
    t.enclosingWithin (steps + 1) (some i) = i :: t.enclosingWithin steps outer := by
  obtain ⟨scope, hscope, rfl⟩ := Option.map_eq_some_iff.mp h
  have hget : t.get? (some i) = some scope := hscope
  simp only [enclosingWithin, hget]

theorem Models.enclosingWithin {steps : Nat} (h : t.Models ids frames)
    (hsteps : Frame.nearest ids < steps) :
    t.enclosingWithin steps (some (Frame.nearest ids)) = ids ++ [0] := by
  induction ids generalizing frames steps with
  | nil =>
    cases frames with
    | nil =>
      obtain ⟨steps, rfl⟩ : ∃ n, steps = n + 1 := ⟨steps - 1, by omega⟩
      exact (enclosingWithin_succ steps h).trans (by cases steps <;> rfl)
    | cons f frames => exact h.elim
  | cons id ids ih =>
    cases frames with
    | nil => exact h.elim
    | cons f frames =>
      obtain ⟨hparent, hless, -, hrest⟩ := h
      replace hsteps : id < steps := hsteps
      obtain ⟨steps, rfl⟩ : ∃ n, steps = n + 1 := ⟨steps - 1, by omega⟩
      rw [show Frame.nearest (id :: ids) = id from rfl, enclosingWithin_succ steps hparent,
        ih hrest (by omega), List.cons_append]

theorem Models.enclosing (h : t.Models ids frames) :
    t.enclosing (some (Frame.nearest ids)) = ids ++ [0] := h.enclosingWithin h.nearest_lt

theorem Models.findSome? (h : t.Models ids frames) :
    (ids.findSome? fun i => t.own? (some i) name) = Frame.meaning ids frames name := by
  induction ids generalizing frames with
  | nil => cases frames <;> rfl
  | cons id ids ih =>
    cases frames with
    | nil => exact h.elim
    | cons f frames =>
      obtain ⟨-, -, hown, hrest⟩ := h
      rw [List.findSome?_cons, hown, ih hrest, Frame.meaning]
      cases f.var? id false name <;> rfl

theorem Models.lookup? (h : t.Models ids frames) :
    t.lookup? (some (Frame.nearest ids)) name =
      (Frame.meaning ids frames name).or (t.own? (some 0) name) := by
  rw [ScopeTable.lookup?, h.enclosing, List.findSome?_append, h.findSome?]
  cases Frame.meaning ids frames name <;> simp

theorem own?_size : t.own? (some t.size) name = none := by
  simp [own?, ownId?, get?, size]

theorem size_pushFunction {function outer : Option NodeId} :
    (t.pushFunction s function outer).size = t.size + 1 := by
  rw [pushFunction, size_declareNodes, size_push]

theorem Sound.own?_pushFunction (h : t.Sound) {function : Option NodeId} {outer : Option ScopeId}
    {i : Nat} (hi : i < t.size) :
    (t.pushFunction s function outer).own? (some i) name = t.own? (some i) name := by
  rw [pushFunction, h.push.own?_declareNodes (by rw [size_push]; exact Nat.lt_succ_self _),
    if_neg (Nat.ne_of_lt hi), own?_push]

theorem Sound.keeps_pushFunction (h : t.Sound) (hsize : 0 < t.size) {function : Option NodeId}
    {outer : Option ScopeId} : t.Keeps (t.pushFunction s function outer) where
  sound := h.push.declareNodes _
  size := by rw [size_pushFunction]; exact Nat.le_succ _
  parent i hi := by rw [pushFunction, parent?_declareNodes, parent?_push hi]
  own i name _ hi := h.own?_pushFunction hi
  global name var hvar := (h.own?_pushFunction hsize).trans hvar

theorem Models.pushFunction (h : t.Models ids frames) (hsound : t.Sound)
    (hp : s.Shows parent p) (hkind : p.tree.kind = .function) (habove : s.kind? parent = some above)
    (hinput : s.inputOf (some p.root) = some input) :
    (t.pushFunction s (some p.root) (some (Frame.nearest ids))).Models (t.size :: ids)
      (⟨p.declares above, input⟩ :: frames) := by
  have hsize : t.size < (t.push (some (Frame.nearest ids)) (some p.root)).size := by
    rw [size_push]
    exact Nat.lt_succ_self _
  have hparent : (t.pushFunction s (some p.root) (some (Frame.nearest ids))).parent? t.size =
      some (some (Frame.nearest ids)) := by
    rw [ScopeTable.pushFunction, parent?_declareNodes, parent?_push_size]
  have hkeeps : t.Keeps (t.pushFunction s (some p.root) (some (Frame.nearest ids))) :=
    hsound.keeps_pushFunction (Nat.zero_lt_of_lt h.nearest_lt)
  refine ⟨hparent, h.nearest_lt, fun name => ?_, h.mono hkeeps⟩
  have hglobal : (t.push (some (Frame.nearest ids)) (some p.root)).isGlobal (some t.size) =
      false := by
    rw [← Bool.not_eq_true, isGlobal_iff, parent?_push_size]
    simp
  rw [ScopeTable.pushFunction, hsound.push.own?_declareNodes hsize, if_pos rfl, own?_push,
    own?_size, hglobal, hinput, hp.declaredByFunction habove hkind,
    Frame.firstSpelled_eq input fun q hq => hp.declares hq, Option.map_map]
  rfl

theorem declared_script {plot : Plot} (h : s.ShowsScript plot) :
    s.declared (some plot.root) = plot.hoisted.map fun q => some q.root := by
  rw [NodeStore.declared, NodeStore.declaredIn_succ s.size h.kind_eq, h.children_eq]
  simp only [NodeKind.isOpen, if_true, Plot.hoisted, List.flatMap_map, List.map_flatMap,
    reduceCtorEq, if_false]
  apply List.flatMap_congr
  intro c hc
  have hsize := (h.body c hc).size_le
  exact (h.body c hc).declaredIn h.kind_eq (by omega)

/-- Declares globally what a script declares. -/
def declareScript (t : ScopeTable) (s : NodeStore) (script : Option NodeId) : ScopeTable :=
  t.declareNodes s (some 0) ((s.get? script).bind (·.input)) (s.declared script)

theorem declareScript_own? (hsound : t.Sound) (hglobal : t.parent? 0 = some none) {plot : Plot}
    (h : s.ShowsScript plot) :
    (t.declareScript s (some plot.root)).own? (some 0) name =
      (t.own? (some 0) name).or (plot.frame.var? 0 true name) := by
  have hinput : (s.get? (some plot.root)).bind (·.input) = some plot.input := by
    rw [h.node]
    rfl
  have hshown : ∀ d ∈ plot.hoisted, ∃ parent, s.Shows parent d := by
    intro d hd
    obtain ⟨c, hc, hd⟩ := List.mem_flatMap.mp hd
    exact (h.body c hc).hoisted hd
  rw [declareScript, hsound.own?_declareNodes (lt_of_parent? hglobal), if_pos rfl, hinput,
    declared_script h, Frame.firstSpelled_eq plot.input hshown, Option.map_map,
    isGlobal_iff.mpr hglobal]
  rfl

/-- What is known of a table while scripts declare their names, when these are known. -/
structure GlobalOf (t : ScopeTable) (frames : List Frame) : Prop where
  sound : t.Sound
  size : t.size = 1
  isGlobal : t.parent? 0 = some none
  own : ∀ name, t.own? (some 0) name = Frame.global frames name

theorem GlobalOf.declareScripts (h : t.GlobalOf frames) (plots : List Plot)
    (hplots : ∀ plot ∈ plots, s.ShowsScript plot) :
    ((plots.map fun plot => some plot.root).foldl (fun u => u.declareScript s) t).GlobalOf
      (frames ++ plots.map Plot.frame) := by
  induction plots generalizing t frames with
  | nil => simpa using h
  | cons plot rest ih =>
    obtain ⟨hplot, hrest⟩ := List.forall_mem_cons.mp hplots
    rw [List.map_cons, List.foldl_cons, List.map_cons, List.append_cons]
    refine ih ⟨h.sound.declareNodes _, ?_, ?_, fun name => ?_⟩ hrest
    · exact (size_declareNodes _).trans h.size
    · exact (parent?_declareNodes _).trans h.isGlobal
    · rw [declareScript_own? h.sound h.isGlobal hplot, h.own]
      simp [Frame.global, List.findSome?_append]

theorem globalOf_empty (root : Option NodeId) : (empty.push none root).GlobalOf [] where
  sound := sound_empty.push
  size := rfl
  isGlobal := rfl
  own _ := rfl

/-- The global scope binds what the scripts below the roots declare, the first declaration first. -/
theorem pushGlobal_globalOf {roots : List (Option NodeId)} {plots : List Plot}
    (hroots : roots.flatMap s.children = plots.map fun plot => some plot.root)
    (hplots : ∀ plot ∈ plots, s.ShowsScript plot) :
    (empty.pushGlobal s roots).GlobalOf (plots.map Plot.frame) := by
  have h := (globalOf_empty roots.head?.join).declareScripts plots hplots
  rwa [← hroots] at h

end ScopeTable

end RefCheck
