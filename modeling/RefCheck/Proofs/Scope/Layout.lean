import Mathlib.Data.List.Infix
import RefCheck.Scope.Declarations

/-!
# How scopes lie in each other

Declaring names changes neither where a scope lies nor to which node it belongs. A list of scopes
that lie in each other, each made after the one around it and the global one last, is what lies
around its first scope.
-/

namespace RefCheck

open RefCheck.Script

namespace ScopeTable

variable {t : ScopeTable} {s : NodeStore} {scope parent : Option ScopeId} {name : String}
  {node root : Option NodeId} {input : Option InputId}

/-- Where each scope lies, and to which node it belongs. -/
def layout (t : ScopeTable) : List (Option ScopeId × Option NodeId) :=
  t.scopes.toList.map fun s => (s.parent, s.root)

/-- The node that a scope belongs to. -/
def root? (t : ScopeTable) (i : ScopeId) : Option NodeId := (t.get? (some i)).bind (·.root)

theorem length_layout (t : ScopeTable) : t.layout.length = t.size := by
  simp [layout, size]

theorem layout_push : (t.push parent root).layout = t.layout ++ [(parent, root)] := by
  simp [layout, push]

theorem layout_declare : (t.declare scope name node input).1.layout = t.layout := by
  rw [declare]
  split
  · rfl
  · cases scope with
    | none => rfl
    | some i =>
      refine List.ext_getElem? fun k => ?_
      simp only [layout, List.getElem?_map, Array.getElem?_toList, Array.getElem?_modify]
      split
      · rw [Option.map_map]
        rfl
      · rfl

theorem layout_declareNodes (nodes : List (Option NodeId)) :
    (t.declareNodes s scope input nodes).layout = t.layout := by
  induction nodes generalizing t with
  | nil => rfl
  | cons node rest ih =>
    have hone : (t.declareNode s scope input node).layout = t.layout := by
      rw [declareNode]
      split
      · rfl
      · exact layout_declare
    exact ih.trans hone

theorem layout_pushFunction :
    (t.pushFunction s root parent).layout = t.layout ++ [(parent, root)] := by
  rw [pushFunction, layout_declareNodes, layout_push]

theorem layout_pushGlobal (roots : List (Option NodeId)) :
    (t.pushGlobal s roots).layout = t.layout ++ [(none, roots.head?.join)] := by
  have hscripts : ∀ (scripts : List (Option NodeId)) (u : ScopeTable),
      (scripts.foldl (fun u script => u.declareNodes s (some t.size)
        ((s.get? script).bind (·.input)) (s.declared script)) u).layout = u.layout := by
    intro scripts
    induction scripts with
    | nil => exact fun u => rfl
    | cons script rest ih => exact fun u => (ih _).trans (layout_declareNodes _)
  rw [pushGlobal, hscripts, layout_push]

theorem get?_eq_layout (t : ScopeTable) (i : ScopeId) :
    (t.get? (some i)).map (fun s => (s.parent, s.root)) = t.layout[i]? := by
  simp [layout, get?]

theorem isGlobal_of_layout {i : ScopeId} (h : t.layout[i]? = some (none, root)) :
    t.isGlobal (some i) = true := by
  rw [← get?_eq_layout] at h
  obtain ⟨scope, hscope, hentry⟩ := Option.map_eq_some_iff.mp h
  rw [isGlobal, hscope]
  exact congrArg Option.isNone (Prod.mk.inj hentry).1

end ScopeTable

/-- Scopes that lie in each other, and the functions that they belong to, the nearest first. The
global scope is the last one, and belongs to the top. -/
inductive Nests (top : Option NodeId) (layout : List (Option ScopeId × Option NodeId)) :
    List ScopeId → List NodeId → Prop
  | outermost : layout[0]? = some (none, top) → Nests top layout [0] []
  | inside {i : Nat} {f : NodeId} {scopes : List ScopeId} {functions : List NodeId} :
      Nests top layout scopes functions → layout[i]? = some (scopes.head?, some f) →
      (∀ j : Nat, j ∈ scopes → j < i) → Nests top layout (i :: scopes) (f :: functions)

namespace Nests

variable {top : Option NodeId} {layout more : List (Option ScopeId × Option NodeId)}
  {scopes : List ScopeId} {functions : List NodeId} {f : NodeId} {t : ScopeTable}

theorem mono (h : Nests top layout scopes functions) (hle : layout <+: more) :
    Nests top more scopes functions := by
  obtain ⟨rest, rfl⟩ := hle
  have hkept : ∀ {i : ScopeId} {entry}, layout[i]? = some entry →
      (layout ++ rest)[i]? = some entry := by
    intro i entry hentry
    rwa [List.getElem?_append_left (List.getElem?_eq_some_iff.mp hentry).1]
  induction h with
  | outermost hglobal => exact .outermost (hkept hglobal)
  | inside _ hentry hlater ih => exact .inside ih (hkept hentry) hlater

theorem lt_length (h : Nests top layout scopes functions) :
    ∀ i : Nat, i ∈ scopes → i < layout.length := by
  induction h with
  | outermost hglobal =>
    intro i hi
    obtain rfl := List.mem_singleton.mp hi
    exact (List.getElem?_eq_some_iff.mp hglobal).1
  | inside _ hentry _ ih =>
    intro i hi
    rcases List.mem_cons.mp hi with rfl | hi
    · exact (List.getElem?_eq_some_iff.mp hentry).1
    · exact ih i hi

/-- One more function is entered: its scope comes last in the table. -/
theorem enter (h : Nests top layout scopes functions) (f : NodeId) :
    Nests top (layout ++ [(scopes.head?, some f)]) (layout.length :: scopes) (f :: functions) :=
  .inside (h.mono (List.prefix_append _ _)) List.getElem?_concat_length h.lt_length

theorem length_eq (h : Nests top layout scopes functions) :
    scopes.length = 1 + functions.length := by
  induction h with
  | outermost => rfl
  | inside _ _ _ ih =>
    rw [List.length_cons, List.length_cons, ih]
    omega

theorem length_le (h : Nests top layout scopes functions) :
    ∀ i ∈ scopes.head?, scopes.length ≤ i + 1 := by
  induction h with
  | outermost => exact fun i _ => Nat.le_add_left 1 i
  | @inside i f scopes functions hrest _ hlater ih =>
    intro j hj
    obtain rfl := Option.some.inj hj
    cases scopes with
    | nil => exact Nat.le_add_left 1 i
    | cons j rest =>
      have hj := hlater j List.mem_cons_self
      have hlength := ih j rfl
      rw [List.length_cons]
      omega

/-- The last scope is the global one. -/
theorem getLast?_eq (h : Nests top layout scopes functions) : scopes.getLast? = some 0 := by
  induction h with
  | outermost => rfl
  | inside hrest _ _ ih =>
    rw [List.getLast?_cons, ih]
    rfl

theorem global (h : Nests top layout scopes functions) : layout[0]? = some (none, top) := by
  induction h with
  | outermost hglobal => exact hglobal
  | inside _ _ _ ih => exact ih

/-- Each function has a scope, and that is not the global one. -/
theorem exists_entry (h : Nests top layout scopes functions) (hf : f ∈ functions) :
    ∃ i outer, 0 < i ∧ layout[i]? = some (outer, some f) := by
  induction h with
  | outermost => cases hf
  | @inside i f scopes functions hrest hentry hlater ih =>
    rcases List.mem_cons.mp hf with rfl | hf
    · refine ⟨i, _, ?_, hentry⟩
      cases hrest with
      | outermost => exact hlater 0 List.mem_cons_self
      | inside => exact Nat.zero_lt_of_lt (hlater _ List.mem_cons_self)
    · exact ih hf

theorem enclosingWithin_eq (h : Nests top t.layout scopes functions) {steps : Nat}
    (hsteps : scopes.length ≤ steps) : t.enclosingWithin steps scopes.head? = scopes := by
  have hget : ∀ {i : ScopeId} {entry}, t.layout[i]? = some entry →
      ∃ scope, t.get? (some i) = some scope ∧ (scope.parent, scope.root) = entry := by
    intro i entry hentry
    rw [← t.get?_eq_layout] at hentry
    exact Option.map_eq_some_iff.mp hentry
  induction h generalizing steps with
  | outermost hglobal =>
    obtain ⟨scope, hscope, hentry⟩ := hget hglobal
    obtain ⟨steps, rfl⟩ := Nat.exists_eq_succ_of_ne_zero (Nat.ne_of_gt hsteps)
    have hnone : t.enclosingWithin steps none = [] := by cases steps <;> rfl
    simp only [List.head?_cons, ScopeTable.enclosingWithin, hscope]
    rw [(Prod.mk.inj hentry).1, hnone]
  | inside _ hentry _ ih =>
    obtain ⟨scope, hscope, hentry⟩ := hget hentry
    rw [List.length_cons] at hsteps
    obtain ⟨steps, rfl⟩ := Nat.exists_eq_succ_of_ne_zero (Nat.ne_of_gt (Nat.zero_lt_of_lt hsteps))
    simp only [List.head?_cons, ScopeTable.enclosingWithin, hscope]
    rw [(Prod.mk.inj hentry).1, ih (Nat.le_of_succ_le_succ hsteps)]

/-- Around the first scope lie these scopes, and no other ones. -/
theorem enclosing_eq (h : Nests top t.layout scopes functions) :
    t.enclosing scopes.head? = scopes := by
  refine h.enclosingWithin_eq ?_
  cases scopes with
  | nil => exact Nat.zero_le _
  | cons i rest =>
    have hlength := h.length_le i rfl
    have hlt := h.lt_length i List.mem_cons_self
    rw [t.length_layout] at hlt
    omega

theorem map_root? (h : Nests top t.layout scopes functions) :
    scopes.map t.root? = functions.map some ++ [top] := by
  have hroot : ∀ {i : ScopeId} {entry}, t.layout[i]? = some entry → t.root? i = entry.2 := by
    intro i entry hentry
    rw [← t.get?_eq_layout] at hentry
    obtain ⟨scope, hscope, rfl⟩ := Option.map_eq_some_iff.mp hentry
    rw [ScopeTable.root?, hscope]
    rfl
  induction h with
  | outermost hglobal => exact congrArg (· :: []) (hroot hglobal)
  | inside _ hentry _ ih =>
    rw [List.map_cons, List.map_cons, List.cons_append, ih, hroot hentry]

end Nests

end RefCheck
