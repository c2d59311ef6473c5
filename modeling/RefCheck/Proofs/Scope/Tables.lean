import RefCheck.Scope.Declarations

/-!
# Bindings in scope tables

In a sound table each binding of a scope leads to a variable of that scope. Adding a scope leaves
all bindings alone, and declaring a name changes at most what one scope binds to it.
-/

namespace RefCheck.ScopeTable

open RefCheck.Script

variable {t u w : ScopeTable} {s : NodeStore} {i j : Nat} {name other : String}
  {node : Option NodeId} {input : Option InputId} {parent : Option ScopeId} {root : Option NodeId}

/-- Every binding of a scope leads to a variable of the scope with this name. -/
def Sound (t : ScopeTable) : Prop :=
  ∀ (i : Nat) scope name v, t.scopes[i]? = some scope → scope.bindings.lookup name = some v →
    ∃ var, t.vars[v]? = some var ∧ var.name = name ∧ var.scope = some i ∧
      var.isGlobal = scope.parent.isNone

/-- In which scope a scope lies, if the scope is there. -/
def parent? (t : ScopeTable) (i : Nat) : Option (Option ScopeId) := t.scopes[i]?.map (·.parent)

theorem parent?_isSome : (t.parent? i).isSome ↔ i < t.size := by
  simp [parent?, size]

theorem isGlobal_iff : t.isGlobal (some i) ↔ t.parent? i = some none := by
  simp only [isGlobal, get?, parent?, Option.bind_some]
  cases t.scopes[i]? <;> simp

theorem sound_empty : empty.Sound := by
  intro i scope name v h
  simp [empty] at h

theorem size_push : (t.push parent root).size = t.size + 1 := by simp [push, size]

theorem parent?_push (h : i < t.size) : (t.push parent root).parent? i = t.parent? i := by
  have h : i < t.scopes.size := h
  simp [push, parent?, Array.getElem?_push, Nat.ne_of_lt h]

theorem parent?_push_size : (t.push parent root).parent? t.size = some parent := by
  simp [push, parent?, size]

theorem own?_push : (t.push parent root).own? (some i) name = t.own? (some i) name := by
  simp only [own?, ownId?, get?, push, Option.bind_some, Array.getElem?_push]
  split
  · next h =>
    rw [Array.getElem?_eq_none (Nat.le_of_eq h.symm)]
    rfl
  · rfl

theorem Sound.push (h : t.Sound) : (t.push parent root).Sound := by
  intro i scope name v hscope hbound
  simp only [ScopeTable.push, Array.getElem?_push] at hscope
  split at hscope
  · cases hscope
    cases hbound
  · exact h i scope name v hscope hbound

/-- The variable that a scope binds to a name once the name was declared there. -/
def declared (t : ScopeTable) (i : Nat) (name : String) (node : Option NodeId)
    (input : Option InputId) : Var :=
  (t.own? (some i) name).getD ⟨name, node, input, some i, t.isGlobal (some i)⟩

theorem Sound.own?_eq (h : t.Sound) {v : VarId} (hv : t.ownId? (some i) name = some v) :
    ∃ var, t.own? (some i) name = some var ∧ t.vars[v]? = some var := by
  obtain ⟨scope, hscope, hbound⟩ := Option.bind_eq_some_iff.mp hv
  obtain ⟨var, hvar, -⟩ := h i scope name v hscope hbound
  exact ⟨var, by rw [own?, hv]; exact hvar, hvar⟩

theorem Sound.own?_none (h : t.Sound) :
    t.own? (some i) name = none ↔ t.ownId? (some i) name = none := by
  constructor
  · intro hown
    cases hid : t.ownId? (some i) name with
    | none => rfl
    | some v =>
      obtain ⟨var, hvar, -⟩ := h.own?_eq hid
      rw [hown] at hvar
      cases hvar
  · intro hid
    rw [own?, hid]
    rfl

/-- The table after a declaration that is not ignored. -/
theorem declare_eq (h : t.ownId? (some i) name = none) :
    (t.declare (some i) name node input).1 =
      ⟨t.scopes.modify i fun s => { s with bindings := (name, t.vars.size) :: s.bindings },
        t.vars.push ⟨name, node, input, some i, t.isGlobal (some i)⟩⟩ := by
  rw [declare, h]

theorem size_declare : (t.declare (some i) name node input).1.size = t.size := by
  cases h : t.ownId? (some i) name with
  | none => simp [declare_eq h, size]
  | some v => rw [declare, h]

theorem parent?_declare :
    (t.declare (some i) name node input).1.parent? j = t.parent? j := by
  cases h : t.ownId? (some i) name with
  | none =>
    simp only [declare_eq h, parent?, Array.getElem?_modify]
    split
    · rw [Option.map_map]
      rfl
    · rfl
  | some v => rw [declare, h]

/-- A further variable changes no binding. -/
theorem Sound.bind_push (h : t.Sound) (var : Var) :
    ((t.ownId? (some i) name).bind fun v => (t.vars.push var)[v]?) = t.own? (some i) name := by
  cases hid : t.ownId? (some i) name with
  | none => rw [own?, hid]; rfl
  | some v =>
    obtain ⟨bound, hown, hbound⟩ := h.own?_eq hid
    have hlt := (Array.getElem?_eq_some_iff.mp hbound).1
    rw [hown, Option.bind_some, Array.getElem?_push_lt hlt]
    exact (Array.getElem?_eq_getElem hlt).symm.trans hbound

theorem Sound.own?_declare (h : t.Sound) (hi : i < t.size) :
    (t.declare (some i) name node input).1.own? (some j) other =
      if j = i ∧ other = name then some (t.declared i name node input)
      else t.own? (some j) other := by
  cases hid : t.ownId? (some i) name with
  | some v =>
    obtain ⟨var, hvar, -⟩ := h.own?_eq hid
    simp only [declare, hid, declared, hvar, Option.getD_some]
    split
    · next heq => rw [heq.1, heq.2, hvar]
    · rfl
  | none =>
    have hnone := h.own?_none.mpr hid
    have hscope : t.scopes[i]? = some t.scopes[i] := Array.getElem?_eq_getElem hi
    let var : Var := ⟨name, node, input, some i, t.isGlobal (some i)⟩
    rw [declare_eq hid, declared, hnone, Option.getD_none]
    by_cases hj : j = i
    · subst hj
      by_cases hname : other = name
      · subst hname
        simp [own?, ownId?, get?, Array.getElem?_modify, hscope]
      · have hne : (other == name) = false := beq_eq_false_iff_ne.mpr hname
        rw [if_neg (fun heq => hname heq.2), ← h.bind_push var]
        simp [own?, ownId?, get?, Array.getElem?_modify, hscope, List.lookup_cons, hne, var]
    · rw [if_neg (fun heq => hj heq.1), ← h.bind_push var]
      simp [own?, ownId?, get?, Array.getElem?_modify, Ne.symm hj, var]

theorem Sound.declare (h : t.Sound) : (t.declare (some i) name node input).1.Sound := by
  cases hid : t.ownId? (some i) name with
  | some v =>
    rw [ScopeTable.declare, hid]
    exact h
  | none =>
    rw [declare_eq hid]
    intro j scope other v hscope hbound
    have hkeep : ∀ bound, t.vars[v]? = some bound →
        (t.vars.push ⟨name, node, input, some i, t.isGlobal (some i)⟩)[v]? = some bound := by
      intro bound hv
      have hlt := (Array.getElem?_eq_some_iff.mp hv).1
      rw [Array.getElem?_push_lt hlt, ← hv, Array.getElem?_eq_getElem hlt]
    simp only [Array.getElem?_modify] at hscope
    split at hscope
    · next hij =>
      subst hij
      obtain ⟨old, hold, rfl⟩ := Option.map_eq_some_iff.mp hscope
      rw [List.lookup_cons] at hbound
      split at hbound
      · next hname =>
        cases hbound
        refine ⟨_, Array.getElem?_push_size, (beq_iff_eq.mp hname).symm, rfl, ?_⟩
        simp [isGlobal, get?, hold]
      · obtain ⟨var, hvar, hspec⟩ := h _ old other v hold hbound
        exact ⟨var, hkeep var hvar, hspec⟩
    · obtain ⟨var, hvar, hspec⟩ := h j scope other v hscope hbound
      exact ⟨var, hkeep var hvar, hspec⟩

/-- The first of some nodes that spells a name. The empty name is never declared. -/
def firstSpelled (s : NodeStore) (nodes : List (Option NodeId)) (name : String) :
    Option (Option NodeId) :=
  if name = "" then none else nodes.find? fun node => s.text node = name

theorem declareNode_eq (h : s.text node ≠ "") :
    t.declareNode s (some i) input node = (t.declare (some i) (s.text node) node input).1 :=
  if_neg h

/-- What later tables keep: scopes stay where they are, and only the global one gets more
bindings. -/
structure Keeps (t u : ScopeTable) : Prop where
  sound : u.Sound
  size : t.size ≤ u.size
  parent : ∀ i, i < t.size → u.parent? i = t.parent? i
  own : ∀ i name, 0 < i → i < t.size → u.own? (some i) name = t.own? (some i) name
  global : ∀ name var, t.own? (some 0) name = some var → u.own? (some 0) name = some var

theorem Sound.keeps (h : t.Sound) : t.Keeps t :=
  ⟨h, Nat.le_refl _, fun _ _ => rfl, fun _ _ _ _ => rfl, fun _ _ => id⟩

theorem Sound.keeps_declare (h : t.Sound) (hsize : 0 < t.size) :
    t.Keeps (t.declare (some 0) name node input).1 where
  sound := h.declare
  size := Nat.le_of_eq size_declare.symm
  parent _ _ := parent?_declare
  own i name hpos _ := by
    rw [h.own?_declare hsize, if_neg fun heq => Nat.ne_of_gt hpos heq.1]
  global other var hvar := by
    rw [h.own?_declare hsize]
    split
    · next heq => rw [declared, ← heq.2, hvar, Option.getD_some]
    · exact hvar

theorem Keeps.trans (htu : t.Keeps u) (huw : u.Keeps w) : t.Keeps w where
  sound := huw.sound
  size := Nat.le_trans htu.size huw.size
  parent i hi := by rw [huw.parent i (Nat.lt_of_lt_of_le hi htu.size), htu.parent i hi]
  own i name hpos hi := by
    rw [huw.own i name hpos (Nat.lt_of_lt_of_le hi htu.size), htu.own i name hpos hi]
  global name var h := huw.global name var (htu.global name var h)

theorem Sound.declareNode (h : t.Sound) : (t.declareNode s (some i) input node).Sound := by
  rw [ScopeTable.declareNode]
  split
  · exact h
  · exact h.declare

theorem size_declareNode : (t.declareNode s (some i) input node).size = t.size := by
  rw [ScopeTable.declareNode]
  split
  · rfl
  · exact size_declare

theorem parent?_declareNode : (t.declareNode s (some i) input node).parent? j = t.parent? j := by
  rw [ScopeTable.declareNode]
  split
  · rfl
  · exact parent?_declare

theorem Sound.declareNodes (h : t.Sound) (nodes : List (Option NodeId)) :
    (t.declareNodes s (some i) input nodes).Sound := by
  induction nodes generalizing t with
  | nil => exact h
  | cons node rest ih => exact ih h.declareNode

theorem size_declareNodes (nodes : List (Option NodeId)) :
    (t.declareNodes s (some i) input nodes).size = t.size := by
  induction nodes generalizing t with
  | nil => rfl
  | cons node rest ih => exact ih.trans size_declareNode

theorem parent?_declareNodes (nodes : List (Option NodeId)) :
    (t.declareNodes s (some i) input nodes).parent? j = t.parent? j := by
  induction nodes generalizing t with
  | nil => rfl
  | cons node rest ih => exact ih.trans parent?_declareNode

/-- A scope binds what it bound before, and else the first node that spells the name. -/
theorem Sound.own?_declareNodes (h : t.Sound) (hi : i < t.size) (nodes : List (Option NodeId)) :
    (t.declareNodes s (some i) input nodes).own? (some j) name =
      if j = i then
        (t.own? (some i) name).or ((firstSpelled s nodes name).map fun node =>
          ⟨name, node, input, some i, t.isGlobal (some i)⟩)
      else t.own? (some j) name := by
  induction nodes generalizing t with
  | nil =>
    have hnone : t.declareNodes s (some i) input [] = t := rfl
    by_cases hj : j = i <;> simp [hnone, firstSpelled, hj]
  | cons node rest ih =>
    have hglobal : (t.declareNode s (some i) input node).isGlobal (some i) =
        t.isGlobal (some i) := by
      rw [Bool.eq_iff_iff, isGlobal_iff, isGlobal_iff, parent?_declareNode]
    refine (ih h.declareNode (by rwa [size_declareNode])).trans ?_
    rw [hglobal]
    by_cases htext : s.text node = ""
    · have hskip : firstSpelled s (node :: rest) name = firstSpelled s rest name := by
        simp only [firstSpelled]
        split
        · rfl
        · next hname =>
          rw [List.find?_cons_of_neg]
          simpa [htext] using Ne.symm hname
      rw [ScopeTable.declareNode, if_pos htext, hskip]
    · rw [declareNode_eq htext, h.own?_declare hi, h.own?_declare hi]
      by_cases hj : j = i
      · by_cases hname : name = s.text node
        · subst hname
          cases hown : t.own? (some i) (s.text node) <;>
            simp [hj, declared, hown, firstSpelled, htext]
        · have hskip : firstSpelled s (node :: rest) name = firstSpelled s rest name := by
            simp [firstSpelled, Ne.symm hname]
          simp [hj, hname, hskip]
      · simp [hj]

end RefCheck.ScopeTable
