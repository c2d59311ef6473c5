import RefCheck.Proofs.Scope.Frames

/-!
# Scope tables under changes

Scopes are added to a table, each in a scope that is there or in none, and names are declared, in
any order. Then every binding leads to a variable of its scope, no binding is changed or lost, and
every scope lies in one that was made before it.
-/

namespace RefCheck.ScopeTable

open RefCheck.Script

variable {t : ScopeTable} {i j v : Nat} {name other : String} {node root : Option NodeId}
  {input : Option InputId} {scope parent : Option ScopeId}

/-- What can be done to a table. -/
inductive Change
  | push (parent : Option ScopeId) (root : Option NodeId)
  | declare (scope : Option ScopeId) (name : String) (node : Option NodeId)
      (input : Option InputId)

def change (t : ScopeTable) : Change → ScopeTable
  | .push parent root => t.push parent root
  | .declare scope name node input => (t.declare scope name node input).1

/-- The table after some changes, in this order. -/
def changed (t : ScopeTable) (cs : List Change) : ScopeTable := cs.foldl change t

/-- A scope is added in a scope that is there, or in none. -/
def Fits (t : ScopeTable) : Change → Prop
  | .push parent _ => ∀ i ∈ parent, i < t.size
  | .declare .. => True

/-- Each change fits the table as it is by then. -/
def FitAll : ScopeTable → List Change → Prop
  | _, [] => True
  | t, c :: rest => t.Fits c ∧ (t.change c).FitAll rest

instance decidableFits (t : ScopeTable) : (c : Change) → Decidable (t.Fits c)
  | .push none _ => isTrue nofun
  | .push (some i) _ => decidable_of_iff (i < t.size) (by simp [Fits])
  | .declare .. => isTrue trivial

instance decidableFitAll : (t : ScopeTable) → (cs : List Change) → Decidable (t.FitAll cs)
  | _, [] => isTrue trivial
  | t, c :: rest =>
    have := decidableFitAll (t.change c) rest
    inferInstanceAs (Decidable (t.Fits c ∧ (t.change c).FitAll rest))

/-- A variable of a scope that is not there is bound nowhere. -/
theorem declare_missing (h : t.get? scope = none) : (t.declare scope name node input).1 =
    ⟨t.scopes, t.vars.push ⟨name, node, input, scope, t.isGlobal scope⟩⟩ := by
  have hfresh : t.ownId? scope name = none := by
    rw [ownId?, h]
    rfl
  cases scope with
  | none => rfl
  | some i =>
    rw [declare_eq hfresh]
    congr 1
    refine Array.ext_getElem? fun k => ?_
    rw [Array.getElem?_modify]
    split
    · next hik =>
      subst hik
      have hmissing : t.scopes[i]? = none := h
      rw [hmissing, Option.map_none]
    · rfl

/-- Scopes are there or not. -/
theorem missing_or_lt (t : ScopeTable) (scope : Option ScopeId) :
    t.get? scope = none ∨ ∃ i, scope = some i ∧ i < t.size := by
  cases scope with
  | none => exact .inl rfl
  | some i =>
    rcases Nat.lt_or_ge i t.size with hlt | hle
    · exact .inr ⟨i, rfl, hlt⟩
    · exact .inl (Array.getElem?_eq_none hle)

theorem parent?_declare_any :
    (t.declare scope name node input).1.parent? j = t.parent? j := by
  cases scope with
  | none => rfl
  | some i => exact parent?_declare

theorem size_declare_any : (t.declare scope name node input).1.size = t.size := by
  cases scope with
  | none => rfl
  | some i => exact size_declare

theorem Sound.getElem?_push (h : t.Sound) (hv : t.ownId? (some i) name = some v) (var : Var) :
    (t.vars.push var)[v]? = t.vars[v]? := by
  obtain ⟨bound, -, hbound⟩ := h.own?_eq hv
  have hlt := (Array.getElem?_eq_some_iff.mp hbound).1
  rw [Array.getElem?_push_lt hlt, Array.getElem?_eq_getElem hlt]

theorem Sound.declare_any (h : t.Sound) : (t.declare scope name node input).1.Sound := by
  cases scope with
  | some i => exact h.declare
  | none =>
    intro i scope other v hscope hbound
    have hv : t.ownId? (some i) other = some v := by
      rw [ownId?, show t.get? (some i) = some scope from hscope]
      exact hbound
    obtain ⟨bound, hvar, hspec⟩ := h i scope other v hscope hbound
    exact ⟨bound, (h.getElem?_push hv _).trans hvar, hspec⟩

/-- What scopes bind after a declaration that is not ignored. -/
theorem Sound.own?_declare_fresh (h : t.Sound) (hfresh : t.ownId? scope name = none) :
    (t.declare scope name node input).1.own? (some j) other =
      if scope = some j ∧ j < t.size ∧ other = name then
        some ⟨name, node, input, scope, t.isGlobal scope⟩
      else t.own? (some j) other := by
  rcases missing_or_lt t scope with hmissing | ⟨i, rfl, hi⟩
  · rw [declare_missing hmissing, if_neg]
    · exact h.bind_push _
    · rintro ⟨rfl, hj, -⟩
      rw [get?, Option.bind_some, Array.getElem?_eq_getElem hj] at hmissing
      cases hmissing
  · rw [h.own?_declare hi, declared, h.own?_none.mpr hfresh, Option.getD_none]
    by_cases hj : j = i
    · subst hj
      simp [hi]
    · simp [hj, Ne.symm hj]

/-- A declaration leaves the bindings that are there alone, and their variables. -/
theorem Sound.bound_declare (h : t.Sound) (hv : t.ownId? (some j) other = some v) :
    (t.declare scope name node input).1.ownId? (some j) other = some v ∧
      (t.declare scope name node input).1.vars[v]? = t.vars[v]? := by
  cases hfresh : t.ownId? scope name with
  | some w =>
    rw [ScopeTable.declare, hfresh]
    exact ⟨hv, rfl⟩
  | none =>
    rcases missing_or_lt t scope with hmissing | ⟨i, rfl, hi⟩
    · rw [declare_missing hmissing]
      exact ⟨hv, h.getElem?_push hv _⟩
    · rw [declare_eq hfresh]
      refine ⟨?_, h.getElem?_push hv _⟩
      simp only [ownId?, get?, Option.bind_some, Array.getElem?_modify] at hv hfresh ⊢
      split
      · next hij =>
        subst hij
        obtain ⟨scope, hscope, hbound⟩ := Option.bind_eq_some_iff.mp hv
        have hne : other ≠ name := by
          rintro rfl
          rw [hv] at hfresh
          cases hfresh
        rw [hscope, Option.map_some, Option.bind_some, List.lookup_cons,
          beq_eq_false_iff_ne.mpr hne]
        exact hbound
      · exact hv

/-- No scope binds a name twice. -/
def Unique (t : ScopeTable) : Prop :=
  ∀ (i : Nat) scope, t.scopes[i]? = some scope → (scope.bindings.map Prod.fst).Nodup

theorem Unique.push (h : t.Unique) : (t.push parent root).Unique := by
  intro i scope hscope
  simp only [ScopeTable.push, Array.getElem?_push] at hscope
  split at hscope
  · cases hscope
    exact List.nodup_nil
  · exact h i scope hscope

theorem Unique.declare (h : t.Unique) : (t.declare scope name node input).1.Unique := by
  cases hbound : t.ownId? scope name with
  | some v =>
    rw [ScopeTable.declare, hbound]
    exact h
  | none =>
    cases scope with
    | none => exact h
    | some i =>
      rw [declare_eq hbound]
      intro j scope hscope
      simp only [Array.getElem?_modify] at hscope
      split at hscope
      · next hij =>
        subst hij
        obtain ⟨old, hold, rfl⟩ := Option.map_eq_some_iff.mp hscope
        have hfresh : old.bindings.lookup name = none := by
          rwa [ownId?, show t.get? (some i) = some old from hold] at hbound
        rw [List.map_cons, List.nodup_cons]
        refine ⟨fun hmem => ?_, h i old hold⟩
        obtain ⟨p, hp, hname⟩ := List.mem_map.mp hmem
        have hne := List.lookup_eq_none_iff.mp hfresh p hp
        rw [hname, bne_self_eq_false] at hne
        cases hne
      · exact h j scope hscope

/-- Bindings lead to variables of their scopes, one for each name, and each scope lies in one that
was made before. -/
structure Formed (t : ScopeTable) : Prop where
  sound : t.Sound
  unique : t.Unique
  earlier : ∀ i p : Nat, t.parent? i = some (some p) → p < i

theorem formed_empty : empty.Formed where
  sound := sound_empty
  unique i scope h := by simp [empty] at h
  earlier i p h := by simp [parent?, empty] at h

theorem Formed.push (h : t.Formed) (hparent : ∀ i ∈ parent, i < t.size) :
    (t.push parent root).Formed where
  sound := h.sound.push
  unique := h.unique.push
  earlier i p hp := by
    have hi := lt_of_parent? hp
    rw [size_push] at hi
    rcases Nat.lt_succ_iff_lt_or_eq.mp hi with hlt | rfl
    · rw [parent?_push hlt] at hp
      exact h.earlier i p hp
    · rw [parent?_push_size] at hp
      exact hparent p (Option.some.inj hp)

theorem Formed.declare (h : t.Formed) : (t.declare scope name node input).1.Formed where
  sound := h.sound.declare_any
  unique := h.unique.declare
  earlier i p hp := by
    rw [parent?_declare_any] at hp
    exact h.earlier i p hp

theorem Formed.change {c : Change} (h : t.Formed) (hfits : t.Fits c) : (t.change c).Formed := by
  cases c with
  | push parent root => exact h.push hfits
  | declare scope name node input => exact h.declare

theorem ownId?_push (hv : t.ownId? (some i) name = some v) :
    (t.push parent root).ownId? (some i) name = some v := by
  have hi : i < t.scopes.size := by
    obtain ⟨scope, hscope, -⟩ := Option.bind_eq_some_iff.mp hv
    exact (Array.getElem?_eq_some_iff.mp hscope).1
  simpa [ownId?, get?, push, Array.getElem?_push, Nat.ne_of_lt hi] using hv

theorem Formed.bound_change {c : Change} (h : t.Formed) (hv : t.ownId? (some i) name = some v) :
    (t.change c).ownId? (some i) name = some v ∧ (t.change c).vars[v]? = t.vars[v]? := by
  cases c with
  | push parent root => exact ⟨ownId?_push hv, rfl⟩
  | declare scope name node input => exact h.sound.bound_declare hv

theorem Formed.changed {cs : List Change} (h : t.Formed) (hfits : t.FitAll cs) :
    (t.changed cs).Formed := by
  induction cs generalizing t with
  | nil => exact h
  | cons c rest ih => exact ih (h.change hfits.1) hfits.2

/-- No binding is ever changed or lost. -/
theorem Formed.bound_changed {cs : List Change} (h : t.Formed) (hfits : t.FitAll cs)
    (hv : t.ownId? (some i) name = some v) :
    (t.changed cs).ownId? (some i) name = some v ∧ (t.changed cs).vars[v]? = t.vars[v]? := by
  induction cs generalizing t with
  | nil => exact ⟨hv, rfl⟩
  | cons c rest ih =>
    obtain ⟨hkept, hvar⟩ := h.bound_change (c := c) hv
    obtain ⟨hlater, hlast⟩ := ih (h.change hfits.1) hfits.2 hkept
    exact ⟨hlater, hlast.trans hvar⟩

end RefCheck.ScopeTable
