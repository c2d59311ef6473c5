import RefCheck.Check.Variables
import RefCheck.Proofs.Scope.Layout
import RefCheck.Proofs.Scope.Outwards
import RefCheck.Proofs.Walk.Simulation

/-!
# Tables of walks

A walk adds the scope of a function in the scope that it is in, which is there by then, and declares
names. So the table of every walk came about by changes that fit, whatever the visitor declares, and
what holds of such tables holds of it.
-/

namespace RefCheck

open RefCheck.Script RefCheck.Check

namespace ScopeTable

variable {t u w : ScopeTable} {s : NodeStore} {scope parent : Option ScopeId} {name : String}
  {node root function : Option NodeId} {input : Option InputId}

/-- Changes that fit lead from one table to another. -/
def Leads (t u : ScopeTable) : Prop := ∃ cs, t.FitAll cs ∧ t.changed cs = u

theorem Leads.refl (t : ScopeTable) : t.Leads t := ⟨[], trivial, rfl⟩

theorem Leads.cons {c : Change} (hfits : t.Fits c) (h : (t.change c).Leads u) : t.Leads u := by
  obtain ⟨cs, hcs, rfl⟩ := h
  exact ⟨c :: cs, ⟨hfits, hcs⟩, rfl⟩

theorem Leads.trans (h : t.Leads u) (hmore : u.Leads w) : t.Leads w := by
  obtain ⟨cs, hfits, rfl⟩ := h
  induction cs generalizing t with
  | nil => exact hmore
  | cons c rest ih => exact .cons hfits.1 (ih hfits.2 hmore)

theorem Leads.declare (h : t.Leads u) : t.Leads (u.declare scope name node input).1 :=
  h.trans (.cons (c := .declare scope name node input) trivial (.refl _))

theorem Leads.push (h : t.Leads u) (hparent : ∀ i ∈ parent, i < u.size) :
    t.Leads (u.push parent root) :=
  h.trans (.cons (c := .push parent root) hparent (.refl _))

theorem Leads.size_le (h : t.Leads u) : t.size ≤ u.size := by
  obtain ⟨cs, -, rfl⟩ := h
  induction cs generalizing t with
  | nil => exact Nat.le_refl _
  | cons c rest ih =>
    refine Nat.le_trans ?_ ih
    cases c with
    | push parent root => exact Nat.le_trans (Nat.le_succ _) (Nat.le_of_eq size_push.symm)
    | declare scope name node input => exact Nat.le_of_eq size_declare_any.symm

theorem Leads.regular (h : empty.Leads t) : t.Regular := by
  obtain ⟨cs, hfits, rfl⟩ := h
  exact (formed_empty.changed hfits).regular

theorem Leads.declareNodes (h : t.Leads u) (nodes : List (Option NodeId)) :
    t.Leads (u.declareNodes s scope input nodes) := by
  induction nodes generalizing u with
  | nil => exact h
  | cons node rest ih =>
    have hone : t.Leads (u.declareNode s scope input node) := by
      rw [declareNode]
      split
      · exact h
      · exact h.declare
    exact ih hone

theorem Leads.pushFunction (h : t.Leads u) (hparent : ∀ i ∈ parent, i < u.size) :
    t.Leads (u.pushFunction s function parent) := (h.push hparent).declareNodes _

theorem Leads.pushGlobal (h : t.Leads u) (roots : List (Option NodeId)) :
    t.Leads (u.pushGlobal s roots) := by
  have hscripts : ∀ (scripts : List (Option NodeId)) (w : ScopeTable), t.Leads w →
      t.Leads (scripts.foldl (fun w script => w.declareNodes s (some u.size)
        ((s.get? script).bind (·.input)) (s.declared script)) w) := by
    intro scripts
    induction scripts with
    | nil => exact fun w hw => hw
    | cons script rest ih => exact fun w hw => ih _ (hw.declareNodes _)
  exact hscripts _ _ (h.push fun i hi => absurd hi (Option.not_mem_none i))

theorem size_pushGlobal (roots : List (Option NodeId)) : 0 < (t.pushGlobal s roots).size := by
  rw [← length_layout, layout_pushGlobal, List.length_append]
  exact Nat.succ_pos _

end ScopeTable

variable {ε σ : Type} {visit : Visitor ε σ} {s : WalkState σ}

/-- A visitor that changes the scopes in no other way. -/
def Visitor.Declares (visit : Visitor ε σ) : Prop :=
  ∀ place (s : WalkState σ), s.scopes.Leads (visit place s).state.scopes

/-- Changes lead from the table before a piece of a walk to the one after it. -/
def Progress.From (t : ScopeTable) (walk : Progress ε (WalkState σ)) : Prop :=
  t.Leads walk.state.scopes

namespace Progress.From

variable {t : ScopeTable} {walk : Progress ε (WalkState σ)}

theorem after {u : ScopeTable} (h : walk.From u) (hu : t.Leads u) : walk.From t := hu.trans h

theorem andThen {next : WalkState σ → Progress ε (WalkState σ)} (h : walk.From t)
    (hnext : ∀ u, t.Leads u.scopes → (next u).From u.scopes) : (walk.andThen next).From t := by
  cases walk with
  | on u => exact h.trans (hnext u h)
  | stopped e u => exact h

theorem each {α : Type} {step : α → WalkState σ → Progress ε (WalkState σ)} {items : List α}
    (h : ∀ item u, t.Leads u.scopes → (step item u).From u.scopes) (hs : t.Leads s.scopes) :
    (Progress.each step items s).From s.scopes := by
  induction items generalizing s with
  | nil => exact .refl _
  | cons item rest ih => exact (h item s hs).andThen fun u hu => ih (hs.trans hu)

end Progress.From

/-- In the scope that a walk is in it may add further ones, since no scope ever goes away. -/
theorem Visitor.Declares.subtree (hvisit : visit.Declares) (depth : Nat)
    (id parent : Option NodeId) (input : Option InputId) {scopes : List ScopeId}
    (hscopes : ∀ i ∈ scopes.head?, i < s.scopes.size) :
    (Walk.subtree visit depth id parent input scopes s).From s.scopes := by
  induction depth generalizing id parent input scopes s with
  | zero => exact .refl _
  | succ depth ih =>
    have hlater : ∀ {u : WalkState σ}, s.scopes.Leads u.scopes →
        ∀ i ∈ scopes.head?, i < u.scopes.size := fun hu i hi =>
      Nat.lt_of_lt_of_le (hscopes i hi) hu.size_le
    cases id with
    | none => exact .refl _
    | some n =>
      cases hnode : s.program.store.get? (some n) with
      | none =>
        simp only [Walk.subtree, hnode]
        exact .refl _
      | some node =>
        simp only [Walk.subtree, hnode]
        refine Progress.From.andThen ?_ fun u _ => hvisit _ u
        split
        · exact .refl _
        · refine Progress.From.andThen ?_ fun u hu => ?_
          · split
            · exact .refl _
            · exact ih _ _ _ hscopes
          · have hinside : u.scopes.Leads (u.entering n scopes).scopes :=
              (ScopeTable.Leads.refl _).pushFunction (hlater hu)
            have hinner : u.scopes.size < (u.entering n scopes).scopes.size :=
              Nat.lt_of_lt_of_eq (Nat.lt_succ_self _) ScopeTable.size_pushFunction.symm
            refine Progress.From.after (.each (s := u.entering n scopes) ?_ (.refl _)) hinside
            intro child w hw
            refine ih child _ _ fun i hi => ?_
            obtain rfl := Option.some.inj hi
            exact Nat.lt_of_lt_of_le hinner hw.size_le
        · exact .each (fun child u hu => ih child _ _ (hlater hu)) (.refl _)

theorem Walk.start_leads (p : Program) (roots : List (Option NodeId)) (own : σ) :
    ScopeTable.empty.Leads (start p roots own).scopes :=
  (ScopeTable.Leads.refl _).pushGlobal roots

theorem Walk.global_lt (p : Program) (roots : List (Option NodeId)) (own : σ) :
    ∀ i ∈ [0].head?, i < (start p roots own).scopes.size := by
  intro i hi
  obtain rfl := Option.some.inj hi
  exact ScopeTable.size_pushGlobal roots

/-- Whatever is walked, the table comes about by changes that fit. -/
theorem Visitor.Declares.roots (hvisit : visit.Declares) (p : Program)
    (ids : List (Option NodeId)) (own : σ) :
    ScopeTable.empty.Leads (Walk.roots visit p ids own).state.scopes := by
  refine Progress.From.after ?_ (Walk.start_leads p ids own)
  refine Progress.From.each (fun id u hu => ?_) (.refl _)
  refine hvisit.subtree _ id none none fun i hi => ?_
  exact Nat.lt_of_lt_of_le (Walk.global_lt p ids own i hi) hu.size_le

theorem Visitor.Declares.within (hvisit : visit.Declares) (p : Program)
    (scopeRoots : List (Option NodeId)) (id : Option NodeId) (own : σ) :
    ScopeTable.empty.Leads (Walk.within visit p scopeRoots id own).state.scopes :=
  (Walk.start_leads p scopeRoots own).trans
    (hvisit.subtree _ id _ _ (Walk.global_lt p scopeRoots own))

namespace Check

variable {sanity : Bool} {place : Place} {name : String} {var : Var} {s : WalkState Repairs}

theorem scopes_emptyName : (emptyName place s).state.scopes = s.scopes := by
  rw [emptyName]
  split
  · rfl
  · split <;> rfl

theorem scopes_reference : (reference sanity place name var s).scopes = s.scopes := by
  rw [reference]
  split
  · split
    · rfl
    · split
      · dsimp only
        split <;> rfl
      · rfl
  · rfl

theorem leads_undeclared : s.scopes.Leads (undeclared sanity place name s).state.scopes := by
  rw [undeclared]
  split
  · exact .refl _
  · split
    · exact .refl _
    · exact (ScopeTable.Leads.refl _).declare

/-- A check of the variables declares placeholders at most. -/
theorem declares_variableNames (sanity : Bool) : (variableNames sanity).Declares := by
  intro place s
  rw [variableNames]
  split
  · exact .refl _
  · dsimp only
    split
    · exact scopes_emptyName ▸ .refl _
    · split
      · exact leads_undeclared
      · exact scopes_reference ▸ .refl _

end Check

/-- What holds after changes that fit holds of the table of every check, at whatever it stops. -/
theorem Check.regular_variableNames (sanity : Bool) (p : Program) (ids : List (Option NodeId))
    (repairs : Repairs) :
    (Walk.roots (variableNames sanity) p ids repairs).state.scopes.Regular :=
  ((declares_variableNames sanity).roots p ids repairs).regular

end RefCheck
