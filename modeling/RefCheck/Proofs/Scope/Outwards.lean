import RefCheck.Proofs.Scope.Changes

/-!
# The way outwards

Scopes that lie in earlier ones have a last scope around them. So looking up a name comes to an
end, and so does going to the outermost scope. Adding a scope changes no meaning, and a declaration
changes what its name means wherever the name is looked for in the scope of the declaration, and
nothing else.
-/

namespace RefCheck.ScopeTable

open RefCheck.Script

variable {t u : ScopeTable} {i : Nat} {name other : String} {node : Option NodeId}
  {input : Option InputId} {scope parent id outer found : Option ScopeId} {ids : List ScopeId}
  {root : Option NodeId} {var : Var}

/-- The scopes from one outwards: each lies in the next one, and the last one in none. -/
inductive Chain (t : ScopeTable) : Option ScopeId → List ScopeId → Prop
  | outside : Chain t none []
  | missing {i : Nat} : t.parent? i = none → Chain t (some i) []
  | inside {i : Nat} {outer : Option ScopeId} {ids : List ScopeId} :
      t.parent? i = some outer → Chain t outer ids → Chain t (some i) (i :: ids)

/-- A name is looked up in a scope, and in the one around it if the scope does not bind it. -/
inductive Finds (t : ScopeTable) (name : String) : Option ScopeId → Option Var → Prop
  | outside : Finds t name none none
  | missing {i : Nat} : t.parent? i = none → Finds t name (some i) none
  | here {i : Nat} {outer : Option ScopeId} {var : Var} :
      t.parent? i = some outer → t.own? (some i) name = some var → Finds t name (some i) (some var)
  | outward {i : Nat} {outer : Option ScopeId} {found : Option Var} :
      t.parent? i = some outer → t.own? (some i) name = none → Finds t name outer found →
      Finds t name (some i) found

/-- From a scope one goes outwards as far as there is a scope around. -/
inductive Outermost (t : ScopeTable) : Option ScopeId → Option ScopeId → Prop
  | outside : Outermost t none none
  | missing {i : Nat} : t.parent? i = none → Outermost t (some i) none
  | here {i : Nat} : t.parent? i = some none → Outermost t (some i) (some i)
  | outward {i p : Nat} {found : Option ScopeId} : t.parent? i = some (some p) →
      Outermost t (some p) found → Outermost t (some i) found

/-- A name is looked for in a scope: the scope is on the way outwards, and no nearer one binds the
name. -/
def Reaches (t : ScopeTable) (name : String) (id : Option ScopeId) (i : ScopeId) : Prop :=
  ∃ nearer further, t.Chain id (nearer ++ i :: further) ∧
    ∀ j ∈ nearer, t.own? (some j) name = none

theorem enclosingWithin_none (steps : Nat) : t.enclosingWithin steps none = [] := by
  cases steps <;> rfl

theorem enclosingWithin_missing (steps : Nat) (h : t.parent? i = none) :
    t.enclosingWithin steps (some i) = [] := by
  have hget : t.get? (some i) = none := Option.map_eq_none_iff.mp h
  cases steps with
  | zero => rfl
  | succ steps => simp only [enclosingWithin, hget]

/-- More steps than there are scopes before one lead no further outwards. -/
theorem Formed.enclosingWithin_eq (h : t.Formed) {m n : Nat} (hm : i < m) (hn : i < n) :
    t.enclosingWithin m (some i) = t.enclosingWithin n (some i) := by
  -- on the scope, not on the steps: the next scope is an earlier one
  induction i using Nat.strongRecOn generalizing m n with
  | ind i ih =>
    cases hp : t.parent? i with
    | none => rw [enclosingWithin_missing m hp, enclosingWithin_missing n hp]
    | some outer =>
      obtain ⟨m, rfl⟩ := Nat.exists_eq_add_one_of_ne_zero (Nat.ne_zero_of_lt hm)
      obtain ⟨n, rfl⟩ := Nat.exists_eq_add_one_of_ne_zero (Nat.ne_zero_of_lt hn)
      rw [enclosingWithin_succ m hp, enclosingWithin_succ n hp]
      cases outer with
      | none => rw [enclosingWithin_none, enclosingWithin_none]
      | some p =>
        have hlt := h.earlier i p hp
        rw [ih p hlt (Nat.lt_of_lt_of_le hlt (Nat.le_of_lt_succ hm))
          (Nat.lt_of_lt_of_le hlt (Nat.le_of_lt_succ hn))]

theorem enclosing_none : t.enclosing none = [] := enclosingWithin_none _

theorem enclosing_missing (h : t.parent? i = none) : t.enclosing (some i) = [] :=
  enclosingWithin_missing _ h

theorem Formed.enclosing_inside (h : t.Formed) (hp : t.parent? i = some outer) :
    t.enclosing (some i) = i :: t.enclosing outer := by
  have hi := lt_of_parent? hp
  obtain ⟨steps, hsteps⟩ := Nat.exists_eq_add_one_of_ne_zero (Nat.ne_zero_of_lt hi)
  rw [enclosing, enclosing, hsteps, enclosingWithin_succ steps hp]
  cases outer with
  | none => rw [enclosingWithin_none, enclosingWithin_none]
  | some p =>
    rw [hsteps] at hi
    have hlt := Nat.lt_of_lt_of_le (h.earlier i p hp) (Nat.le_of_lt_succ hi)
    rw [h.enclosingWithin_eq hlt (Nat.lt_succ_of_lt hlt)]

/-- Going outwards from a scope ends, since the next scope was always made before. -/
theorem Formed.chain_enclosing (h : t.Formed) (id : Option ScopeId) :
    t.Chain id (t.enclosing id) := by
  cases id with
  | none =>
    rw [enclosing_none]
    exact .outside
  | some i =>
    induction i using Nat.strongRecOn with
    | ind i ih =>
      cases hp : t.parent? i with
      | none =>
        rw [enclosing_missing hp]
        exact .missing hp
      | some outer =>
        rw [h.enclosing_inside hp]
        refine .inside hp ?_
        cases outer with
        | none =>
          rw [enclosing_none]
          exact .outside
        | some p => exact ih p (h.earlier i p hp)

theorem Formed.chain_iff (h : t.Formed) : t.Chain id ids ↔ t.enclosing id = ids := by
  constructor
  · intro hchain
    induction hchain with
    | outside => exact enclosing_none
    | missing hp => exact enclosing_missing hp
    | inside hp _ ih => rw [h.enclosing_inside hp, ih]
  · rintro rfl
    exact h.chain_enclosing id

theorem Formed.lookup?_inside (h : t.Formed) (hp : t.parent? i = some outer) :
    t.lookup? (some i) name = (t.own? (some i) name).or (t.lookup? outer name) := by
  rw [lookup?, h.enclosing_inside hp, List.findSome?_cons, lookup?]
  cases t.own? (some i) name <;> rfl

theorem Formed.globalOf_inside (h : t.Formed) (hp : t.parent? i = some outer) :
    t.globalOf (some i) = if outer = none then some i else t.globalOf outer := by
  have hglobal : t.isGlobal (some i) = decide (outer = none) := by
    rw [Bool.eq_iff_iff, isGlobal_iff, hp, decide_eq_true_eq, Option.some.injEq]
  rw [globalOf, h.enclosing_inside hp, List.find?_cons, hglobal, globalOf]
  by_cases houter : outer = none <;> simp [houter]

/-- Looking up a name ends, with what it means. -/
theorem Formed.finds_iff {found : Option Var} (h : t.Formed) :
    t.Finds name id found ↔ t.lookup? id name = found := by
  constructor
  · intro hfinds
    induction hfinds with
    | outside => rw [lookup?, enclosing_none, List.findSome?_nil]
    | missing hp => rw [lookup?, enclosing_missing hp, List.findSome?_nil]
    | here hp hown => rw [h.lookup?_inside hp, hown, Option.some_or]
    | outward hp hown _ ih => rw [h.lookup?_inside hp, hown, ih, Option.none_or]
  · rintro rfl
    have hchain := h.chain_enclosing id
    rw [lookup?]
    generalize t.enclosing id = ids at hchain
    induction hchain with
    | outside => exact .outside
    | missing hp => exact .missing hp
    | @inside i outer ids hp _ ih =>
      rw [List.findSome?_cons]
      cases hown : t.own? (some i) name with
      | some var => exact .here hp hown
      | none => exact .outward hp hown ih

/-- Going to the outermost scope ends. -/
theorem Formed.outermost_iff (h : t.Formed) :
    t.Outermost id found ↔ t.globalOf id = found := by
  constructor
  · intro hfinds
    induction hfinds with
    | outside => rw [globalOf, enclosing_none, List.find?_nil]
    | missing hp => rw [globalOf, enclosing_missing hp, List.find?_nil]
    | here hp => rw [h.globalOf_inside hp, if_pos rfl]
    | outward hp _ ih => rw [h.globalOf_inside hp, if_neg (Option.some_ne_none _), ih]
  · rintro rfl
    have hchain := h.chain_enclosing id
    generalize hids : t.enclosing id = ids at hchain
    clear hids
    induction hchain with
    | outside =>
      rw [globalOf, enclosing_none]
      exact .outside
    | missing hp =>
      rw [globalOf, enclosing_missing hp]
      exact .missing hp
    | @inside i outer ids hp _ ih =>
      rw [h.globalOf_inside hp]
      cases outer with
      | none => exact .here hp
      | some p => exact .outward hp ih

/-- A name means what the nearest scope says that binds it. -/
theorem Formed.lookup?_eq_some (h : t.Formed) : t.lookup? id name = some var ↔
    ∃ i, t.Reaches name id i ∧ t.own? (some i) name = some var := by
  rw [lookup?, List.findSome?_eq_some_iff]
  constructor
  · rintro ⟨nearer, i, further, henclosing, hown, hnearer⟩
    exact ⟨i, ⟨nearer, further, h.chain_iff.mpr henclosing, hnearer⟩, hown⟩
  · rintro ⟨i, ⟨nearer, further, hchain, hnearer⟩, hown⟩
    exact ⟨nearer, i, further, h.chain_iff.mp hchain, hown, hnearer⟩

theorem Sound.isGlobal_own? (h : t.Sound) (hown : t.own? (some i) name = some var) :
    var.isGlobal ↔ t.parent? i = some none := by
  obtain ⟨v, hv, hvar⟩ := Option.bind_eq_some_iff.mp hown
  obtain ⟨scope, hscope, hbound⟩ := Option.bind_eq_some_iff.mp hv
  obtain ⟨bound, hbound', -, -, hglobal⟩ := h i scope name v hscope hbound
  obtain rfl := Option.some.inj (hvar.symm.trans hbound')
  rw [hglobal, parent?, show t.scopes[i]? = some scope from hscope]
  simp

/-- The outermost scope around a scope is the one around it that lies in none. -/
theorem Formed.globalOf_eq_some (h : t.Formed) {nearer further : List ScopeId}
    (hchain : t.Chain id (nearer ++ i :: further)) :
    t.globalOf id = some i ↔ t.parent? i = some none := by
  constructor
  · intro hfound
    have hglobal : t.isGlobal (some i) = true :=
      List.find?_some (p := fun j => t.isGlobal (some j)) hfound
    exact isGlobal_iff.mp hglobal
  · intro hp
    induction nearer generalizing id with
    | nil =>
      cases hchain with
      | inside => rw [h.globalOf_inside hp, if_pos rfl]
    | cons j nearer ih =>
      cases hchain with
      | @inside _ outer _ hj hrest =>
        have houter : outer ≠ none := by
          rintro rfl
          have hnone := h.chain_iff.mp hrest
          rw [enclosing_none] at hnone
          exact List.append_ne_nil_of_right_ne_nil nearer (List.cons_ne_nil i further) hnone.symm
        rw [h.globalOf_inside hj, if_neg houter]
        exact ih hrest

theorem Formed.isGlobal_of_reaches (h : t.Formed) (hreaches : t.Reaches name id i)
    (hown : t.own? (some i) name = some var) : var.isGlobal ↔ t.globalOf id = some i := by
  obtain ⟨nearer, further, hchain, -⟩ := hreaches
  rw [h.sound.isGlobal_own? hown, h.globalOf_eq_some hchain]

theorem Formed.chain_push (h : t.Formed) (hid : ∀ i ∈ id, i < t.size) (hchain : t.Chain id ids) :
    (t.push parent root).Chain id ids := by
  induction hchain with
  | outside => exact .outside
  | @missing i hp =>
    have hsome := parent?_isSome.mpr (hid i rfl)
    rw [hp] at hsome
    cases hsome
  | @inside i outer ids hp _ ih =>
    refine .inside ((parent?_push (lt_of_parent? hp)).trans hp) (ih ?_)
    rintro p rfl
    exact Nat.lt_trans (h.earlier i p hp) (lt_of_parent? hp)

/-- In the scopes that are there names keep their meaning. -/
theorem Formed.lookup?_push (h : t.Formed) (hparent : ∀ i ∈ parent, i < t.size)
    (hid : ∀ i ∈ id, i < t.size) :
    (t.push parent root).lookup? id name = t.lookup? id name := by
  have hchain : (t.push parent root).Chain id (t.enclosing id) :=
    h.chain_push hid (h.chain_enclosing id)
  rw [lookup?, (h.push hparent).chain_iff.mp hchain, lookup?]
  exact congrArg (fun own => (t.enclosing id).findSome? own) (funext fun i => own?_push)

/-- In the new scope names mean what they mean around it. -/
theorem Formed.lookup?_push_size (h : t.Formed) (hparent : ∀ i ∈ parent, i < t.size) :
    (t.push parent root).lookup? (some t.size) name = t.lookup? parent name := by
  rw [(h.push hparent).lookup?_inside parent?_push_size, own?_push, own?_size, Option.none_or,
    h.lookup?_push hparent hparent]

theorem Chain.lt_size (h : t.Chain id ids) : ∀ i ∈ ids, i < t.size := by
  induction h with
  | outside => exact nofun
  | missing => exact nofun
  | inside hp _ ih => exact List.forall_mem_cons.mpr ⟨lt_of_parent? hp, ih⟩

theorem Chain.congr (h : t.Chain id ids) (hparent : ∀ i, u.parent? i = t.parent? i) :
    u.Chain id ids := by
  induction h with
  | outside => exact .outside
  | missing hp => exact .missing ((hparent _).trans hp)
  | inside hp _ ih => exact .inside ((hparent _).trans hp) ih

theorem chain_declare :
    (t.declare scope name node input).1.Chain id ids ↔ t.Chain id ids :=
  ⟨fun h => h.congr fun _ => parent?_declare_any.symm,
    fun h => h.congr fun _ => parent?_declare_any⟩

/-- Of some values the first counts: those behind it do not matter. -/
theorem findSome?_congr_first {f g : ScopeId → Option Var} {ids : List ScopeId}
    (h : ∀ nearer j further, ids = nearer ++ j :: further → (∀ k ∈ nearer, g k = none) →
      f j = g j) : ids.findSome? f = ids.findSome? g := by
  induction ids with
  | nil => rfl
  | cons i rest ih =>
    have hfirst : f i = g i := h [] i rest rfl nofun
    rw [List.findSome?_cons, List.findSome?_cons, hfirst]
    cases hg : g i with
    | some var => rfl
    | none =>
      refine ih fun nearer j further hrest hnearer => ?_
      exact h (i :: nearer) j further (congrArg (i :: ·) hrest)
        (List.forall_mem_cons.mpr ⟨hg, hnearer⟩)

theorem findSome?_of_first {f : ScopeId → Option Var} {nearer further : List ScopeId}
    (hnearer : ∀ j ∈ nearer, f j = none ∨ f j = some var) (hi : f i = some var) :
    (nearer ++ i :: further).findSome? f = some var := by
  induction nearer with
  | nil => rw [List.nil_append, List.findSome?_cons, hi]
  | cons j nearer ih =>
    obtain ⟨hj, hrest⟩ := List.forall_mem_cons.mp hnearer
    rw [List.cons_append, List.findSome?_cons]
    rcases hj with hj | hj
    · rw [hj]
      exact ih hrest
    · rw [hj]

theorem Formed.enclosing_declare (h : t.Formed) (id : Option ScopeId) :
    (t.declare scope name node input).1.enclosing id = t.enclosing id :=
  h.declare.chain_iff.mp (chain_declare.mpr (h.chain_enclosing id))

/-- The name means the new variable wherever it is looked for in the scope of the declaration. -/
theorem Formed.lookup?_declare_of_reaches (h : t.Formed) (hfresh : t.ownId? (some i) name = none)
    (hreaches : t.Reaches name id i) :
    (t.declare (some i) name node input).1.lookup? id name =
      some ⟨name, node, input, some i, t.isGlobal (some i)⟩ := by
  obtain ⟨nearer, further, hchain, hnearer⟩ := hreaches
  have hi : i < t.size :=
    hchain.lt_size i (List.mem_append_right nearer List.mem_cons_self)
  rw [lookup?, h.enclosing_declare, h.chain_iff.mp hchain]
  -- that the scope is on the way only once is not needed: its first time counts
  refine findSome?_of_first (fun j hj => ?_) ?_
  · rw [h.sound.own?_declare_fresh hfresh]
    split
    · exact .inr rfl
    · exact .inl (hnearer j hj)
  · rw [h.sound.own?_declare_fresh hfresh, if_pos ⟨rfl, hi, rfl⟩]

/-- Everything else means what it meant. -/
theorem Formed.lookup?_declare_of_not_reaches (h : t.Formed) (hfresh : t.ownId? scope name = none)
    (hreaches : ∀ i ∈ scope, other = name → ¬ t.Reaches name id i) :
    (t.declare scope name node input).1.lookup? id other = t.lookup? id other := by
  rw [lookup?, h.enclosing_declare, lookup?]
  refine findSome?_congr_first fun nearer j further henclosing hnearer => ?_
  rw [h.sound.own?_declare_fresh hfresh, if_neg]
  rintro ⟨hscope, -, rfl⟩
  exact hreaches j hscope rfl ⟨nearer, further, h.chain_iff.mpr henclosing, hnearer⟩

/-- A table with one more variable: its scope binds it, if the scope is there, and its name means it
wherever the name is looked for in this scope. Nothing else changes. -/
structure Gains (t u : ScopeTable) (v : VarId) (var : Var) : Prop where
  stored : u.vars[v]? = some var
  parents : ∀ i, u.parent? i = t.parent? i
  bound : ∀ i, var.scope = some i → i < t.size → u.ownId? (some i) var.name = some v
  within : ∀ id i, var.scope = some i → t.Reaches var.name id i → u.lookup? id var.name = some var
  elsewhere : ∀ id other, (∀ i, var.scope = some i → other = var.name → ¬ t.Reaches other id i) →
    u.lookup? id other = t.lookup? id other

/-- What holds of a table after changes that fit. -/
structure Regular (t : ScopeTable) : Prop where
  sound : t.Sound
  unique : t.Unique
  /-- Names mean in a new scope what they mean around it, and elsewhere what they meant. -/
  pushed : ∀ parent root, (∀ i ∈ parent, i < t.size) →
    (∀ name, (t.push parent root).lookup? (some t.size) name = t.lookup? parent name) ∧
    ∀ id name, (∀ i ∈ id, i < t.size) →
      (t.push parent root).lookup? id name = t.lookup? id name
  /-- A name is not declared again where it is bound. -/
  again : ∀ scope name node input v, t.ownId? scope name = some v →
    t.declare scope name node input = (t, v)
  fresh : ∀ scope name node input, t.ownId? scope name = none →
    t.Gains (t.declare scope name node input).1 (t.declare scope name node input).2
      ⟨name, node, input, scope, t.isGlobal scope⟩
  /-- No later change touches a binding. -/
  kept : ∀ cs i name v, t.FitAll cs → t.ownId? (some i) name = some v →
    (t.changed cs).ownId? (some i) name = some v ∧ (t.changed cs).vars[v]? = t.vars[v]?
  /-- Going outwards comes to an end, and so does what goes outwards. -/
  ends : ∀ id, ∃ ids, t.Chain id ids
  finds : ∀ name id found, t.Finds name id found ↔ t.lookup? id name = found
  outermost : ∀ id found, t.Outermost id found ↔ t.globalOf id = found
  /-- A name means what the nearest scope says that binds it. -/
  nearest : ∀ id name var, t.lookup? id name = some var ↔
    ∃ i, t.Reaches name id i ∧ t.own? (some i) name = some var
  /-- A variable is global if it was found in the outermost scope. -/
  global : ∀ id name i var, t.Reaches name id i → t.own? (some i) name = some var →
    (var.isGlobal ↔ t.globalOf id = some i)

theorem Formed.gains_declare (h : t.Formed) (hfresh : t.ownId? scope name = none) :
    t.Gains (t.declare scope name node input).1 (t.declare scope name node input).2
      ⟨name, node, input, scope, t.isGlobal scope⟩ where
  stored := by
    rw [ScopeTable.declare, hfresh]
    exact Array.getElem?_push_size
  parents _ := parent?_declare_any
  bound := by
    rintro i rfl hi
    rw [ScopeTable.declare, hfresh]
    simp [ownId?, get?, Array.getElem?_modify, show i < t.scopes.size from hi]
  within := by
    rintro id i rfl hreaches
    exact h.lookup?_declare_of_reaches hfresh hreaches
  elsewhere id other hreaches := by
    refine h.lookup?_declare_of_not_reaches hfresh fun i hi hname => ?_
    subst hname
    exact hreaches i hi rfl

theorem Formed.regular (h : t.Formed) : t.Regular where
  sound := h.sound
  unique := h.unique
  pushed parent root hparent :=
    ⟨fun _ => h.lookup?_push_size hparent, fun _ _ hid => h.lookup?_push hparent hid⟩
  again scope name node input v hv := by rw [ScopeTable.declare, hv]
  fresh scope name node input hfresh := h.gains_declare hfresh
  kept cs i name v hfits hv := h.bound_changed hfits hv
  ends id := ⟨t.enclosing id, h.chain_enclosing id⟩
  finds name id found := h.finds_iff
  outermost id found := h.outermost_iff
  nearest id name var := h.lookup?_eq_some
  global id name i var := h.isGlobal_of_reaches

/-- Whatever scopes are added and names declared, the table is regular, as long as each scope is
added in one that is there or in none. -/
theorem regular_changed (cs : List Change) (h : empty.FitAll cs) : (empty.changed cs).Regular :=
  (formed_empty.changed h).regular

/-- A name of the global scope is declared again in an inner one, and another one is declared
globally while the inner scopes are there. -/
def nesting : List Change :=
  [.push none none, .push (some 0) (some 3), .push (some 1) (some 5),
    .declare (some 0) "a" (some 1) (some 0), .declare (some 2) "a" (some 6) (some 0),
    .declare (some 0) "a" (some 7) (some 1), .declare (some 0) "b" (some 8) (some 1),
    .declare (some 9) "c" none none, .push (some 0) (some 9)]

theorem regular_nesting : empty.FitAll nesting ∧ (empty.changed nesting).Regular ∧
    (empty.changed nesting).lookup? (some 2) "a" =
      some ⟨"a", some 6, some 0, some 2, false⟩ ∧
    (empty.changed nesting).lookup? (some 1) "a" = some ⟨"a", some 1, some 0, some 0, true⟩ ∧
    (empty.changed nesting).lookup? (some 2) "b" = some ⟨"b", some 8, some 1, some 0, true⟩ ∧
    (empty.changed nesting).globalOf (some 2) = some 0 := by
  have hfits : empty.FitAll nesting := by decide +kernel
  refine ⟨hfits, regular_changed nesting hfits, ?_, ?_, ?_, ?_⟩ <;> decide +kernel

end RefCheck.ScopeTable
