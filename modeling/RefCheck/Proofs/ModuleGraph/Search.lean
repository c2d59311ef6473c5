import RefCheck.ModuleGraph.Cycles
import RefCheck.Proofs.ModuleGraph.Reach

/-!
# Components are what leads to each other

While a search is under way, the modules on the way in lie on the stack, each leads to all that lies
on it, and whatever is on the stack leads back to the way. A visit says how far down the stack the
modules lead that it put there. If they lead no further down than to the visited module, these are
one component and all else that they lead to is closed. So every module ends up in one component,
together with the modules that it leads to and that lead to it, and after the components that it
leads to.
-/

namespace RefCheck.ModuleGraph

variable {g : ModuleGraph} {a b id : ModuleId} {way stack new : List ModuleId} {s t : Search}

/-- A way of no or more edges. -/
def Leads (g : ModuleGraph) : ModuleId → ModuleId → Prop := Relation.ReflTransGen g.Edge

namespace Search

/-- How high an open module lies on a stack. -/
def heightIn (stack : List ModuleId) (id : ModuleId) : Nat := (stack.dropWhile (· ≠ id)).length

theorem ne_of_not_mem (h : id ∉ new) : ∀ x ∈ new, decide (x ≠ id) = true := by
  intro x hx
  refine decide_eq_true ?_
  rintro rfl
  exact h hx

theorem dropWhile_append_cons {rest : List ModuleId} (h : id ∉ new) :
    (new ++ id :: rest).dropWhile (· ≠ id) = id :: rest := by
  rw [List.dropWhile_append_of_pos (ne_of_not_mem h)]
  simp

theorem takeWhile_append_cons {rest : List ModuleId} (h : id ∉ new) :
    (new ++ id :: rest).takeWhile (· ≠ id) = new := by
  rw [List.takeWhile_append_of_pos (ne_of_not_mem h)]
  simp

/-- What is put on a stack later does not change the heights below. -/
theorem heightIn_append (h : id ∉ new) : heightIn (new ++ stack) id = heightIn stack id := by
  rw [heightIn, List.dropWhile_append_of_pos (ne_of_not_mem h), heightIn]

theorem heightIn_le (stack : List ModuleId) (id : ModuleId) : heightIn stack id ≤ stack.length :=
  (List.dropWhile_suffix _).length_le

theorem heightIn_self : heightIn (id :: stack) id = stack.length + 1 := by simp [heightIn]

theorem lt_heightIn (h : id ∈ new) : stack.length < heightIn (new ++ stack) id := by
  induction new with
  | nil => cases h
  | cons x new ih =>
    by_cases hx : x = id
    · subst hx
      rw [List.cons_append, heightIn_self, List.length_append]
      omega
    · have hrest : id ∈ new := (List.mem_cons.mp h).resolve_left (Ne.symm hx)
      have hskip : heightIn (x :: (new ++ stack)) id = heightIn (new ++ stack) id := by
        simp [heightIn, hx]
      rw [List.cons_append, hskip]
      exact ih hrest

/-- Whether a module lies in a component already. -/
def Closed (s : Search) (id : ModuleId) : Prop := id ∈ s.components.flatten

/-- Whether a module was opened, and perhaps closed since then. -/
def Met (s : Search) (id : ModuleId) : Prop := id ∈ s.stack ∨ s.Closed id

theorem isClosed_iff : s.isClosed id ↔ s.Closed id := by simp [isClosed, Closed]

end Search

open Search

/-- What a search keeps up while the modules on the way in are not finished. -/
structure Exploring (g : ModuleGraph) (way : List ModuleId) (s : Search) : Prop where
  distinct : (s.stack ++ s.components.flatten).Nodup
  underway : ∀ x ∈ way, x ∈ s.stack
  finished : ∀ x, s.Met x → x ∉ way → ∀ y ∈ g.deps x, s.Met y
  closed : ∀ x, s.Closed x → ∀ y ∈ g.deps x, s.Closed y
  down : ∀ x ∈ way, ∀ y ∈ s.stack, heightIn s.stack x ≤ heightIn s.stack y → g.Leads x y
  back : ∀ y ∈ s.stack, ∃ x ∈ way, heightIn s.stack x ≤ heightIn s.stack y ∧ g.Leads y x
  strong : ∀ c ∈ s.components, ∀ x ∈ c, ∀ y, y ∈ c ↔ g.Leads x y ∧ g.Leads y x
  nonempty : [] ∉ s.components
  ordered : s.components.Pairwise fun c later => ∀ x ∈ c, ∀ y ∈ later, ¬ g.Leads x y

namespace Exploring

theorem start : Exploring g [] ⟨[], []⟩ where
  distinct := List.nodup_nil
  underway := nofun
  finished x hx := by rcases hx with hx | hx <;> cases hx
  closed x hx := by cases hx
  down := nofun
  back := nofun
  strong := nofun
  nonempty := nofun
  ordered := List.Pairwise.nil

/-- What is closed leads to nothing open. -/
theorem closed_of_leads (h : Exploring g way s) (ha : s.Closed a) (hlead : g.Leads a b) :
    s.Closed b := by
  induction hlead with
  | refl => exact ha
  | tail _ hedge ih => exact h.closed _ ih _ hedge

theorem not_closed (h : Exploring g way s) (ha : a ∈ s.stack) : ¬ s.Closed a :=
  fun hclosed => (List.nodup_append.mp h.distinct).2.2 a ha a hclosed rfl

/-- Without a way in nothing is open. -/
theorem stack_eq_nil (h : Exploring g [] s) : s.stack = [] := by
  apply List.eq_nil_iff_forall_not_mem.mpr
  intro y hy
  obtain ⟨x, hx, -⟩ := h.back y hy
  cases hx

/-- A module is put on the stack that the whole way leads to. -/
theorem push (h : Exploring g way s) (hnew : ¬ s.Met id) (hway : ∀ x ∈ way, g.Leads x id) :
    Exploring g (id :: way) { s with stack := id :: s.stack } := by
  have hid : id ∉ s.stack := fun hmem => hnew (.inl hmem)
  have hheight : ∀ x ∈ s.stack, heightIn (id :: s.stack) x = heightIn s.stack x := by
    intro x hx
    have hne : x ∉ [id] := by
      rw [List.mem_singleton]
      rintro rfl
      exact hid hx
    exact heightIn_append hne
  have htop : heightIn (id :: s.stack) id = s.stack.length + 1 := heightIn_self
  refine { h with
    distinct := ?_, underway := ?_, finished := ?_, down := ?_, back := ?_ }
  · refine List.nodup_cons.mpr ⟨?_, h.distinct⟩
    intro hmem
    rcases List.mem_append.mp hmem with hmem | hmem
    · exact hid hmem
    · exact hnew (.inr hmem)
  · intro x hx
    rcases List.mem_cons.mp hx with rfl | hx
    · exact List.mem_cons_self
    · exact List.mem_cons_of_mem _ (h.underway x hx)
  · intro x hx hfree y hy
    rw [List.mem_cons, not_or] at hfree
    have hold : s.Met x := by
      rcases hx with hx | hx
      · exact .inl ((List.mem_cons.mp hx).resolve_left hfree.1)
      · exact .inr hx
    rcases h.finished x hold hfree.2 y hy with hmet | hmet
    · exact .inl (List.mem_cons_of_mem _ hmet)
    · exact .inr hmet
  · intro x hx y hy hle
    rcases List.mem_cons.mp hy with rfl | hy
    · rcases List.mem_cons.mp hx with rfl | hx
      · exact .refl
      · exact hway x hx
    · have hold : heightIn (id :: s.stack) y = heightIn s.stack y := hheight y hy
      rcases List.mem_cons.mp hx with rfl | hx
      · have hlow := heightIn_le s.stack y
        dsimp only at hle
        omega
      · rw [hold, hheight x (h.underway x hx)] at hle
        exact h.down x hx y hy hle
  · intro y hy
    rcases List.mem_cons.mp hy with rfl | hy
    · exact ⟨y, List.mem_cons_self, Nat.le_refl _, .refl⟩
    · obtain ⟨x, hx, hle, hlead⟩ := h.back y hy
      have hsame : heightIn (id :: s.stack) x ≤ heightIn (id :: s.stack) y := by
        rw [hheight y hy, hheight x (h.underway x hx)]
        exact hle
      exact ⟨x, List.mem_cons_of_mem _ hx, hsame, hlead⟩

end Exploring

/-- What a visit of a module comes to, if it puts some modules on the stack that are not closed
again: how far down the stack they lead, and that the module was met. -/
structure Explored (g : ModuleGraph) (way : List ModuleId) (id : ModuleId) (s : Search)
    (new : List ModuleId) (low : Nat) (t : Search) : Prop where
  keeps : Exploring g way t
  stack : t.stack = new ++ s.stack
  grown : ∀ x, s.Met x → t.Met x
  met : t.Met id
  low_le : low ≤ s.stack.length + 1
  reach : low = s.stack.length + 1 ∨
    ∃ y ∈ s.stack, heightIn s.stack y = low ∧ g.Leads id y
  bound : ∀ x ∈ new, ∀ y ∈ g.deps x, y ∈ s.stack → low ≤ heightIn s.stack y

/-- How far a visit has come when it followed some dependencies of the module, above what was on the
stack before. -/
structure Following (g : ModuleGraph) (way : List ModuleId) (id : ModuleId) (s : Search)
    (followed new : List ModuleId) (low : Nat) (t : Search) : Prop where
  keeps : Exploring g (id :: way) t
  stack : t.stack = new ++ id :: s.stack
  underway : ∀ x ∈ way, x ∈ s.stack
  grown : ∀ x, s.Met x → t.Met x
  low_le : low ≤ s.stack.length + 1
  reach : low = s.stack.length + 1 ∨
    ∃ y ∈ s.stack, heightIn s.stack y = low ∧ g.Leads id y
  bound : ∀ x ∈ new, ∀ y ∈ g.deps x, y ∈ s.stack → low ≤ heightIn s.stack y
  followed : ∀ y ∈ followed, t.Met y ∧ (y ∈ s.stack → low ≤ heightIn s.stack y)

/-- What a visit does at a dependency. -/
def follow (g : ModuleGraph) (fuel : Nat) (state : Nat × Search) (dep : ModuleId) : Nat × Search :=
  if state.2.isClosed dep then state
  else if dep ∈ state.2.stack then (min state.1 (state.2.height dep), state.2)
  else (min state.1 (g.visit fuel dep state.2).1, (g.visit fuel dep state.2).2)

theorem visit_succ (fuel : Nat) (id : ModuleId) (s : Search) :
    g.visit (fuel + 1) id s =
      let walked := (g.deps id).foldl (g.follow fuel)
        (s.stack.length + 1, { s with stack := id :: s.stack })
      (walked.1, if walked.1 = s.stack.length + 1 then walked.2.close id else walked.2) := rfl

namespace Following

variable {followed : List ModuleId} {low : Nat}

theorem id_not_mem (h : Following g way id s followed new low t) : id ∉ new ∧ id ∉ s.stack ∧
    ∀ y ∈ s.stack, y ∉ new := by
  have hnodup := (List.nodup_append.mp h.keeps.distinct).1
  rw [h.stack] at hnodup
  obtain ⟨-, hrest, hapart⟩ := List.nodup_append.mp hnodup
  refine ⟨?_, (List.nodup_cons.mp hrest).1, ?_⟩
  · intro hmem
    exact hapart id hmem id List.mem_cons_self rfl
  · intro y hy hmem
    exact hapart y hmem y (List.mem_cons_of_mem _ hy) rfl

/-- Heights on the stack are those before the visit, then that of the module, then the later
ones. -/
theorem height_below (h : Following g way id s followed new low t) {y : ModuleId}
    (hy : y ∈ s.stack) : heightIn t.stack y = heightIn s.stack y := by
  obtain ⟨-, hid, hnew⟩ := h.id_not_mem
  have hne : y ∉ [id] := by
    rw [List.mem_singleton]
    rintro rfl
    exact hid hy
  rw [h.stack, heightIn_append (hnew y hy)]
  exact heightIn_append hne

theorem height_id (h : Following g way id s followed new low t) :
    heightIn t.stack id = s.stack.length + 1 := by
  rw [h.stack, heightIn_append h.id_not_mem.1, heightIn_self]

theorem height_above (h : Following g way id s followed new low t) {y : ModuleId} (hy : y ∈ new) :
    s.stack.length + 1 < heightIn t.stack y := by
  have hlt : (id :: s.stack).length < heightIn (new ++ id :: s.stack) y := lt_heightIn hy
  rw [h.stack]
  exact hlt

theorem mem_stack (h : Following g way id s followed new low t) {y : ModuleId} :
    y ∈ t.stack ↔ y ∈ new ∨ y = id ∨ y ∈ s.stack := by
  rw [h.stack, List.mem_append, List.mem_cons]

/-- What lies no higher than the stack was before the visit lay there before. -/
theorem mem_of_height_le (h : Following g way id s followed new low t) {y : ModuleId}
    (hy : y ∈ t.stack) (hle : heightIn t.stack y ≤ s.stack.length) : y ∈ s.stack := by
  rcases h.mem_stack.mp hy with hy | rfl | hy
  · have := h.height_above hy
    omega
  · rw [h.height_id] at hle
    omega
  · exact hy

theorem start (h : Exploring g way s) (hnew : ¬ s.Met id) (hway : ∀ x ∈ way, g.Leads x id) :
    Following g way id s [] [] (s.stack.length + 1) { s with stack := id :: s.stack } where
  keeps := h.push hnew hway
  stack := rfl
  underway := h.underway
  grown _ hx := hx.imp (List.mem_cons_of_mem _) fun hclosed => hclosed
  low_le := Nat.le_refl _
  reach := .inl rfl
  bound := nofun
  followed := nofun

/-- The way in leads to whatever the module depends on. -/
theorem way_leads (h : Following g way id s followed new low t) {dep : ModuleId}
    (hdep : dep ∈ g.deps id) : ∀ x ∈ id :: way, g.Leads x dep := by
  intro x hx
  refine Relation.ReflTransGen.tail ?_ hdep
  rcases List.mem_cons.mp hx with rfl | hxway
  · exact .refl
  · have hid : id ∈ t.stack := h.keeps.underway id List.mem_cons_self
    have hle : heightIn t.stack x ≤ heightIn t.stack id := by
      rw [h.height_below (h.underway x hxway), h.height_id]
      exact Nat.le_succ_of_le (heightIn_le _ _)
    exact h.keeps.down x hx id hid hle

/-- A dependency that was met before, and lies on the stack no lower than what is taken for the
lowest now. -/
theorem skip (h : Following g way id s followed new low t) {dep : ModuleId} {low' : Nat}
    (hmet : t.Met dep) (hlow : dep ∈ s.stack → low' ≤ heightIn s.stack dep) (hle : low' ≤ low)
    (hreach : low' = low ∨ ∃ y ∈ s.stack, heightIn s.stack y = low' ∧ g.Leads id y) :
    Following g way id s (dep :: followed) new low' t where
  keeps := h.keeps
  stack := h.stack
  underway := h.underway
  grown := h.grown
  low_le := hle.trans h.low_le
  reach := by
    rcases hreach with rfl | hreach
    · exact h.reach
    · exact .inr hreach
  bound _ hx y hy hmem := hle.trans (h.bound _ hx y hy hmem)
  followed y hy := by
    rcases List.mem_cons.mp hy with rfl | hy
    · exact ⟨hmet, hlow⟩
    · exact ⟨(h.followed y hy).1, fun hmem => hle.trans ((h.followed y hy).2 hmem)⟩

theorem of_closed (h : Following g way id s followed new low t) {dep : ModuleId}
    (hclosed : t.Closed dep) : Following g way id s (dep :: followed) new low t := by
  refine h.skip (.inr hclosed) ?_ (Nat.le_refl _) (.inl rfl)
  intro hmem
  exact absurd hclosed (h.keeps.not_closed (h.mem_stack.mpr (.inr (.inr hmem))))

theorem of_open (h : Following g way id s followed new low t) {dep : ModuleId}
    (hdep : dep ∈ g.deps id) (hopen : dep ∈ t.stack) :
    Following g way id s (dep :: followed) new (min low (heightIn t.stack dep)) t := by
  refine h.skip (.inl hopen) ?_ (Nat.min_le_left _ _) ?_
  · intro hmem
    rw [h.height_below hmem]
    exact Nat.min_le_right _ _
  · rcases Nat.le_total low (heightIn t.stack dep) with hle | hle
    · exact .inl (Nat.min_eq_left hle)
    · rw [Nat.min_eq_right hle]
      by_cases hsame : heightIn t.stack dep = low
      · exact .inl hsame
      · have hlow := h.low_le
        have hmem : dep ∈ s.stack := h.mem_of_height_le hopen (by omega)
        exact .inr ⟨dep, hmem, (h.height_below hmem).symm, .single hdep⟩

/-- A dependency that was visited: what it put on the stack leads no further down than it says. -/
theorem of_explored (h : Following g way id s followed new low t) {dep : ModuleId}
    {later : List ModuleId} {met : Nat} {t' : Search} (hdep : dep ∈ g.deps id)
    (hnew : ¬ t.Met dep) (hvisit : Explored g (id :: way) dep t later met t') :
    Following g way id s (dep :: followed) (later ++ new) (min low met) t' where
  keeps := hvisit.keeps
  stack := by rw [hvisit.stack, h.stack, List.append_assoc]
  underway := h.underway
  grown x hx := hvisit.grown x (h.grown x hx)
  low_le := (Nat.min_le_left _ _).trans h.low_le
  reach := by
    rcases Nat.le_total low met with hle | hle
    · rw [Nat.min_eq_left hle]
      exact h.reach
    · rw [Nat.min_eq_right hle]
      by_cases hsame : met = low
      · rw [hsame]
        exact h.reach
      · have hlow := h.low_le
        have hlength : s.stack.length + 1 ≤ t.stack.length := by
          rw [h.stack, List.length_append, List.length_cons]
          omega
        rcases hvisit.reach with hown | ⟨y, hy, hheight, hlead⟩
        · omega
        · have hmem : y ∈ s.stack := h.mem_of_height_le hy (by omega)
          rw [h.height_below hmem] at hheight
          exact .inr ⟨y, hmem, hheight, .head hdep hlead⟩
  bound x hx y hy hmem := by
    rcases List.mem_append.mp hx with hx | hx
    · have hle := hvisit.bound x hx y hy (h.mem_stack.mpr (.inr (.inr hmem)))
      rw [h.height_below hmem] at hle
      exact (Nat.min_le_right _ _).trans hle
    · exact (Nat.min_le_left _ _).trans (h.bound x hx y hy hmem)
  followed y hy := by
    rcases List.mem_cons.mp hy with rfl | hy
    · refine ⟨hvisit.met, fun hmem => ?_⟩
      exact absurd (.inl (h.mem_stack.mpr (.inr (.inr hmem)))) hnew
    · obtain ⟨hmet, hlow⟩ := h.followed y hy
      exact ⟨hvisit.grown y hmet, fun hmem => (Nat.min_le_left _ _).trans (hlow hmem)⟩

theorem open_of_mem (h : Following g way id s followed new low t) (ha : a ∈ new ++ [id]) :
    a ∈ t.stack := by
  refine h.mem_stack.mpr ?_
  rcases List.mem_append.mp ha with ha | ha
  · exact .inl ha
  · exact .inr (.inl (List.mem_singleton.mp ha))

/-- With all dependencies followed, what the visit put on the stack leads to nothing but itself and
what was closed, if it leads nowhere further down. -/
theorem stays (h : Following g way id s followed new (s.stack.length + 1) t)
    (hall : ∀ y ∈ g.deps id, y ∈ followed) (hab : g.Leads a b) (ha : a ∈ new ++ [id]) :
    b ∈ new ++ [id] ∨ t.Closed b := by
  have hsplit : ∀ y, t.Met y → (y ∈ s.stack → s.stack.length + 1 ≤ heightIn s.stack y) →
      y ∈ new ++ [id] ∨ t.Closed y := by
    intro y hmet hlow
    rcases hmet with hopen | hclosed
    · rcases h.mem_stack.mp hopen with hy | rfl | hy
      · exact .inl (List.mem_append_left _ hy)
      · exact .inl (List.mem_append_right _ List.mem_cons_self)
      · have hhigh := hlow hy
        have hbelow := heightIn_le s.stack y
        omega
    · exact .inr hclosed
  induction hab with
  | refl => exact .inl ha
  | @tail b c _ hedge ih =>
    rcases ih with hb | hclosed
    · rcases List.mem_append.mp hb with hb | hb
      · have hfree : b ∉ id :: way := by
          rw [List.mem_cons, not_or]
          refine ⟨fun heq => h.id_not_mem.1 (heq ▸ hb), ?_⟩
          exact fun hway => h.id_not_mem.2.2 b (h.underway b hway) hb
        have hmet := h.keeps.finished b (.inl (h.mem_stack.mpr (.inl hb))) hfree c hedge
        exact hsplit c hmet (h.bound b hb c hedge)
      · rw [List.mem_singleton] at hb
        subst hb
        obtain ⟨hmet, hlow⟩ := h.followed c (hall c hedge)
        exact hsplit c hmet hlow
    · exact .inr (h.keeps.closed b hclosed c hedge)

theorem close_eq (h : Following g way id s followed new low t) :
    t.close id = ⟨s.stack, t.components ++ [new ++ [id]]⟩ := by
  have hnew := h.id_not_mem.1
  rw [close, h.stack, dropWhile_append_cons hnew, takeWhile_append_cons hnew, List.tail_cons]

theorem closed_close (h : Following g way id s followed new low t) :
    (t.close id).Closed a ↔ t.Closed a ∨ a ∈ new ++ [id] := by
  rw [h.close_eq, Closed, Closed, List.flatten_append, List.mem_append]
  simp

theorem met_close (h : Following g way id s followed new low t) (ha : t.Met a) :
    (t.close id).Met a := by
  rcases ha with hopen | hclosed
  · rcases h.mem_stack.mp hopen with ha | rfl | ha
    · exact .inr (h.closed_close.mpr (.inr (List.mem_append_left _ ha)))
    · exact .inr (h.closed_close.mpr (.inr (List.mem_append_right _ List.mem_cons_self)))
    · left
      rw [h.close_eq]
      exact ha
  · exact .inr (h.closed_close.mpr (.inl hclosed))

/-- What the visit put on the stack is a component. -/
theorem component (h : Following g way id s followed new (s.stack.length + 1) t)
    (hall : ∀ y ∈ g.deps id, y ∈ followed) (ha : a ∈ new ++ [id]) :
    b ∈ new ++ [id] ↔ g.Leads a b ∧ g.Leads b a := by
  have hopen : ∀ x ∈ new ++ [id], x ∈ t.stack := fun x hx => h.open_of_mem hx
  have hfrom : ∀ x ∈ new ++ [id], g.Leads id x := by
    intro x hx
    refine h.keeps.down id List.mem_cons_self x (hopen x hx) ?_
    rcases List.mem_append.mp hx with hx | hx
    · rw [h.height_id]
      exact (h.height_above hx).le
    · rw [List.mem_singleton.mp hx]
  have hto : ∀ x ∈ new ++ [id], g.Leads x id := by
    intro x hx
    obtain ⟨w, hw, -, hlead⟩ := h.keeps.back x (hopen x hx)
    rcases List.mem_cons.mp hw with rfl | hw
    · exact hlead
    · -- A way back below the module would leave what stays above it.
      have hbelow := h.underway w hw
      rcases h.stays hall hlead hx with hstay | hclosed
      · rcases List.mem_append.mp hstay with hmem | hmem
        · exact absurd hmem (h.id_not_mem.2.2 w hbelow)
        · rw [List.mem_singleton.mp hmem] at hbelow
          exact absurd hbelow h.id_not_mem.2.1
      · exact absurd hclosed (h.keeps.not_closed (h.mem_stack.mpr (.inr (.inr hbelow))))
  constructor
  · intro hb
    exact ⟨(hto a ha).trans (hfrom b hb), (hto b hb).trans (hfrom a ha)⟩
  · rintro ⟨hab, hba⟩
    refine (h.stays hall hab ha).resolve_right ?_
    intro hclosed
    exact h.keeps.not_closed (hopen a ha) (h.keeps.closed_of_leads hclosed hba)

theorem mem_stack_of_mem (h : Following g way id s followed new low t) (ha : a ∈ s.stack) :
    a ∈ t.stack := h.mem_stack.mpr (.inr (.inr ha))

theorem distinct_close (h : Following g way id s followed new low t) :
    ((t.close id).stack ++ (t.close id).components.flatten).Nodup := by
  have hold := h.keeps.distinct
  rw [h.stack] at hold
  rw [h.close_eq]
  refine List.Perm.nodup ?_ hold
  have hflat : (t.components ++ [new ++ [id]]).flatten =
      t.components.flatten ++ (new ++ [id]) := by simp
  have hopen : new ++ id :: s.stack = (new ++ [id]) ++ s.stack := List.append_cons _ _ _
  rw [hflat, hopen]
  calc (new ++ [id] ++ s.stack ++ t.components.flatten).Perm
        (s.stack ++ (new ++ [id]) ++ t.components.flatten) := List.perm_append_comm.append_right _
    _ = s.stack ++ ((new ++ [id]) ++ t.components.flatten) := List.append_assoc _ _ _
    List.Perm _ (s.stack ++ (t.components.flatten ++ (new ++ [id]))) :=
      List.perm_append_comm.append_left _

/-- What was on the stack before the visit still leads back to the way in. -/
theorem back_close (h : Following g way id s followed new low t) (ha : a ∈ s.stack) :
    ∃ x ∈ way, heightIn s.stack x ≤ heightIn s.stack a ∧ g.Leads a x := by
  obtain ⟨x, hx, hle, hlead⟩ := h.keeps.back a (h.mem_stack_of_mem ha)
  rw [h.height_below ha] at hle
  rcases List.mem_cons.mp hx with rfl | hx
  · rw [h.height_id] at hle
    have hlow := heightIn_le s.stack a
    omega
  · rw [h.height_below (h.underway x hx)] at hle
    exact ⟨x, hx, hle, hlead⟩

theorem finished_close (h : Following g way id s followed new low t) (ha : a ∈ s.stack)
    (hfree : a ∉ way) : ∀ y ∈ g.deps a, (t.close id).Met y := by
  intro y hy
  have hout : a ∉ id :: way := by
    rw [List.mem_cons, not_or]
    refine ⟨?_, hfree⟩
    rintro rfl
    exact h.id_not_mem.2.1 ha
  exact h.met_close (h.keeps.finished a (.inl (h.mem_stack_of_mem ha)) hout y hy)

/-- Components that were closed before lead to none that is closed later. -/
theorem ordered_close (h : Following g way id s followed new low t) :
    (t.close id).components.Pairwise fun c later => ∀ x ∈ c, ∀ y ∈ later, ¬ g.Leads x y := by
  rw [h.close_eq]
  refine List.pairwise_append.mpr ⟨h.keeps.ordered, List.pairwise_singleton _ _, ?_⟩
  intro c hc later hlater x hx y hy hlead
  rw [List.mem_singleton.mp hlater] at hy
  have hxclosed : t.Closed x := List.mem_flatten.mpr ⟨c, hc, hx⟩
  exact h.keeps.not_closed (h.open_of_mem hy) (h.keeps.closed_of_leads hxclosed hlead)

/-- A module that leads nowhere below itself is closed. -/
theorem close (h : Following g way id s followed new (s.stack.length + 1) t)
    (hall : ∀ y ∈ g.deps id, y ∈ followed) : Exploring g way (t.close id) := by
  have hstack : (t.close id).stack = s.stack := by rw [h.close_eq]
  have hcomponents : (t.close id).components = t.components ++ [new ++ [id]] := by rw [h.close_eq]
  have hclosed : ∀ x, (t.close id).Closed x → ∀ y ∈ g.deps x, (t.close id).Closed y := by
    intro x hx y hy
    refine h.closed_close.mpr ?_
    rcases h.closed_close.mp hx with hx | hx
    · exact .inl (h.keeps.closed x hx y hy)
    · exact (h.stays hall (.single hy) hx).symm
  refine {
    distinct := h.distinct_close
    underway := fun x hx => hstack ▸ h.underway x hx
    finished := ?_
    closed := hclosed
    down := ?_
    back := ?_
    strong := ?_
    nonempty := ?_
    ordered := h.ordered_close }
  · intro x hx hfree y hy
    rcases hx with hx | hx
    · exact h.finished_close (hstack ▸ hx) hfree y hy
    · exact .inr (hclosed x hx y hy)
  · intro x hx y hy hle
    rw [hstack] at hy hle
    refine h.keeps.down x (List.mem_cons_of_mem _ hx) y (h.mem_stack_of_mem hy) ?_
    rw [h.height_below hy, h.height_below (h.underway x hx)]
    exact hle
  · intro y hy
    rw [hstack] at hy ⊢
    exact h.back_close hy
  · intro c hc x hx y
    rw [hcomponents] at hc
    rcases List.mem_append.mp hc with hc | hc
    · exact h.keeps.strong c hc x hx y
    · rw [List.mem_singleton.mp hc] at hx ⊢
      exact h.component hall hx
  · rw [hcomponents, List.mem_append, List.mem_singleton]
    rintro (hmem | hmem)
    · exact h.keeps.nonempty hmem
    · exact List.append_ne_nil_of_right_ne_nil new (List.cons_ne_nil id []) hmem.symm

theorem explored_closed (h : Following g way id s followed new (s.stack.length + 1) t)
    (hall : ∀ y ∈ g.deps id, y ∈ followed) :
    Explored g way id s [] (s.stack.length + 1) (t.close id) where
  keeps := h.close hall
  stack := by rw [h.close_eq, List.nil_append]
  grown x hx := h.met_close (h.grown x hx)
  met := .inr (h.closed_close.mpr (.inr (List.mem_append_right _ List.mem_cons_self)))
  low_le := Nat.le_refl _
  reach := .inl rfl
  bound := nofun

/-- A module that leads further down stays on the stack, and leads back to the way in. -/
theorem explored_open (h : Following g way id s followed new low t)
    (hall : ∀ y ∈ g.deps id, y ∈ followed) (hlow : low ≠ s.stack.length + 1) :
    Explored g way id s (new ++ [id]) low t where
  keeps := { h.keeps with
    underway := fun x hx => h.keeps.underway x (List.mem_cons_of_mem _ hx)
    finished := by
      intro x hmet hfree y hy
      by_cases hx : x = id
      · subst hx
        exact (h.followed y (hall y hy)).1
      · have hout : x ∉ id :: way := by
          rw [List.mem_cons, not_or]
          exact ⟨hx, hfree⟩
        exact h.keeps.finished x hmet hout y hy
    down := fun x hx => h.keeps.down x (List.mem_cons_of_mem _ hx)
    back := by
      intro y hy
      obtain ⟨x, hx, hle, hlead⟩ := h.keeps.back y hy
      rcases List.mem_cons.mp hx with rfl | hx
      · obtain ⟨z, hz, hheight, hdown⟩ := h.reach.resolve_left hlow
        obtain ⟨w, hw, hbelow, hback⟩ := h.keeps.back z (h.mem_stack.mpr (.inr (.inr hz)))
        have hzlow := heightIn_le s.stack z
        rw [h.height_below hz] at hbelow
        rw [h.height_id] at hle
        rcases List.mem_cons.mp hw with rfl | hw
        · rw [h.height_id] at hbelow
          omega
        · exact ⟨w, hw, by omega, hlead.trans (hdown.trans hback)⟩
      · exact ⟨x, hx, hle, hlead⟩ }
  stack := by rw [h.stack, List.append_cons]
  grown := h.grown
  met := .inl (h.open_of_mem (List.mem_append_right _ List.mem_cons_self))
  low_le := h.low_le
  reach := h.reach
  bound x hx y hy hmem := by
    rcases List.mem_append.mp hx with hx | hx
    · exact h.bound x hx y hy hmem
    · rw [List.mem_singleton.mp hx] at hy
      exact (h.followed y (hall y hy)).2 hmem

end Following

/-- Whatever can be visited: the modules, and what they depend on. -/
def ids (g : ModuleGraph) : Finset ModuleId :=
  Finset.range g.size ∪ (g.modules.flatMap fun m => m.deps).toFinset

theorem mem_ids_of_lt (h : id < g.size) : id ∈ g.ids :=
  Finset.mem_union_left _ (Finset.mem_range.mpr h)

theorem mem_ids_of_edge (h : b ∈ g.deps a) : b ∈ g.ids := by
  have hsize : a < g.modules.length := by
    by_contra hge
    rw [deps_of_size_le (Nat.le_of_not_lt hge)] at h
    cases h
  have hmem : b ∈ g.modules[a].deps := by simpa [deps, hsize] using h
  refine Finset.mem_union_right _ (List.mem_toFinset.mpr ?_)
  exact List.mem_flatMap.mpr ⟨g.modules[a], List.getElem_mem hsize, hmem⟩

theorem card_ids_le : g.ids.card ≤ g.size + g.edgeCount := by
  refine (Finset.card_union_le _ _).trans ?_
  rw [Finset.card_range]
  exact Nat.add_le_add_left (List.toFinset_card_le _) _

instance (s : Search) : DecidablePred s.Met := fun x =>
  inferInstanceAs (Decidable (x ∈ s.stack ∨ x ∈ s.components.flatten))

/-- What was not met yet. -/
def unmet (g : ModuleGraph) (s : Search) : Finset ModuleId := g.ids.filter (¬ s.Met ·)

/-- Each module is met once, so a way in is no longer than there are modules to meet. -/
theorem unmet_lt (hid : id ∈ g.ids) (hnew : ¬ s.Met id) (hmet : t.Met id)
    (hgrown : ∀ x, s.Met x → t.Met x) : (g.unmet t).card < (g.unmet s).card := by
  refine Finset.card_lt_card (Finset.ssubset_iff_of_subset ?_ |>.mpr ?_)
  · intro x hx
    obtain ⟨hx, hfresh⟩ := Finset.mem_filter.mp hx
    exact Finset.mem_filter.mpr ⟨hx, fun hold => hfresh (hgrown x hold)⟩
  · refine ⟨id, Finset.mem_filter.mpr ⟨hid, hnew⟩, ?_⟩
    intro hmem
    exact (Finset.mem_filter.mp hmem).2 hmet

/-- Visits with this much fuel explore whatever is left to meet. -/
def Explores (g : ModuleGraph) (fuel : Nat) : Prop :=
  ∀ {way : List ModuleId} {id : ModuleId} {s : Search}, Exploring g way s → id ∈ g.ids →
    ¬ s.Met id → (∀ x ∈ way, g.Leads x id) → (g.unmet s).card < fuel →
    ∃ new, Explored g way id s new (g.visit fuel id s).1 (g.visit fuel id s).2

namespace Following

variable {followed : List ModuleId} {low fuel : Nat}

theorem step (hvisit : g.Explores fuel) (h : Following g way id s followed new low t)
    {dep : ModuleId} (hdep : dep ∈ g.deps id) (hfuel : (g.unmet t).card < fuel) :
    ∃ new', Following g way id s (dep :: followed) new'
      (g.follow fuel (low, t) dep).1 (g.follow fuel (low, t) dep).2 := by
  unfold follow
  split
  · next hclosed => exact ⟨new, h.of_closed (isClosed_iff.mp hclosed)⟩
  · next hfree =>
    split
    · next hopen => exact ⟨new, h.of_open hdep hopen⟩
    · next hout =>
      have hunmet : ¬ t.Met dep :=
        not_or.mpr ⟨hout, fun hclosed => hfree (isClosed_iff.mpr hclosed)⟩
      obtain ⟨later, hlater⟩ :=
        hvisit h.keeps (mem_ids_of_edge hdep) hunmet (h.way_leads hdep) hfuel
      exact ⟨later ++ new, h.of_explored hdep hunmet hlater⟩

/-- The visited module itself was met, so there is always less to meet than before the visit. -/
theorem run (hvisit : g.Explores fuel) (h : Following g way id s followed new low t)
    (hid : id ∈ g.ids) (hnew : ¬ s.Met id) (hfuel : (g.unmet s).card < fuel + 1)
    {rest : List ModuleId} (hrest : rest ⊆ g.deps id) :
    ∃ new', Following g way id s (rest.reverse ++ followed) new'
      (rest.foldl (g.follow fuel) (low, t)).1 (rest.foldl (g.follow fuel) (low, t)).2 := by
  induction rest generalizing followed new low t with
  | nil => exact ⟨new, h⟩
  | cons dep rest ih =>
    obtain ⟨hdep, hrest⟩ := List.cons_subset.mp hrest
    have hmet : t.Met id := .inl (h.keeps.underway id List.mem_cons_self)
    have hless := unmet_lt hid hnew hmet h.grown
    obtain ⟨new', hnext⟩ := h.step hvisit hdep (by omega)
    rw [List.reverse_cons, List.append_assoc]
    exact ih hnext hrest

end Following

theorem explores (g : ModuleGraph) (fuel : Nat) : g.Explores fuel := by
  induction fuel with
  | zero => exact fun _ _ _ _ hfuel => absurd hfuel (Nat.not_lt_zero _)
  | succ fuel ih =>
    intro way id s h hid hnew hway hfuel
    obtain ⟨new, hdone⟩ :=
      (Following.start h hnew hway).run ih hid hnew hfuel (List.Subset.refl (g.deps id))
    have hall : ∀ y ∈ g.deps id, y ∈ (g.deps id).reverse ++ [] := by
      intro y hy
      rw [List.append_nil]
      exact List.mem_reverse.mpr hy
    rw [visit_succ]
    dsimp only
    split
    · next hlow =>
      rw [hlow] at hdone ⊢
      exact ⟨[], hdone.explored_closed hall⟩
    · next hlow => exact ⟨new ++ [id], hdone.explored_open hall hlow⟩

/-- What the search does at a module. -/
def enter (g : ModuleGraph) (fuel : Nat) (s : Search) (id : ModuleId) : Search :=
  if s.isClosed id then s else (g.visit fuel id s).2

theorem components_eq : g.components =
    ((List.range g.size).foldl (g.enter (g.size + g.edgeCount + 1)) ⟨[], []⟩).components := rfl

theorem Exploring.enter {fuel : Nat} (h : Exploring g [] s) (hid : id ∈ g.ids)
    (hfuel : g.ids.card < fuel) : Exploring g [] (g.enter fuel s id) ∧
      (g.enter fuel s id).Closed id ∧ ∀ x, s.Closed x → (g.enter fuel s id).Closed x := by
  unfold ModuleGraph.enter
  split
  · next hclosed => exact ⟨h, isClosed_iff.mp hclosed, fun _ hx => hx⟩
  · next hfree =>
    have hnew : ¬ s.Met id := by
      rintro (hopen | hclosed)
      · rw [h.stack_eq_nil] at hopen
        cases hopen
      · exact hfree (isClosed_iff.mpr hclosed)
    have hless : (g.unmet s).card < fuel := (Finset.card_filter_le _ _).trans_lt hfuel
    obtain ⟨new, hdone⟩ := g.explores fuel h hid hnew nofun hless
    have hclosed : ∀ {x}, (g.visit fuel id s).2.Met x → (g.visit fuel id s).2.Closed x := by
      rintro x (hopen | hclosed)
      · rw [hdone.keeps.stack_eq_nil] at hopen
        cases hopen
      · exact hclosed
    exact ⟨hdone.keeps, hclosed hdone.met, fun x hx => hclosed (hdone.grown x (.inr hx))⟩

theorem Exploring.run {fuel : Nat} (h : Exploring g [] s) (hfuel : g.ids.card < fuel)
    {ids : List ModuleId} (hids : ∀ id ∈ ids, id ∈ g.ids) :
    Exploring g [] (ids.foldl (g.enter fuel) s) ∧
      ∀ x, s.Closed x ∨ x ∈ ids → (ids.foldl (g.enter fuel) s).Closed x := by
  induction ids generalizing s with
  | nil => exact ⟨h, fun x hx => hx.resolve_right List.not_mem_nil⟩
  | cons id ids ih =>
    obtain ⟨hkeeps, hclosed, hgrown⟩ := h.enter (hids id List.mem_cons_self) hfuel
    obtain ⟨hdone, hall⟩ := ih hkeeps fun x hx => hids x (List.mem_cons_of_mem _ hx)
    refine ⟨hdone, ?_⟩
    rintro x (hx | hx)
    · exact hall x (.inl (hgrown x hx))
    · rcases List.mem_cons.mp hx with rfl | hx
      · exact hall x (.inl hclosed)
      · exact hall x (.inr hx)

/-- The search ends with every module in a component. -/
theorem exists_explored (g : ModuleGraph) : ∃ s : Search, s.components = g.components ∧
    Exploring g [] s ∧ ∀ id < g.size, s.Closed id := by
  have hfuel : g.ids.card < g.size + g.edgeCount + 1 := Nat.lt_succ_of_le card_ids_le
  have hids : ∀ id ∈ List.range g.size, id ∈ g.ids :=
    fun id hid => mem_ids_of_lt (List.mem_range.mp hid)
  obtain ⟨hkeeps, hclosed⟩ := Exploring.start.run hfuel hids
  refine ⟨_, components_eq.symm, hkeeps, fun id hid => ?_⟩
  exact hclosed id (.inr (List.mem_range.mpr hid))

end RefCheck.ModuleGraph
