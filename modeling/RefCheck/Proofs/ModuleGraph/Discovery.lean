import Mathlib.Data.List.Chain
import RefCheck.Proofs.ModuleGraph.Cycles

/-!
# The order in which cycles are listed

A depth-first search meets modules one after the other, and a component comes off the stack with the
module that was met last. So a cycle is listed against the order of the search, in which each module
but the first is a dependency of one that was met before. So an arrow from one name of a list to the
next leads to a module that was met earlier, on which the first one need not depend. The list goes
round along dependencies if it has one or two members, and otherwise only if the members also depend
on each other against the order of the search (`goesRound_iff`).
-/

namespace RefCheck.ModuleGraph

variable {g : ModuleGraph} {id : ModuleId} {met ids order c l rest stack : List ModuleId}
  {s t : Search} {fuel : Nat}

open Search

/-- Each module of a list depends directly on the next one, and the last one on the first one. -/
structure GoesRound (g : ModuleGraph) (c : List ModuleId) : Prop where
  steps : c.IsChain g.Edge
  closes : ∀ last ∈ c.getLast?, ∀ first ∈ c.head?, g.Edge last first

/-- Each module of a list depends directly on the one before it, and the first one on the last
one. -/
structure GoesBack (g : ModuleGraph) (c : List ModuleId) : Prop where
  steps : c.IsChain fun a b => g.Edge b a
  closes : ∀ first ∈ c.head?, ∀ last ∈ c.getLast?, g.Edge first last

theorem goesRound_reverse : g.GoesRound l.reverse ↔ g.GoesBack l := by
  constructor
  · intro h
    refine ⟨List.isChain_reverse.mp h.steps, fun first hfirst last hlast => ?_⟩
    exact h.closes first (by rwa [List.getLast?_reverse]) last (by rwa [List.head?_reverse])
  · intro h
    refine ⟨List.isChain_reverse.mpr h.steps, fun last hlast first hfirst => ?_⟩
    rw [List.getLast?_reverse] at hlast
    rw [List.head?_reverse] at hfirst
    exact h.closes last hlast first hfirst

theorem goesBack_reverse : g.GoesBack l.reverse ↔ g.GoesRound l := by
  rw [← goesRound_reverse, List.reverse_reverse]

/-- `g.Meets met ids order` says that a depth-first search that has met the modules `met` and goes
to `ids` in turn has met the modules `order` by the end, in this order. -/
inductive Meets (g : ModuleGraph) : List ModuleId → List ModuleId → List ModuleId → Prop
  | done {met : List ModuleId} : Meets g met [] met
  | skip {met ids order : List ModuleId} {id : ModuleId} : id ∈ met → Meets g met ids order →
      Meets g met (id :: ids) order
  | go {met inner ids order : List ModuleId} {id : ModuleId} : id ∉ met →
      Meets g (met ++ [id]) (g.deps id) inner →
      Meets g inner ids order → Meets g met (id :: ids) order

theorem nodup_push (hmet : met.Nodup) (hid : id ∉ met) : (met ++ [id]).Nodup := by
  rw [← List.concat_eq_append]
  exact hmet.concat hid

namespace Meets

theorem isPrefix (h : g.Meets met ids order) : met <+: order := by
  induction h with
  | done => exact List.prefix_rfl
  | skip _ _ ih => exact ih
  | go _ _ _ ihinner ihrest => exact ((List.prefix_append _ _).trans ihinner).trans ihrest

theorem nodup (h : g.Meets met ids order) (hmet : met.Nodup) : order.Nodup := by
  induction h with
  | done => exact hmet
  | skip _ _ ih => exact ih hmet
  | go hnew _ _ ihinner ihrest => exact ihrest (ihinner (nodup_push hmet hnew))

theorem unique {other : List ModuleId} (h : g.Meets met ids order) (h' : g.Meets met ids other) :
    other = order := by
  induction h generalizing other with
  | done => cases h' with | done => rfl
  | skip hold _ ih =>
    cases h' with
    | skip _ hrest => exact ih hrest
    | go hnew => exact absurd hold hnew
  | go hnew _ _ ihinner ihrest =>
    cases h' with
    | skip hold => exact absurd hold hnew
    | go _ hinner hrest =>
      obtain rfl := ihinner hinner
      exact ihrest hrest

end Meets

/-- Modules that a search has on its way, the one that was met last in front: each but the last is a
dependency of one behind it. -/
inductive Branching (g : ModuleGraph) : List ModuleId → Prop
  | root {id : ModuleId} : Branching g [id]
  | reached {id parent : ModuleId} {rest : List ModuleId} : parent ∈ rest → g.Edge parent id →
      Branching g rest → Branching g (id :: rest)

theorem Branching.exists_parent {a : ModuleId} (h : g.Branching (a :: l)) (hl : l ≠ []) :
    ∃ parent ∈ l, g.Edge parent a ∧ g.Branching l := by
  cases h with
  | root => exact absurd rfl hl
  | reached hparent hedge hrest => exact ⟨_, hparent, hedge, hrest⟩

/-- What was met on from a dependency comes in front of what was met before. -/
theorem Branching.append {new : List ModuleId} {parent : ModuleId}
    (h : g.Branching (new ++ [id])) (hparent : parent ∈ rest) (hedge : g.Edge parent id)
    (hrest : g.Branching rest) : g.Branching (new ++ id :: rest) := by
  induction new with
  | nil => exact .reached hparent hedge hrest
  | cons a new ih =>
    obtain ⟨above, habove, hstep, hnew⟩ := h.exists_parent (by simp)
    have hmem : above ∈ new ++ id :: rest := by
      rw [List.append_cons]
      exact List.mem_append_left _ habove
    exact .reached hmem hstep (ih hnew)

/-- What lies on the stack and in the components of a search was met, the top of a stack last. -/
structure InOrder (g : ModuleGraph) (met : List ModuleId) (s : Search) : Prop where
  mem_iff : ∀ x, x ∈ met ↔ s.Met x
  stack : s.stack.reverse.Sublist met
  components : ∀ c ∈ s.components, c.reverse.Sublist met ∧ g.Branching c

/-- A visit leaves the stack as it was, or puts the module on it and what was met on from there. -/
def Stacked (g : ModuleGraph) (id : ModuleId) (before after : List ModuleId) : Prop :=
  after = before ∨ ∃ new, after = new ++ id :: before ∧ g.Branching (new ++ [id])

theorem unmet_le (hgrown : ∀ x, s.Met x → t.Met x) : (g.unmet t).card ≤ (g.unmet s).card := by
  refine Finset.card_le_card fun x hx => ?_
  obtain ⟨hx, hfresh⟩ := Finset.mem_filter.mp hx
  exact Finset.mem_filter.mpr ⟨hx, fun hold => hfresh (hgrown x hold)⟩

namespace InOrder

theorem start : InOrder g [] ⟨[], []⟩ where
  mem_iff x := by simp [Met, Closed]
  stack := List.Sublist.slnil
  components := nofun

theorem grown {s' : Search} (h : InOrder g met s) (h' : InOrder g order s') (hle : met <+: order) :
    ∀ x, s.Met x → s'.Met x :=
  fun x hx => (h'.mem_iff x).mp (hle.subset ((h.mem_iff x).mpr hx))

theorem push (h : InOrder g met s) :
    InOrder g (met ++ [id]) { s with stack := id :: s.stack } where
  mem_iff x := by
    rw [List.mem_append, h.mem_iff, List.mem_singleton, Met, Met, List.mem_cons]
    exact ⟨fun hx => hx.elim (Or.imp_left .inr) fun hx => .inl (.inl hx), by tauto⟩
  stack := by
    rw [List.reverse_cons]
    exact h.stack.append_right [id]
  components c hc :=
    ⟨(h.components c hc).1.trans (List.sublist_append_left _ _), (h.components c hc).2⟩

/-- What comes off the stack is a component, and what lay below stays. -/
theorem close (h : InOrder g met t) (hmet : met.Nodup) {new : List ModuleId}
    (hstack : t.stack = new ++ id :: stack) (hnew : g.Branching (new ++ [id])) :
    InOrder g met (t.close id) ∧ (t.close id).stack = stack := by
  have hid : id ∉ new := by
    have hnodup : t.stack.Nodup := List.nodup_reverse.mp (h.stack.nodup hmet)
    rw [hstack] at hnodup
    exact fun hmem => (List.nodup_append.mp hnodup).2.2 id hmem id List.mem_cons_self rfl
  have hclose : t.close id = ⟨stack, t.components ++ [new ++ [id]]⟩ := by
    rw [Search.close, hstack, dropWhile_append_cons hid, takeWhile_append_cons hid, List.tail_cons]
  have hsplit : t.stack.reverse = stack.reverse ++ (new ++ [id]).reverse := by
    rw [hstack, List.append_cons, List.reverse_append]
  refine ⟨?_, by rw [hclose]⟩
  rw [hclose]
  refine ⟨fun x => ?_, ?_, fun c hc => ?_⟩
  · rw [h.mem_iff, Met, Met, Closed, Closed, hstack]
    simp only [List.flatten_append, List.flatten_cons, List.flatten_nil, List.mem_append,
      List.mem_cons, List.append_nil, List.not_mem_nil, or_false]
    tauto
  · exact (hsplit ▸ List.sublist_append_left _ _).trans h.stack
  · rcases List.mem_append.mp hc with hc | hc
    · exact h.components c hc
    · rw [List.mem_singleton.mp hc]
      exact ⟨(hsplit ▸ List.sublist_append_right _ _).trans h.stack, hnew⟩

end InOrder

/-- Visits with this much fuel meet what a depth-first search meets, in its order. -/
def Orders (g : ModuleGraph) (fuel : Nat) : Prop :=
  ∀ {met : List ModuleId} {s : Search} {id : ModuleId}, met.Nodup → InOrder g met s →
    id ∈ g.ids → ¬ s.Met id → (g.unmet s).card < fuel →
    ∃ order, g.Meets (met ++ [id]) (g.deps id) order ∧ InOrder g order (g.visit fuel id s).2 ∧
      g.Stacked id s.stack (g.visit fuel id s).2.stack

/-- The dependencies of a module are gone to one by one while it is on the stack. -/
theorem Orders.run (hvisit : g.Orders fuel) (low : Nat) {deps new : List ModuleId}
    (hdeps : deps ⊆ g.deps id) (hmet : met.Nodup) (h : InOrder g met t)
    (hstack : t.stack = new ++ id :: stack) (hnew : g.Branching (new ++ [id]))
    (hfuel : (g.unmet t).card < fuel) :
    ∃ order new', g.Meets met deps order ∧
      InOrder g order (deps.foldl (g.follow fuel) (low, t)).2 ∧
      (deps.foldl (g.follow fuel) (low, t)).2.stack = new' ++ id :: stack ∧
      g.Branching (new' ++ [id]) := by
  induction deps generalizing met t new low with
  | nil => exact ⟨met, new, .done, h, hstack, hnew⟩
  | cons dep deps ih =>
    obtain ⟨hdep, hdeps⟩ := List.cons_subset.mp hdeps
    rw [List.foldl_cons, follow]
    by_cases hold : t.Met dep
    · -- Whatever was met leaves the search as it is, apart from the lowest height.
      have hskip : ∀ low', ∃ order new', g.Meets met (dep :: deps) order ∧
          InOrder g order (deps.foldl (g.follow fuel) (low', t)).2 ∧
          (deps.foldl (g.follow fuel) (low', t)).2.stack = new' ++ id :: stack ∧
          g.Branching (new' ++ [id]) := by
        intro low'
        obtain ⟨order, new', hmeets, hrest⟩ := ih _ hdeps hmet h hstack hnew hfuel
        exact ⟨order, new', .skip ((h.mem_iff dep).mpr hold) hmeets, hrest⟩
      split
      · exact hskip _
      · next hopen =>
        have hmem : dep ∈ t.stack :=
          hold.resolve_right fun hclosed => hopen (isClosed_iff.mpr hclosed)
        rw [if_pos hmem]
        exact hskip _
    · obtain ⟨hout, hopen⟩ := not_or.mp hold
      rw [if_neg fun hclosed => hopen (isClosed_iff.mp hclosed), if_neg hout]
      obtain ⟨inner, hinner, hafter, hontop⟩ := hvisit hmet h (mem_ids_of_edge hdep) hold hfuel
      have hprefix : met <+: inner := (List.prefix_append _ _).trans hinner.isPrefix
      have hnodup : inner.Nodup :=
        hinner.nodup (nodup_push hmet fun hmem => hold ((h.mem_iff dep).mp hmem))
      have hless := (unmet_le (h.grown hafter hprefix)).trans_lt hfuel
      obtain ⟨new', hstack', hnew'⟩ : ∃ new', (g.visit fuel dep t).2.stack = new' ++ id :: stack ∧
          g.Branching (new' ++ [id]) := by
        rcases hontop with hsame | ⟨later, hlater, hbranching⟩
        · exact ⟨new, hsame.trans hstack, hnew⟩
        · refine ⟨later ++ dep :: new, ?_, ?_⟩
          · rw [hlater, hstack, List.append_assoc, List.cons_append]
          · rw [List.append_assoc, List.cons_append]
            exact hbranching.append (List.mem_append_right _ List.mem_cons_self) hdep hnew
      obtain ⟨order, more, hmeets, hrest⟩ := ih _ hdeps hnodup hafter hstack' hnew' hless
      exact ⟨order, more, .go (fun hmem => hold ((h.mem_iff dep).mp hmem)) hinner hmeets, hrest⟩

theorem orders (g : ModuleGraph) (fuel : Nat) : g.Orders fuel := by
  induction fuel with
  | zero => exact fun _ _ _ _ hfuel => absurd hfuel (Nat.not_lt_zero _)
  | succ fuel ih =>
    intro met s id hmet h hid hnew hfuel
    have hfresh : (met ++ [id]).Nodup :=
      nodup_push hmet fun hmem => hnew ((h.mem_iff id).mp hmem)
    have hless := unmet_lt (t := { s with stack := id :: s.stack }) hid hnew
      (.inl List.mem_cons_self) (h.grown h.push (List.prefix_append _ _))
    have hpushed : Search.stack { s with stack := id :: s.stack } = [] ++ id :: s.stack := rfl
    obtain ⟨order, new, hmeets, horder, hstack, hbranching⟩ :=
      ih.run (s.stack.length + 1) (List.Subset.refl _) hfresh h.push hpushed .root (by omega)
    refine ⟨order, hmeets, ?_⟩
    rw [visit_succ]
    dsimp only
    split
    · obtain ⟨hclosed, hbelow⟩ := horder.close (hmeets.nodup hfresh) hstack hbranching
      exact ⟨hclosed, .inl hbelow⟩
    · exact ⟨horder, .inr ⟨new, hstack, hbranching⟩⟩

/-- The whole search goes to the modules in turn, from an empty stack each time. -/
theorem Exploring.meets (h : Exploring g [] s) (hfuel : g.ids.card < fuel)
    (hids : ∀ id ∈ ids, id ∈ g.ids) (hmet : met.Nodup) (horder : InOrder g met s) :
    ∃ order, g.Meets met ids order ∧ InOrder g order (ids.foldl (g.enter fuel) s) := by
  induction ids generalizing met s with
  | nil => exact ⟨met, .done, horder⟩
  | cons id ids ih =>
    obtain ⟨hid, hids⟩ := List.forall_mem_cons.mp hids
    have hmem : id ∈ met ↔ s.Closed id := by
      rw [horder.mem_iff, Met, h.stack_eq_nil]
      simp
    obtain ⟨hnext, -, -⟩ := h.enter hid hfuel
    by_cases hclosed : s.Closed id
    · have hsame : g.enter fuel s id = s := if_pos (isClosed_iff.mpr hclosed)
      obtain ⟨order, hmeets, hdone⟩ := ih h hids hmet horder
      exact ⟨order, .skip (hmem.mpr hclosed) hmeets, by rwa [List.foldl_cons, hsame]⟩
    · have hvisit : g.enter fuel s id = (g.visit fuel id s).2 :=
        if_neg fun hold => hclosed (isClosed_iff.mp hold)
      have hfresh : id ∉ met := fun hold => hclosed (hmem.mp hold)
      have hnew : ¬ s.Met id := fun hold => hfresh ((horder.mem_iff id).mpr hold)
      have hless : (g.unmet s).card < fuel := (Finset.card_filter_le _ _).trans_lt hfuel
      obtain ⟨inner, hinner, hafter, -⟩ := g.orders fuel hmet horder hid hnew hless
      rw [← hvisit] at hafter
      have hnodup := hinner.nodup (nodup_push hmet hfresh)
      obtain ⟨order, hmeets, hdone⟩ := ih hnext hids hnodup hafter
      exact ⟨order, .go hfresh hinner hmeets, hdone⟩

/-- There is a depth-first order of all modules, and each component goes against it. -/
theorem exists_order (g : ModuleGraph) : ∃ order, g.Meets [] (List.range g.size) order ∧
    ∀ c ∈ g.components, c.reverse.Sublist order ∧ g.Branching c := by
  have hfuel : g.ids.card < g.size + g.edgeCount + 1 := Nat.lt_succ_of_le card_ids_le
  have hids : ∀ id ∈ List.range g.size, id ∈ g.ids :=
    fun id hid => mem_ids_of_lt (List.mem_range.mp hid)
  obtain ⟨order, hmeets, horder⟩ :=
    Exploring.start.meets hfuel hids List.nodup_nil InOrder.start
  exact ⟨order, hmeets, fun c hc => horder.components c (components_eq ▸ hc)⟩

/-- A part of a list without repetitions is what the list has of its members. -/
theorem filter_mem_of_sublist (h : l.Sublist order) (horder : order.Nodup) :
    order.filter (· ∈ l) = l := by
  induction h with
  | slnil => rfl
  | cons a hsub ih =>
    obtain ⟨hfresh, horder⟩ := List.nodup_cons.mp horder
    rw [List.filter_cons_of_neg (by simpa using fun hmem => hfresh (hsub.subset hmem)), ih horder]
  | cons_cons a hsub ih =>
    obtain ⟨hfresh, horder⟩ := List.nodup_cons.mp horder
    rw [List.filter_cons_of_pos (by simp)]
    refine congrArg (a :: ·) (Eq.trans (List.filter_congr fun b hb => ?_) (ih horder))
    have hne : b ≠ a := by
      rintro rfl
      exact hfresh hb
    simp [hne]

/-- In a component of two members, each depends directly on the other one. -/
theorem edge_of_pair {a b x : ModuleId} (hne : a ≠ b)
    (hpair : ∀ x, g.Leads a x → g.Leads x a → x = a ∨ x = b) (hback : g.Leads b a)
    (h : g.Leads x b) (hx : x = a) : g.Edge a b := by
  induction h using Relation.ReflTransGen.head_induction_on with
  | refl => exact absurd hx.symm hne
  | @head x next hedge hlead ih =>
    subst hx
    rcases hpair next (.single hedge) (hlead.trans hback) with hnext | rfl
    · exact ih hnext
    · exact hedge

theorem goesRound_of_length_le (hc : c ∈ g.cycles) (hlength : c.length ≤ 2) : g.GoesRound c := by
  obtain ⟨s, hall, hs, -⟩ := g.exists_explored
  obtain ⟨hmem, hcircular⟩ := List.mem_filter.mp hc
  rw [← hall] at hmem
  have hstrong := hs.strong c hmem
  have hnodup : c.Nodup := (List.nodup_flatten.mp nodup_cycles).1 c hc
  match c with
  | [] => exact ⟨.nil, nofun⟩
  | [a] =>
    have hself : g.Edge a a := List.contains_iff_mem.mp hcircular
    exact ⟨.singleton a, by simpa using hself⟩
  | [a, b] =>
    have hne : a ≠ b := by simpa using hnodup
    obtain ⟨hab, hba⟩ := (hstrong a (by simp) b).mp (by simp)
    have hfrom : ∀ x, g.Leads a x → g.Leads x a → x = a ∨ x = b := fun x hax hxa => by
      simpa using (hstrong a (by simp) x).mpr ⟨hax, hxa⟩
    have hto : ∀ x, g.Leads b x → g.Leads x b → x = b ∨ x = a := fun x hbx hxb => by
      simpa [or_comm] using (hstrong b (by simp) x).mpr ⟨hbx, hxb⟩
    refine ⟨List.isChain_pair.mpr (edge_of_pair hne hfrom hba hab rfl), ?_⟩
    simpa using edge_of_pair (Ne.symm hne) hto hab hba rfl
  | _ :: _ :: _ :: _ => simp at hlength

/-- Each member depends directly on no more than one member. -/
def Lone (g : ModuleGraph) (c : List ModuleId) : Prop :=
  ∀ a ∈ c, ∀ b ∈ c, ∀ d ∈ c, g.Edge a b → g.Edge a d → b = d

/-- In a chain all but the first come behind another one. -/
theorem exists_before {r : ModuleId → ModuleId → Prop} {a b : ModuleId}
    (h : (a :: l).IsChain r) (hb : b ∈ l) : ∃ x ∈ (a :: l).dropLast, r x b := by
  induction l generalizing a with
  | nil => cases hb
  | cons next l ih =>
    obtain ⟨hstep, hrest⟩ := List.isChain_cons_cons.mp h
    rw [List.dropLast_cons_cons]
    rcases List.mem_cons.mp hb with rfl | hb
    · exact ⟨a, List.mem_cons_self, hstep⟩
    · obtain ⟨x, hx, hxb⟩ := ih hrest hb
      exact ⟨x, List.mem_cons_of_mem _ hx, hxb⟩

/-- If each member depends on one member only, it was met on from the one before it. -/
theorem Branching.isChain (h : g.Branching c) (hnodup : c.Nodup) (hlone : g.Lone c) :
    c.IsChain fun a b => g.Edge b a := by
  induction h with
  | root => exact .singleton _
  | @reached id parent rest hparent hedge hrest ih =>
    obtain ⟨hfresh, hnodup⟩ := List.nodup_cons.mp hnodup
    have hback := ih hnodup fun a ha b hb d hd => hlone a (List.mem_cons_of_mem _ ha)
      b (List.mem_cons_of_mem _ hb) d (List.mem_cons_of_mem _ hd)
    cases rest with
    | nil => cases hparent
    | cons first rest =>
      refine List.isChain_cons_cons.mpr ⟨?_, hback⟩
      rcases List.mem_cons.mp hparent with rfl | hlater
      · exact hedge
      · -- A later member depends on the one before it, and so not on the new one.
        obtain ⟨x, hx, hdep⟩ := exists_before hback hlater
        have hmem := List.mem_of_mem_dropLast hx
        have hsame := hlone parent (List.mem_cons_of_mem _ hparent) x (List.mem_cons_of_mem _ hmem)
          id List.mem_cons_self hdep hedge
        exact absurd (hsame ▸ hmem) hfresh

theorem goesBack_of_lone (hc : c ∈ g.cycles) (hbranching : g.Branching c) (hlone : g.Lone c) :
    g.GoesBack c := by
  have hnodup : c.Nodup := (List.nodup_flatten.mp nodup_cycles).1 c hc
  have hsteps := hbranching.isChain hnodup hlone
  refine ⟨hsteps, fun first hfirst root hroot => ?_⟩
  have hrootmem : root ∈ c := List.mem_of_getLast? hroot
  -- Something in the cycle depends on the module that was met first.
  obtain ⟨last, hlast, hedge⟩ : ∃ last ∈ c, g.Edge last root := by
    obtain ⟨last, hlead, hedge⟩ := Relation.TransGen.tail'_iff.mp
      (mem_cycle_iff.mp ⟨c, hc, hrootmem⟩)
    obtain ⟨s, hall, hs, -⟩ := g.exists_explored
    have hmem := ((mem_cycles hs hall hrootmem).mp hc).1
    exact ⟨last, (hs.strong c hmem root hrootmem last).mpr ⟨hlead, .single hedge⟩, hedge⟩
  cases c with
  | nil => cases hlast
  | cons front rest =>
    obtain rfl : front = first := Option.some.inj hfirst
    rcases List.mem_cons.mp hlast with rfl | hlater
    · exact hedge
    · obtain ⟨x, hx, hdep⟩ := exists_before hsteps hlater
      have hsame := hlone last hlast x (List.mem_of_mem_dropLast hx) root hrootmem hdep hedge
      have hsplit := List.dropLast_append_getLast? root hroot
      rw [← hsplit, hsame.symm] at hnodup
      exact absurd rfl ((List.nodup_append.mp hnodup).2.2 x hx x List.mem_cons_self)

/-- A cycle whose members depend on one member each is listed backwards, so it goes round only if
that makes no difference. -/
theorem Lone.goesRound_iff_length_le (hlone : g.Lone c) (hc : c ∈ g.cycles)
    (hback : g.GoesBack c) : g.GoesRound c ↔ c.length ≤ 2 := by
  refine ⟨fun hround => ?_, goesRound_of_length_le hc⟩
  have hnodup : c.Nodup := (List.nodup_flatten.mp nodup_cycles).1 c hc
  match c with
  | [] | [_] | [_, _] => simp
  | a :: b :: d :: rest =>
    have hba : g.Edge b a := (List.isChain_cons_cons.mp hback.steps).1
    have hrest := (List.isChain_cons_cons.mp hround.steps).2
    have hbd : g.Edge b d := (List.isChain_cons_cons.mp hrest).1
    have hsame := hlone b (by simp) a (by simp) d (by simp) hba hbd
    simp [hsame] at hnodup

/-- There is one depth-first order of the modules, and a cycle is listed against it. So the list
goes round along dependencies exactly if its members depend on each other against the order of the
search. That is so of every cycle of one or two members, and of no longer one whose members depend
on one member each: such a cycle goes round backwards. -/
theorem goesRound_iff (g : ModuleGraph) : ∃ order,
    (∀ other, g.Meets [] (List.range g.size) other ↔ other = order) ∧
    ∀ c ∈ g.cycles,
      c.reverse = order.filter (· ∈ c) ∧ g.Branching c ∧
      (g.GoesRound c ↔ g.GoesBack (order.filter (· ∈ c))) ∧
      (c.length ≤ 2 → g.GoesRound c) ∧
      (g.Lone c → g.GoesBack c ∧ (g.GoesRound c ↔ c.length ≤ 2)) := by
  obtain ⟨order, hmeets, hcomponents⟩ := g.exists_order
  refine ⟨order, fun other => ⟨hmeets.unique, fun h => h ▸ hmeets⟩, fun c hc => ?_⟩
  obtain ⟨hsub, hbranching⟩ := hcomponents c (List.mem_filter.mp hc).1
  have hreverse : c.reverse = order.filter (· ∈ c) := by
    have hfilter := filter_mem_of_sublist hsub (hmeets.nodup List.nodup_nil)
    simpa using hfilter.symm
  refine ⟨hreverse, hbranching, ?_, goesRound_of_length_le hc, fun hlone => ?_⟩
  · rw [← hreverse, goesBack_reverse]
  · have hback := goesBack_of_lone hc hbranching hlone
    exact ⟨hback, hlone.goesRound_iff_length_le hc hback⟩

/-- Three modules, each depending on the next one and the last one on the first. -/
def ring : ModuleGraph := ⟨[⟨"a", [1]⟩, ⟨"b", [2]⟩, ⟨"c", [0]⟩]⟩

/-- The ring is listed against its dependencies. -/
theorem cycles_ring : ring.cycles = [[2, 1, 0]] ∧
    ring.cycleNames [2, 1, 0] = ["c", "b", "a"] ∧ ¬ ring.GoesRound [2, 1, 0] := by
  refine ⟨by decide, by decide, fun h => ?_⟩
  have hedge : (1 : ModuleId) ∈ [0] := (List.isChain_cons_cons.mp h.steps).1
  exact absurd hedge (by decide)

end RefCheck.ModuleGraph
