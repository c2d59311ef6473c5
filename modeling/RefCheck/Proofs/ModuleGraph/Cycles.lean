import RefCheck.Proofs.ModuleGraph.Search

/-!
# Cycles are what depends on itself

The search closes every module in a component, and a component is circular exactly if its members
depend on themselves. So the cycles take apart the modules that depend on themselves into classes of
modules that depend on each other.
-/

namespace RefCheck.ModuleGraph

variable {g h : ModuleGraph} {a b : ModuleId} {s : Search} {c : List ModuleId}

theorem Reaches.leads (h : g.Reaches a b) : g.Leads a b := h.to_reflTransGen

theorem Leads.reaches (h : g.Leads a b) (hne : a ≠ b) : g.Reaches a b :=
  (Relation.reflTransGen_iff_eq_or_transGen.mp h).resolve_left (Ne.symm hne)

/-- A component is circular if its members depend on themselves. -/
theorem isCircular_iff (h : Exploring g [] s) (hc : c ∈ s.components)
    (ha : a ∈ c) : g.isCircular c ↔ g.Reaches a a := by
  have hnodup : c.Nodup :=
    (List.nodup_flatten.mp (List.nodup_append.mp h.distinct).2.1).1 c hc
  have hstrong := h.strong c hc
  match c with
  | [] => cases ha
  | [id] =>
    obtain rfl := List.mem_singleton.mp ha
    have hsingle : g.isCircular [a] = (g.deps a).contains a := rfl
    rw [hsingle, List.contains_iff_mem]
    constructor
    · exact fun hedge => .single hedge
    · intro hcycle
      obtain ⟨b, hedge, hback⟩ := Relation.TransGen.head'_iff.mp hcycle
      have hb : b ∈ [a] := (hstrong a ha b).mpr ⟨.single hedge, hback⟩
      rwa [List.mem_singleton.mp hb] at hedge
  | first :: second :: rest =>
    have hlong : g.isCircular (first :: second :: rest) = true := by simp [isCircular]
    rw [hlong]
    refine ⟨fun _ => ?_, fun _ => rfl⟩
    obtain ⟨b, hb, hne⟩ : ∃ b ∈ first :: second :: rest, a ≠ b := by
      by_cases heq : a = first
      · refine ⟨second, by simp, ?_⟩
        rintro rfl
        subst heq
        simp at hnodup
      · exact ⟨first, List.mem_cons_self, heq⟩
    obtain ⟨hab, hba⟩ := (hstrong a ha b).mp hb
    exact (hab.reaches hne).trans (hba.reaches (Ne.symm hne))

/-- Names have no part in the search. -/
theorem visit_congr (hdeps : h.deps = g.deps) (fuel : Nat) : h.visit fuel = g.visit fuel := by
  induction fuel with
  | zero => rfl
  | succ fuel ih =>
    funext id s
    have hfollow : h.follow fuel = g.follow fuel := by
      unfold follow
      rw [ih]
    rw [visit_succ, visit_succ, hdeps, hfollow]

theorem cycles_congr (hsize : h.size = g.size) (hdeps : h.deps = g.deps) :
    h.cycles = g.cycles := by
  have hedges : h.edgeCount = g.edgeCount := by
    rw [← unseenEdges_nil, ← unseenEdges_nil, unseenEdges, unseenEdges, hsize, hdeps]
  have henter : ∀ fuel, h.enter fuel = g.enter fuel := by
    intro fuel
    unfold ModuleGraph.enter
    rw [visit_congr hdeps]
  have hcomponents : h.components = g.components := by
    rw [components_eq, components_eq, hsize, hedges, henter]
  have hcircular : h.isCircular = g.isCircular := by
    funext c
    unfold isCircular
    rw [hdeps]
  rw [cycles, cycles, hcomponents, hcircular]

/-- A way that comes back starts at a module. -/
theorem lt_size_of_reaches (h : g.Reaches a b) : a < g.size := by
  obtain ⟨c, hedge, -⟩ := Relation.TransGen.head'_iff.mp h
  by_contra hsize
  have hnone : g.deps a = [] := deps_of_size_le (Nat.le_of_not_lt hsize)
  rw [Edge, hnone] at hedge
  cases hedge

theorem mem_cycles (hs : Exploring g [] s) (hall : s.components = g.components) (ha : a ∈ c) :
    c ∈ g.cycles ↔ c ∈ s.components ∧ g.Reaches a a := by
  rw [cycles, List.mem_filter, ← hall]
  constructor
  · rintro ⟨hc, hcircular⟩
    exact ⟨hc, (isCircular_iff hs hc ha).mp hcircular⟩
  · rintro ⟨hc, hcycle⟩
    exact ⟨hc, (isCircular_iff hs hc ha).mpr hcycle⟩

/-- Two modules lie in one cycle exactly if they depend on each other. -/
theorem exists_cycle_iff : (∃ c ∈ g.cycles, a ∈ c ∧ b ∈ c) ↔ g.Reaches a b ∧ g.Reaches b a := by
  obtain ⟨s, hall, hs, hclosed⟩ := g.exists_explored
  constructor
  · rintro ⟨c, hc, ha, hb⟩
    obtain ⟨hmem, hcycle⟩ := (mem_cycles hs hall ha).mp hc
    obtain ⟨hab, hba⟩ := (hs.strong c hmem a ha b).mp hb
    exact ⟨hcycle.trans_left hab, Relation.TransGen.trans_right hba hcycle⟩
  · rintro ⟨hab, hba⟩
    obtain ⟨c, hc, ha⟩ := List.mem_flatten.mp (hclosed a (lt_size_of_reaches hab))
    have hb : b ∈ c := (hs.strong c hc a ha b).mpr ⟨hab.leads, hba.leads⟩
    exact ⟨c, (mem_cycles hs hall ha).mpr ⟨hc, hab.trans hba⟩, ha, hb⟩

theorem mem_cycle_iff : (∃ c ∈ g.cycles, a ∈ c) ↔ g.Reaches a a := by
  have hboth := exists_cycle_iff (g := g) (a := a) (b := a)
  rwa [and_self, show (∃ c ∈ g.cycles, a ∈ c ∧ a ∈ c) ↔ ∃ c ∈ g.cycles, a ∈ c by simp] at hboth

theorem nodup_cycles : g.cycles.flatten.Nodup := by
  obtain ⟨s, hall, hs, -⟩ := g.exists_explored
  have hsub : g.cycles.flatten.Sublist s.components.flatten := by
    rw [cycles, ← hall]
    exact List.Sublist.flatten List.filter_sublist
  exact hsub.nodup (List.nodup_append.mp hs.distinct).2.1

/-- A cycle comes after the cycles that it depends on. -/
theorem pairwise_cycles :
    g.cycles.Pairwise fun c later => ∀ a ∈ c, ∀ b ∈ later, ¬ g.Reaches a b := by
  obtain ⟨s, hall, hs, -⟩ := g.exists_explored
  rw [cycles, ← hall]
  refine (hs.ordered.imp ?_).sublist List.filter_sublist
  exact fun hapart a ha b hb hreach => hapart a ha b hb hreach.leads

theorem cycles_eq_nil : g.cycles = [] ↔ ∀ a, ¬ g.Reaches a a := by
  constructor
  · intro hnil a hcycle
    obtain ⟨c, hc, -⟩ := mem_cycle_iff.mpr hcycle
    rw [hnil] at hc
    cases hc
  · intro hnone
    apply List.eq_nil_iff_forall_not_mem.mpr
    intro c hc
    obtain ⟨s, hall, hs, -⟩ := g.exists_explored
    have hmem : c ∈ s.components := hall ▸ (List.mem_filter.mp hc).1
    match c with
    | [] => exact hs.nonempty hmem
    | a :: rest => exact hnone a (mem_cycle_iff.mp ⟨_, hc, List.mem_cons_self⟩)

/-- The cycles are the classes of modules that depend on each other: every module that depends on
itself lies in one of them, once, each cycle comes after those that it depends on, and the
dependencies alone decide what the cycles are. -/
theorem cycles_dependsOn (g : ModuleGraph) :
    (∀ m, (∃ c ∈ g.cycles, m ∈ c) ↔ g.dependsOn m m) ∧
    g.cycles.flatten.Nodup ∧
    (∀ a b, (∃ c ∈ g.cycles, a ∈ c ∧ b ∈ c) ↔ g.dependsOn a b ∧ g.dependsOn b a) ∧
    g.cycles.Pairwise (fun c later => ∀ a ∈ c, ∀ b ∈ later, ¬ g.dependsOn a b) ∧
    (g.cycles = [] ↔ ∀ m, ¬ g.dependsOn m m) ∧
    ∀ h : ModuleGraph, h.size = g.size → h.deps = g.deps → h.cycles = g.cycles := by
  simp only [dependsOn_iff_reaches]
  refine ⟨fun m => mem_cycle_iff, nodup_cycles, fun a b => exists_cycle_iff, pairwise_cycles,
    cycles_eq_nil, fun h hsize hdeps => cycles_congr hsize hdeps⟩

example : (ModuleGraph.mk [⟨"a", [1]⟩, ⟨"b", [0, 2]⟩, ⟨"c", [2]⟩, ⟨"d", [5]⟩]).cycles =
    [[2], [1, 0]] := by decide

end RefCheck.ModuleGraph
