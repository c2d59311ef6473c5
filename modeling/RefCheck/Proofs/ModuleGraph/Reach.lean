import RefCheck.ModuleGraph.Basic
import Mathlib.Logic.Relation
import Mathlib.Algebra.BigOperators.Group.Finset.Basic

/-!
# Dependencies are what can be reached

A module depends on another one if a way of one or more edges leads there. The gathering of
dependencies ends with exactly these ids: it sees only what can be reached, what was seen leads to
nothing but what was seen or waits, and the fuel outlasts all that can ever wait.
-/

namespace RefCheck.ModuleGraph

variable {g : ModuleGraph} {a b source target : ModuleId} {ids seen waiting next : List ModuleId}

/-- An edge to an id that a module depends on directly. -/
def Edge (g : ModuleGraph) (a b : ModuleId) : Prop := b ∈ g.deps a

/-- A way of one or more edges. -/
def Reaches (g : ModuleGraph) : ModuleId → ModuleId → Prop := Relation.TransGen g.Edge

theorem mem_insertId : a ∈ insertId b ids ↔ a = b ∨ a ∈ ids := by
  induction ids with
  | nil => simp [insertId]
  | cons other rest ih =>
    rw [insertId]
    split
    · simp
    · split
      · next h =>
        subst h
        simp
      · simp only [List.mem_cons, ih]
        tauto

/-- How many edges leave modules that were not seen. -/
def unseenEdges (g : ModuleGraph) (seen : List ModuleId) : Nat :=
  ∑ i ∈ (Finset.range g.size).filter (· ∉ seen), (g.deps i).length

/-- What the gathering keeps up on the way from a source. -/
structure Gathering (g : ModuleGraph) (source : ModuleId) (seen waiting : List ModuleId) :
    Prop where
  reached : ∀ id, id ∈ seen ∨ id ∈ waiting → g.Reaches source id
  begun : ∀ id ∈ g.deps source, id ∈ seen ∨ id ∈ waiting
  closed : ∀ id ∈ seen, ∀ next ∈ g.deps id, next ∈ seen ∨ next ∈ waiting

theorem gathering_start : Gathering g source [] (g.deps source) where
  reached id h := .single (h.resolve_left List.not_mem_nil)
  begun id h := .inr h
  closed := by simp

theorem Gathering.skip (h : Gathering g source seen (a :: waiting)) (ha : a ∈ seen) :
    Gathering g source seen waiting := by
  have hkeep : ∀ id, id ∈ seen ∨ id ∈ a :: waiting → id ∈ seen ∨ id ∈ waiting := by
    rintro id (hid | hid)
    · exact .inl hid
    · rcases List.mem_cons.mp hid with rfl | hid
      · exact .inl ha
      · exact .inr hid
  exact ⟨fun id hid => h.reached id (hid.imp_right (List.mem_cons_of_mem a)),
    fun id hid => hkeep id (h.begun id hid),
    fun id hid next hnext => hkeep next (h.closed id hid next hnext)⟩

/-- What is taken leaves its dependencies behind what waits, those that were seen perhaps not. -/
theorem Gathering.take (h : Gathering g source seen (a :: waiting))
    (hdeps : ∀ id ∈ next, id ∈ g.deps a)
    (hnext : ∀ id ∈ g.deps a, id ∈ insertId a seen ∨ id ∈ next) :
    Gathering g source (insertId a seen) (waiting ++ next) := by
  have hkeep : ∀ id, id ∈ seen ∨ id ∈ a :: waiting →
      id ∈ insertId a seen ∨ id ∈ waiting ++ next := by
    rintro id (hid | hid)
    · exact .inl (mem_insertId.mpr (.inr hid))
    · rcases List.mem_cons.mp hid with rfl | hid
      · exact .inl (mem_insertId.mpr (.inl rfl))
      · exact .inr (List.mem_append_left _ hid)
  have ha : g.Reaches source a := h.reached a (.inr List.mem_cons_self)
  constructor
  · rintro id (hid | hid)
    · rcases mem_insertId.mp hid with rfl | hid
      · exact ha
      · exact h.reached id (.inl hid)
    · rcases List.mem_append.mp hid with hid | hid
      · exact h.reached id (.inr (List.mem_cons_of_mem a hid))
      · exact ha.tail (hdeps id hid)
  · exact fun id hid => hkeep id (h.begun id hid)
  · intro id hid other hother
    rcases mem_insertId.mp hid with rfl | hid
    · exact (hnext other hother).imp_right (List.mem_append_right _)
    · exact hkeep other (h.closed id hid other hother)

theorem Gathering.mem_iff (h : Gathering g source seen []) :
    target ∈ seen ↔ g.Reaches source target := by
  constructor
  · exact fun ht => h.reached target (.inl ht)
  · intro hreach
    induction hreach with
    | single hedge => simpa using h.begun _ hedge
    | tail _ hedge ih => simpa using h.closed _ ih _ hedge

theorem deps_of_size_le (h : g.size ≤ a) : g.deps a = [] := by
  simp [deps, List.getElem?_eq_none h]

theorem unseenEdges_insertId (ha : a ∉ seen) :
    g.unseenEdges (insertId a seen) + (g.deps a).length = g.unseenEdges seen := by
  have herase : (Finset.range g.size).filter (· ∉ insertId a seen) =
      ((Finset.range g.size).filter (· ∉ seen)).erase a := by
    ext i
    simp only [Finset.mem_filter, Finset.mem_erase, mem_insertId]
    tauto
  rw [unseenEdges, herase]
  by_cases hsize : a < g.size
  · exact Finset.sum_erase_add _ _ (by simp [hsize, ha])
  · have hdeps : (g.deps a).length = 0 := by simp [deps_of_size_le (Nat.le_of_not_lt hsize)]
    rw [Finset.sum_erase (f := fun i => (g.deps i).length) _ hdeps, hdeps]
    rfl

theorem unseenEdges_nil : g.unseenEdges [] = g.edgeCount := by
  have hlist : (g.modules.map fun m => m.deps.length) =
      (List.range g.size).map fun i => (g.deps i).length := by
    apply List.ext_getElem (by simp [size])
    intro i hi _
    have hi : i < g.modules.length := by simpa using hi
    simp [deps, hi]
  simp only [unseenEdges, List.not_mem_nil, not_false_eq_true, Finset.filter_true, edgeCount,
    List.length_flatMap, hlist]
  rfl

theorem length_deps_le : (g.deps a).length ≤ g.edgeCount := by
  rw [← unseenEdges_nil, ← unseenEdges_insertId (List.not_mem_nil (a := a))]
  exact Nat.le_add_left _ _

theorem mem_gather {fuel : Nat} (h : Gathering g source seen waiting)
    (hfuel : waiting.length + g.unseenEdges seen < fuel) :
    target ∈ g.gather fuel seen waiting ↔ g.Reaches source target := by
  induction fuel generalizing seen waiting with
  | zero => exact absurd hfuel (Nat.not_lt_zero _)
  | succ fuel ih =>
    cases waiting with
    | nil => exact h.mem_iff
    | cons a waiting =>
      rw [List.length_cons] at hfuel
      rw [gather]
      split
      · next ha => exact ih (h.skip ha) (by omega)
      · next ha =>
        have hless := unseenEdges_insertId (g := g) ha
        exact ih (h.take (fun _ => id) fun _ => .inr) (by rw [List.length_append]; omega)

theorem dependsOn_iff_reaches : g.dependsOn source target ↔ g.Reaches source target := by
  rw [dependsOn, decide_eq_true_iff, dependencies]
  refine mem_gather gathering_start ?_
  have hlength := length_deps_le (g := g) (a := source)
  rw [unseenEdges_nil]
  omega

instance (g : ModuleGraph) (a b : ModuleId) : Decidable (g.Reaches a b) :=
  decidable_of_iff _ dependsOn_iff_reaches

end RefCheck.ModuleGraph
