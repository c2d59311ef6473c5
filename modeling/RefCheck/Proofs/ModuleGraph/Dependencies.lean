import Mathlib.Data.List.Induction
import Mathlib.Data.Prod.Lex
import RefCheck.Proofs.ModuleGraph.Reach

/-!
# Dependencies in any order

What a module depends on is gathered in rounds, and a set of ids may be gone through in any order,
with or without the ids that were seen. However it is done, the gathering ends, since each round
sees another module or leaves less to wait, and it ends with what can be reached by dependencies
that were declared.
-/

namespace RefCheck.ModuleGraph

variable {g : ModuleGraph} {a b c m d : ModuleId} {ds : List Declaration}

/-- What can be declared of modules. -/
inductive Declaration
  | module (name : String)
  | dependency (source target : ModuleId)
deriving DecidableEq, Repr

def declare (g : ModuleGraph) : Declaration → ModuleGraph
  | .module name => (g.add name).1
  | .dependency source target => g.addDependency source target

/-- The graph after some declarations, in this order. -/
def declared (ds : List Declaration) : ModuleGraph := ds.foldl declare empty

/-- A dependency was declared of a module that was there by then. -/
def Declares (ds : List Declaration) (a b : ModuleId) : Prop :=
  ∃ before after, ds = before ++ .dependency a b :: after ∧ a < (declared before).size

theorem declared_concat (ds : List Declaration) (d : Declaration) :
    declared (ds ++ [d]) = (declared ds).declare d := by
  rw [declared, List.foldl_append]
  rfl

theorem deps_add (name : String) : (g.add name).1.deps = g.deps := by
  rw [add]
  split
  · rfl
  · funext a
    have hsize : g.modules.length = g.size := rfl
    by_cases hlt : a < g.size
    · simp [deps, List.getElem?_append_left (hsize ▸ hlt)]
    · have hold := deps_of_size_le (Nat.le_of_not_lt hlt)
      rw [hold, deps, List.getElem?_append_right (hsize ▸ Nat.le_of_not_lt hlt)]
      cases a - g.modules.length <;> rfl

theorem edge_addDependency : (g.addDependency a b).Edge c d ↔
    g.Edge c d ∨ c = a ∧ d = b ∧ a < g.size := by
  simp only [Edge, addDependency, deps, List.getElem?_modify, size]
  by_cases hc : c = a
  · subst hc
    cases hmodule : g.modules[c]? with
    | none =>
      have hsize := List.getElem?_eq_none_iff.mp hmodule
      simp [Nat.not_lt_of_le hsize]
    | some info =>
      have hsize := (List.getElem?_eq_some_iff.mp hmodule).1
      simp [mem_insertId, hsize, or_comm]
  · simp [hc, Ne.symm hc]

/-- The edges of a graph are the dependencies that were declared. -/
theorem edge_declared : (declared ds).Edge a b ↔ Declares ds a b := by
  induction ds using List.reverseRecOn with
  | nil =>
    constructor
    · intro h
      cases h
    · rintro ⟨before, after, hds, -⟩
      simp at hds
  | append_singleton ds last ih =>
    have hdeclares : Declares (ds ++ [last]) a b ↔
        Declares ds a b ∨ last = .dependency a b ∧ a < (declared ds).size := by
      constructor
      · rintro ⟨before, after, hds, hsize⟩
        rcases List.eq_nil_or_concat after with rfl | ⟨front, x, rfl⟩
        · obtain ⟨rfl, hlast⟩ := List.append_inj' hds rfl
          exact .inr ⟨(List.cons.inj hlast).1, hsize⟩
        · rw [List.concat_eq_append, ← List.cons_append, ← List.append_assoc] at hds
          exact .inl ⟨before, front, (List.append_inj' hds rfl).1, hsize⟩
      · rintro (⟨before, after, rfl, hsize⟩ | ⟨rfl, hsize⟩)
        · exact ⟨before, after ++ [last], by simp, hsize⟩
        · exact ⟨ds, [], rfl, hsize⟩
    rw [declared_concat, hdeclares, ← ih]
    cases last with
    | module name =>
      have hdeps : ((declared ds).declare (.module name)).deps = (declared ds).deps :=
        deps_add name
      simp [Edge, hdeps]
    | dependency source target =>
      rw [declare, edge_addDependency]
      constructor
      · rintro (h | ⟨rfl, rfl, h⟩)
        · exact .inl h
        · exact .inr ⟨rfl, h⟩
      · rintro (h | ⟨heq, h⟩)
        · exact .inl h
        · cases heq
          exact .inr ⟨rfl, rfl, h⟩

/-- The ids that were seen, and those that wait to be. -/
structure Frontier where
  seen : List ModuleId
  waiting : List ModuleId

/-- One round of the gathering: what waits in front is dropped if it was seen. Otherwise it is seen
now, and its dependencies wait behind the others, in any order, where those that were seen may be
left out. -/
inductive Round (g : ModuleGraph) : Frontier → Frontier → Prop
  | skip {seen waiting id} : id ∈ seen → Round g ⟨seen, id :: waiting⟩ ⟨seen, waiting⟩
  | take {seen waiting next id} : id ∉ seen → (∀ d ∈ next, d ∈ g.deps id) →
      (∀ d ∈ g.deps id, d ∈ insertId id seen ∨ d ∈ next) →
      Round g ⟨seen, id :: waiting⟩ ⟨insertId id seen, waiting ++ next⟩

namespace Frontier

variable {f f' : Frontier}

/-- The modules that were not seen. -/
def unseen (g : ModuleGraph) (f : Frontier) : Finset ModuleId :=
  (Finset.range g.size).filter (· ∉ f.seen)

/-- How much is left to do: the modules that were not seen, and then what waits. -/
def measure (g : ModuleGraph) (f : Frontier) : Nat ×ₗ Nat :=
  toLex ((f.unseen g).card, f.waiting.length)

end Frontier

open Frontier

variable {f f' : Frontier}

/-- Each round sees another module, or leaves less to wait. -/
theorem Round.measure_lt (h : g.Round f f') : f'.measure g < f.measure g := by
  cases h with
  | skip => exact Prod.Lex.right _ (Nat.lt_succ_self _)
  | @take seen waiting next id hid hdeps _ =>
    have hunseen : Frontier.unseen g ⟨insertId id seen, waiting ++ next⟩ =
        (Frontier.unseen g ⟨seen, id :: waiting⟩).erase id := by
      ext i
      simp only [Frontier.unseen, Finset.mem_filter, Finset.mem_erase, mem_insertId]
      tauto
    by_cases hsize : id < g.size
    · have hmem : id ∈ Frontier.unseen g ⟨seen, id :: waiting⟩ := by
        simp [Frontier.unseen, hsize, hid]
      apply Prod.Lex.left
      rw [hunseen]
      exact Finset.card_erase_lt_of_mem hmem
    · -- An id that no module has brings nothing with it.
      have hnext : next = [] := by
        apply List.eq_nil_iff_forall_not_mem.mpr
        intro d hd
        have hmem := hdeps d hd
        rw [deps_of_size_le (Nat.le_of_not_lt hsize)] at hmem
        cases hmem
      have hsame : (Frontier.unseen g ⟨seen, id :: waiting⟩).erase id =
          Frontier.unseen g ⟨seen, id :: waiting⟩ :=
        Finset.erase_eq_of_notMem (by simp [Frontier.unseen, hsize])
      rw [Frontier.measure, Frontier.measure, hunseen, hsame, hnext, List.append_nil]
      exact Prod.Lex.right _ (Nat.lt_succ_self _)

/-- No gathering goes on forever. -/
theorem wellFounded_round (g : ModuleGraph) : WellFounded fun later f => g.Round f later :=
  Subrelation.wf Round.measure_lt (InvImage.wf (Frontier.measure g) wellFounded_lt)

/-- A gathering goes on as long as something waits. -/
theorem exists_round (g : ModuleGraph) (f : Frontier) :
    f.waiting = [] ∨ ∃ later, g.Round f later := by
  obtain ⟨seen, waiting⟩ := f
  cases waiting with
  | nil => exact .inl rfl
  | cons id waiting =>
    right
    by_cases hid : id ∈ seen
    · exact ⟨_, .skip hid⟩
    · have hall : ∀ d ∈ g.deps id, d ∈ g.deps id := fun _ hd => hd
      exact ⟨_, .take hid hall fun _ => .inr⟩

theorem Round.gathering (h : g.Round f f') (hf : Gathering g m f.seen f.waiting) :
    Gathering g m f'.seen f'.waiting := by
  cases h with
  | skip hid => exact hf.skip hid
  | take _ hdeps hnext => exact hf.take hdeps hnext

/-- Whatever the order, a gathering that has ended has seen what can be reached. -/
theorem mem_seen_iff {first : List ModuleId} (hfirst : ∀ d, d ∈ first ↔ d ∈ g.deps m)
    (h : Relation.ReflTransGen g.Round ⟨[], first⟩ f) (hend : f.waiting = []) :
    d ∈ f.seen ↔ g.Reaches m d := by
  have hstart : Gathering g m [] first := by
    constructor
    · exact fun id hid => .single ((hfirst id).mp (hid.resolve_left List.not_mem_nil))
    · exact fun id hid => .inr ((hfirst id).mpr hid)
    · simp
  have hgathering : Gathering g m f.seen f.waiting := by
    clear hend
    induction h with
    | refl => exact hstart
    | tail _ hround ih => exact hround.gathering ih
  rw [hend] at hgathering
  exact hgathering.mem_iff

/-- With enough fuel a gathering comes to an end by rounds. -/
theorem gather_rounds {fuel : Nat} {seen waiting : List ModuleId}
    (hfuel : waiting.length + g.unseenEdges seen < fuel) :
    Relation.ReflTransGen g.Round ⟨seen, waiting⟩ ⟨g.gather fuel seen waiting, []⟩ := by
  induction fuel generalizing seen waiting with
  | zero => exact absurd hfuel (Nat.not_lt_zero _)
  | succ fuel ih =>
    cases waiting with
    | nil => exact .refl
    | cons id waiting =>
      rw [List.length_cons] at hfuel
      rw [gather]
      split
      · next hid => exact .head (.skip hid) (ih (by omega))
      · next hid =>
        have hless := unseenEdges_insertId (g := g) hid
        refine .head (.take hid (fun _ hd => hd) fun _ => .inr) (ih ?_)
        rw [List.length_append]
        omega

/-- A way of one or more edges leads over some modules. -/
theorem transGen_iff_isChain {r : ModuleId → ModuleId → Prop} :
    Relation.TransGen r a b ↔ ∃ between, (a :: (between ++ [b])).IsChain r := by
  constructor
  · intro h
    induction h using Relation.TransGen.head_induction_on with
    | single h => exact ⟨[], List.isChain_pair.mpr h⟩
    | @head a c h _ ih =>
      obtain ⟨between, hbetween⟩ := ih
      exact ⟨c :: between, List.isChain_cons_cons.mpr ⟨h, hbetween⟩⟩
  · rintro ⟨between, hbetween⟩
    induction between generalizing a with
    | nil => exact .single (List.isChain_pair.mp hbetween)
    | cons c between ih =>
      obtain ⟨h, hrest⟩ := List.isChain_cons_cons.mp hbetween
      exact .head h (ih hrest)

/-- A path of declared dependencies. -/
def Path (ds : List Declaration) (a b : ModuleId) : Prop :=
  ∃ between, (a :: (between ++ [b])).IsChain (Declares ds)

theorem reaches_declared : (declared ds).Reaches a b ↔ Path ds a b := by
  have hedge : (declared ds).Edge = Declares ds := by
    funext a b
    exact propext edge_declared
  rw [Reaches, hedge, transGen_iff_isChain]
  rfl

theorem mem_dependencies : d ∈ g.dependencies m ↔ g.Reaches m d := by
  rw [← dependsOn_iff_reaches, dependsOn, decide_eq_true_iff]

theorem mem_dependencies_declared : d ∈ (declared ds).dependencies m ↔ Path ds m d :=
  mem_dependencies.trans reaches_declared

theorem dependsOn_declared : (declared ds).dependsOn a b ↔ Path ds a b :=
  dependsOn_iff_reaches.trans reaches_declared

/-- More declarations never take an edge away. -/
theorem edge_declare (d : Declaration) (hedge : g.Edge a b) : (g.declare d).Edge a b := by
  cases d with
  | module name =>
    have hdeps : (g.declare (.module name)).deps = g.deps := deps_add name
    rwa [Edge, hdeps]
  | dependency source target => exact edge_addDependency.mpr (.inl hedge)

theorem edge_declared_append (more : List Declaration) (hedge : (declared ds).Edge a b) :
    (declared (ds ++ more)).Edge a b := by
  induction more using List.reverseRecOn with
  | nil => rwa [List.append_nil]
  | append_singleton more last ih =>
    rw [← List.append_assoc, declared_concat]
    exact edge_declare last ih

/-- What a module depends on is what paths of declared dependencies lead to. It may be gathered in
any order: every gathering ends, and ends with just this. So dependencies are transitive, a module
depends on itself only if it lies on a cycle, and more declarations never take a dependency away. -/
theorem dependencies_closure (ds : List Declaration) :
    let g := declared ds
    (WellFounded fun later f => g.Round f later) ∧
    (∀ f : Frontier, f.waiting = [] ∨ ∃ later, g.Round f later) ∧
    (∀ m, Relation.ReflTransGen g.Round ⟨[], g.deps m⟩ ⟨g.dependencies m, []⟩) ∧
    (∀ m first last, (∀ d, d ∈ first ↔ d ∈ g.deps m) →
      Relation.ReflTransGen g.Round ⟨[], first⟩ last → last.waiting = [] →
        ∀ d, d ∈ last.seen ↔ d ∈ g.dependencies m) ∧
    (∀ m d, d ∈ g.dependencies m ↔ Path ds m d) ∧
    (∀ a b c, g.dependsOn a b → g.dependsOn b c → g.dependsOn a c) ∧
    (∀ m, g.dependsOn m m ↔ Path ds m m) ∧
    ∀ more a b, g.dependsOn a b → (declared (ds ++ more)).dependsOn a b := by
  refine ⟨wellFounded_round _, exists_round _, fun m => ?_, ?_,
    fun m d => mem_dependencies_declared, ?_, fun m => dependsOn_declared, ?_⟩
  · apply gather_rounds
    have hlength := length_deps_le (g := declared ds) (a := m)
    rw [unseenEdges_nil]
    omega
  · intro m first last hfirst hrounds hend d
    rw [mem_seen_iff hfirst hrounds hend, mem_dependencies]
  · intro a b c hab hbc
    rw [dependsOn_iff_reaches] at hab hbc ⊢
    exact hab.trans hbc
  · intro more a b hab
    rw [dependsOn_iff_reaches] at hab ⊢
    exact Relation.TransGen.mono (fun _ _ => edge_declared_append more) a b hab

/-- The second module depends on itself and on an id that no module has. -/
example : (declared [.module "a", .module "b", .dependency 1 0, .dependency 0 1,
    .dependency 0 7, .dependency 5 6]).dependencies 1 = [0, 1, 7] := by decide

end RefCheck.ModuleGraph
