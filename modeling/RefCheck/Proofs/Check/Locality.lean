import RefCheck.Proofs.Check.Located
import RefCheck.Proofs.Walk.Arrivals
import RefCheck.Proofs.Walk.Meanings

/-!
# Local variables stay in their input

The input that a walk carries along, the one that going up from a node leads to and the one of a
local variable are the same, in every session. So a check that is no sanity check never finds a
reference across modules to anything but a global variable.
-/

namespace RefCheck

open RefCheck.Text RefCheck.Script

/-- A visitor that takes the input around each node from the program. -/
def Visitor.asking {ε σ : Type} (visit : Visitor ε σ) : Visitor ε σ := fun place s =>
  visit { place with input := s.program.store.inputOf (some place.node) } s

/-- A visitor that only adds to programs is walked like one that asks. -/
theorem Visitor.alike_asking {ε σ : Type} {visit : Visitor ε σ} {Fine : Program → σ → Prop}
    (hholds : ∀ p own, Fine p own → ∃ plots, p.Holds plots)
    (hvisit : ∀ place (s : WalkState σ), Fine s.program s.own →
      Fine (visit place s).state.program (visit place s).state.own ∧
        s.program.store.Grew (visit place s).state.program.store) :
    Visitor.Alike visit visit.asking Fine where
  holds := hholds
  same place s _ h := by
    rw [asking, ← h.input]
  fine place s hs _ := (hvisit place s hs).1
  grew place s hs _ := (hvisit place s hs).2

namespace Check

variable {p : Program} {plots : List Plot} {repairs : Repairs}

/-- What a trace wrote down of a program. -/
structure Wrote (p q : Program) (trace : Trace) : Prop where
  same : q = p
  arrives : ∀ σ ∈ trace.sightings, p.Arrives σ.place

theorem alike_trace (hp : p.Holds plots) :
    Visitor.Alike (Trace.visitor none) (Trace.visitor none) (Wrote p) where
  holds q _ h := ⟨plots, h.same ▸ hp⟩
  same _ _ _ _ := rfl
  fine place s hs harrives := by
    refine ⟨hs.same, fun σ hσ => ?_⟩
    rcases List.mem_append.mp hσ with hσ | hσ
    · exact hs.arrives σ hσ
    · rw [List.mem_singleton.mp hσ]
      exact hs.same ▸ harrives
  grew place s _ _ := NodeStore.grew_refl _

/-- Wherever a trace was written, a walk may come to. -/
theorem arrives_of_sighting (hp : p.Holds plots) {σ : Sighting}
    (hσ : σ ∈ (Walk.roots (Trace.visitor none) p
      [some Program.externsRoot, some Program.mainRoot] Trace.empty).state.own.sightings) :
    p.Arrives σ.place :=
  ((alike_trace hp).roots ⟨rfl, fun _ hnew => absurd hnew List.not_mem_nil⟩).fine.arrives σ hσ

/-- A variable that is not global is of the input in which its name stands. -/
theorem input_of_sighting (hp : p.Holds plots) {σ : Sighting}
    (hσ : σ ∈ (Walk.roots (Trace.visitor none) p
      [some Program.externsRoot, some Program.mainRoot] Trace.empty).state.own.sightings)
    (hkind : σ.kind = .name) {var : Var} (hvar : σ.meaning = some var)
    (hlocal : var.isGlobal = false) : var.input = σ.place.input := by
  obtain ⟨v, -, hof⟩ := (traced_walk hp).names σ hσ hkind
  obtain ⟨ids, -, hplace, hmeaning⟩ := hof.meant
  have hframes : ∀ f ∈ v.site.frames, f.input = v.site.input := by
    intro f hf
    obtain ⟨names, -, rfl⟩ := List.mem_map.mp hf
    rfl
  rw [hmeaning] at hvar
  rcases Option.or_eq_some_iff.mp hvar with hmeaning | ⟨-, hglobal⟩
  · rw [hplace]
    exact (Frame.input_of_meaning hframes hmeaning).1
  · rw [Frame.isGlobal_of_global hglobal] at hlocal
    cases hlocal

/-- What a visit comes to reports something, or mends names, or leaves everything as it is. -/
def Mends (s : WalkState Repairs) (visited : Progress VariableError (WalkState Repairs)) : Prop :=
  ∃ bag names, (∀ x ∈ names, x ≠ "") ∧
    (visited.state.program, visited.state.own) = mend ({ s.program with bag }, s.own) names

section Mends

variable {s : WalkState Repairs} {sanity : Bool} {place : Place} {name : String} {var : Var}
  {error : VariableError}

theorem mends_on : Mends s (.on s) := ⟨s.program.bag, [], List.forall_mem_nil _, rfl⟩

theorem mends_stopped : Mends s (.stopped error s) :=
  ⟨s.program.bag, [], List.forall_mem_nil _, rfl⟩

theorem mends_report (rule : Rule) (args : List String) :
    Mends s (.on (s.report place rule args)) := ⟨_, [], List.forall_mem_nil _, rfl⟩

theorem mends_emptyName : Mends s (emptyName place s) := by
  rw [emptyName]
  split
  · exact mends_stopped
  · split
    · exact mends_report _ _
    · exact mends_on

theorem mends_undeclared (hname : name ≠ "") : Mends s (undeclared sanity place name s) := by
  rw [undeclared]
  split
  · exact mends_on
  · split
    · exact ⟨_, [], List.forall_mem_nil _, rfl⟩
    · exact ⟨_, [name], List.forall_mem_singleton.mpr hname, rfl⟩

theorem mends_reference : Mends s (.on (reference sanity place name var s)) := by
  rw [reference]
  split
  · split
    · exact mends_on
    · split
      · dsimp only
        split
        · exact mends_report _ _
        · exact mends_on
      · exact mends_on
  · exact mends_on

theorem mends_variableNames : Mends s (variableNames sanity place s) := by
  rw [variableNames]
  split
  · exact mends_on
  · dsimp only
    split
    · exact mends_emptyName
    · next hname =>
      split
      · exact mends_undeclared hname
      · exact mends_reference

/-- A check that can go on can do so after every visit. -/
theorem Mends.ready {visited : Progress VariableError (WalkState Repairs)} (h : Mends s visited)
    (hready : Ready s.program plots s.own) :
    (∃ after, Ready visited.state.program after visited.state.own) ∧
      s.program.store.Grew visited.state.program.store := by
  obtain ⟨bag, names, hnames, hstate⟩ := h
  obtain ⟨after, hafter⟩ :=
    mended (hready.withBag bag).holds (hready.withBag bag).hosted names hnames
  rw [← hstate] at hafter
  exact ⟨⟨after, hafter.holds, hafter.hosted⟩, hafter.kept.store⟩

end Mends

/-- A check comes to the same if it takes the input around each node from the program. -/
theorem Ready.run_asking (h : Ready p plots repairs) (sanity : Bool) :
    run sanity repairs p = .ofWalk (Walk.roots (Visitor.asking (variableNames sanity))
      (externs p (some Program.externsRoot))
      [some Program.externsRoot, some Program.mainRoot] repairs) := by
  have halike : Visitor.Alike (variableNames sanity) (Visitor.asking (variableNames sanity))
      fun q own => ∃ after, Ready q after own :=
    Visitor.alike_asking (fun q own ⟨after, hready⟩ => ⟨after, hready.holds⟩)
      fun place s ⟨after, hready⟩ => mends_variableNames.ready hready
  have hstart : ∃ after, Ready (externs p (some Program.externsRoot)) after repairs := by
    rw [externs_eq h.holds]
    exact ⟨plots, h.withBag _⟩
  rw [run, (halike.roots hstart).same]

section Strict

variable {o : Outline} {m : Mention} {d : Diagnostic}

theorem key_of_mem_crossing {declaring : InputId}
    (h : d ∈ Outline.crossing false o m declaring) : d.key ≠ Rule.strictModuleDependency.key := by
  rw [Outline.crossing] at h
  split at h
  · obtain ⟨rule, hrule, rfl⟩ := Option.map_eq_some_iff.mp (Option.mem_toList.mp h)
    have hkey : rule.key ≠ Rule.strictModuleDependency.key := by
      simp only [Outline.broken?, Bool.false_eq_true, if_false] at hrule
      split at hrule
      · cases hrule
      · split at hrule <;> cases hrule <;> decide
    exact hkey
  · cases h

/-- Without a sanity check the strict rule is not broken. -/
theorem key_of_mem_found (h : d ∈ o.found false) : d.key ≠ Rule.strictModuleDependency.key := by
  rcases List.mem_append.mp h with h | h
  · rw [Outline.key_of_mem_noEffect h]
    decide
  · by_cases hkey : d.key = Rule.undefinedVariable.key
    · rw [hkey]
      decide
    · have hremark : d ∈ o.all.flatMap (Outline.remarks false o) := by
        rw [← Outline.filter_findings []]
        exact List.mem_filter.mpr ⟨h, decide_eq_true hkey⟩
      obtain ⟨m, -, hd⟩ := List.mem_flatMap.mp hremark
      rcases Outline.mem_remarks hd with ⟨-, -, rfl⟩ | ⟨declaring, -, hd⟩
      · change Rule.invalidFunctionDeclaration.key ≠ _
        decide
      · exact key_of_mem_crossing hd

end Strict

/-- In every session: wherever a walk of all scripts comes, the input that it carries along is the
one around the node, and only the roots have none; a variable that is not global and that a name is
found to mean is of the input around the name. So a check comes to the same if it takes the input
from the program at each node, and reports no strict rule to be broken unless it is a sanity
check. -/
theorem locals_within_inputs (levels : Levels) (actions : List Action) :
    let s := Session.after levels actions
    let store := s.program.store
    (∀ σ ∈ (Walk.roots (Trace.visitor none) s.program
        [some Program.externsRoot, some Program.mainRoot] Trace.empty).state.own.sightings,
      σ.place.input = store.inputOf (some σ.place.node) ∧
      (σ.place.input = none ↔ σ.place.node ∈ Program.roots) ∧
      (σ.kind = .name → ∀ var, σ.meaning = some var → var.isGlobal = false →
        var.input = σ.place.input)) ∧
    ∀ checker ∈ s.checkers,
      checker.verdict s.program =
        .ofWalk (Walk.roots (Visitor.asking (variableNames checker.sanity))
          (externs s.program (some Program.externsRoot))
          [some Program.externsRoot, some Program.mainRoot] checker.repairs) ∧
      (checker.sanity = false →
        ∃ new, (checker.verdict s.program).program.bag.reports =
            s.program.bag.reports ++ new ∧
          ∀ d ∈ new, d.key ≠ Rule.strictModuleDependency.key) := by
  obtain ⟨plots, hs⟩ := Session.held levels actions
  have hp := hs.checkable.holds
  refine ⟨fun σ hσ => ?_, fun checker hmem => ?_⟩
  · obtain ⟨⟨root, path, hleads⟩, hinput⟩ := arrives_of_sighting hp hσ
    rw [hinput]
    exact ⟨rfl, hp.inputOf_eq_none hleads,
      fun hkind var hvar hlocal => hinput ▸ input_of_sighting hp hσ hkind hvar hlocal⟩
  · have hchecks := hs.checks hmem
    refine ⟨hchecks.toReady.run_asking checker.sanity, fun hsanity => ?_⟩
    refine ⟨_, hchecks.run_found checker.sanity, fun d hd => ?_⟩
    rw [hsanity] at hd
    exact key_of_mem_found hd

end Check

end RefCheck
