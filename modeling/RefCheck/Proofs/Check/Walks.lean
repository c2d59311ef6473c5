import RefCheck.Proofs.Check.Integrity
import RefCheck.Proofs.Walk.Contract
import RefCheck.Walk.Trace

/-!
# Walks in sessions

However the program of a session came about, its roots have no parents, and every function below
them has a name, parameters and a body. So walks of the roots keep to their contract, in any order
and for any visitor that leaves the program alone.
-/

namespace RefCheck

open RefCheck.Text RefCheck.Script

variable {ε σ : Type}

theorem Trace.readOnly_visitor (stopAt : Option NodeId) : (Trace.visitor stopAt).ReadOnly := by
  constructor
  all_goals
    intro place s
    rw [Trace.visitor]
    split <;> rfl

namespace Program

variable {p : Program} {plots : List Plot} {ids : List NodeId}

/-- The functions below the roots are those that the parser built. -/
theorem Holds.parts_of_function (hp : p.Holds plots) {f : NodeId} (hf : p.store.InTree roots f)
    (hkind : p.store.kind? (some f) = some .function) :
    ∃ name params body, p.store.children (some f) = [some name, some params, some body] := by
  obtain ⟨root, hroot, habove⟩ := hf
  obtain ⟨path, hpath⟩ := NodeStore.above_iff_follow.mp habove
  cases path with
  | nil =>
    obtain rfl : root = f := Option.some.inj hpath
    rw [NodeStore.kind?, hp.node root (mem_roots.mp hroot)] at hkind
    cases hkind
  | cons step rest =>
    obtain ⟨plot, hplot, -, ⟨-, rfl⟩ | ⟨v, hv, -, rfl⟩⟩ := hp.on_way hroot hpath
    · rw [(hp.shown plot hplot).kind_eq] at hkind
      cases hkind
    · rw [hv.shown.kind_eq] at hkind
      obtain ⟨name, params, body, hparts⟩ := hv.shown.parts (Option.some.inj hkind)
      refine ⟨name.root, params.root, body.root, ?_⟩
      rw [hv.shown.children_eq, hparts]
      rfl

theorem Holds.regular (hp : p.Holds plots) (hlinked : p.store.Linked) (hdistinct : ids.Nodup)
    (hids : ∀ id ∈ ids, id ∈ roots) : p.store.Regular ids where
  toRooted := by
    refine hlinked.rooted ?_ (fun root hroot => (hp.root_spec (hids root hroot)).1) hdistinct
    intro root hroot
    rw [hp.node root (mem_roots.mp (hids root hroot))]
    rfl
  free root hroot := (hp.root_spec (hids root hroot)).1
  plain root hroot hkind := by
    rw [NodeStore.kind?, hp.node root (mem_roots.mp (hids root hroot))] at hkind
    cases hkind
  parts f hf := by
    obtain ⟨root, hroot, habove⟩ := hf
    exact hp.parts_of_function ⟨root, hids root hroot, habove⟩

end Program

namespace Check

/-- In every session: a walk of one or both roots, in any order, keeps to the contract for every
visitor that leaves the program alone. -/
theorem walk_contract (visit : Visitor ε σ) (hvisit : visit.ReadOnly) (levels : Levels)
    (actions : List Action) (ids : List NodeId) (hdistinct : ids.Nodup)
    (hids : ∀ id ∈ ids, id ∈ Program.roots) (own : σ) :
    Walk.Contract visit (Session.after levels actions).program ids own := by
  obtain ⟨plots, hs⟩ := Session.formed levels actions
  exact hvisit.contract (hs.checkable.holds.regular hs.linked hdistinct hids) own

/-- For instance a walk that stops inside a function expression inside a function declaration: the
name of the declaration is outside of it, and that of the expression inside. -/
theorem walk_contract_nested :
    let actions := [.edit (.addSource "a.js"
      "function f(x) \x7b var h = function g() \x7b x; \x7d; \x7d" none)]
    let p := (Session.after Levels.none actions).program
    let ids := [Program.mainRoot, Program.externsRoot]
    let visits := Walk.visits (Trace.visitor (some 9)) p ids Trace.empty
    ((Trace.visitor (some 9)).ReadOnly ∧ ids.Nodup ∧ ∀ id ∈ ids, id ∈ Program.roots) ∧
      Walk.Contract (Trace.visitor (some 9)) p ids Trace.empty ∧
      visits.map (fun v => (v.node, v.place.scopes)) = [(2, [0]), (3, [1, 0]), (4, [1, 0]),
        (6, [2, 1, 0]), (7, [2, 1, 0]), (8, [2, 1, 0]), (9, [2, 1, 0])] ∧
      (Walk.roots (Trace.visitor (some 9)) p (ids.map some) Trace.empty).error? = some 9 := by
  intro actions p ids visits
  have hreads := Trace.readOnly_visitor (some 9)
  have hdistinct : ids.Nodup := by decide
  have hids : ∀ id ∈ ids, id ∈ Program.roots := by decide
  exact ⟨⟨hreads, hdistinct, hids⟩,
    walk_contract _ hreads Levels.none actions ids hdistinct hids Trace.empty,
    by decide +kernel, by decide +kernel⟩

end Check

end RefCheck
