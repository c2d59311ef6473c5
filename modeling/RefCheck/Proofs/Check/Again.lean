import RefCheck.Proofs.Check.Repaired
import RefCheck.Proofs.Check.Sessions

/-!
# Checking again

A check that repairs leaves no name missing. When it is repeated, by the same checker or by someone
new, the reports of missing names are gone and all others are there again, and nothing is repaired.
-/

namespace RefCheck.Check

open RefCheck.Text RefCheck.Script

variable {p q : Program} {plots : List Plot} {repairs : Repairs}

/-- New inputs come after those that were there. -/
theorem inputIds_append {new : List Input} (h : q.inputs = p.inputs ++ new) (isExtern : Bool) :
    ∃ ids, inputIds q isExtern = inputIds p isExtern ++ ids ∧
      ∀ i ∈ ids, p.inputs.length ≤ i ∧ ∃ input ∈ new, input.isExtern = isExtern := by
  have hold : ∀ i ∈ List.range p.inputs.length,
      decide ((q.input? i).map (·.isExtern) = some isExtern) =
        decide ((p.input? i).map (·.isExtern) = some isExtern) := by
    intro i hi
    rw [Program.input?, Program.input?, h, List.getElem?_append_left (List.mem_range.mp hi)]
  have hlength : q.inputs.length = p.inputs.length + new.length := by rw [h, List.length_append]
  let ids := (List.range new.length).map fun k => p.inputs.length + k
  refine ⟨ids.filter fun i => (q.input? i).map (·.isExtern) = some isExtern, ?_, ?_⟩
  · rw [inputIds, hlength, List.range_add, List.filter_append, List.filter_congr hold]
    rfl
  · intro i hi
    obtain ⟨hi, hside⟩ := List.mem_filter.mp hi
    obtain ⟨k, -, rfl⟩ := List.mem_map.mp hi
    refine ⟨Nat.le_add_right _ _, ?_⟩
    obtain ⟨input, hinput, hside⟩ := Option.map_eq_some_iff.mp (of_decide_eq_true hside)
    rw [Program.input?, h, List.getElem?_append_right (Nat.le_add_right _ _)] at hinput
    exact ⟨input, List.mem_of_getElem? hinput, hside⟩

section Mended

variable {names : List String} {r : Program × Repairs} {after : List Plot} {i : InputId}

/-- Mending adds no externs but empty ones. -/
theorem Mended.externs (h : Mended p plots names r after) (hp : p.Holds plots) :
    ∃ ids, inputIds r.1 true = inputIds p true ++ ids ∧ ∀ i ∈ ids, bodyOf plots i = [] := by
  obtain ⟨new, hinputs, -⟩ := h.inputs
  obtain ⟨ids, hids, hspec⟩ := inputIds_append hinputs true
  refine ⟨ids, hids, ?_⟩
  intro i hi
  have hnone : plots[i]? = none := List.getElem?_eq_none (by rw [hp.length]; exact (hspec i hi).1)
  rw [bodyOf, hnone]
  rfl

/-- Mending adds nothing but externs. -/
theorem Mended.mains_eq (h : Mended p plots names r after) :
    inputIds r.1 false = inputIds p false := by
  obtain ⟨new, hinputs, hnew⟩ := h.inputs
  obtain ⟨ids, hids, hspec⟩ := inputIds_append hinputs false
  have hnone : ids = [] := by
    apply List.eq_nil_iff_forall_not_mem.mpr
    intro i hi
    obtain ⟨-, input, hinput, hside⟩ := hspec i hi
    rw [(hnew input hinput).1] at hside
    cases hside
  rw [hids, hnone, List.append_nil]

/-- What collects placeholders is among the externs. -/
theorem Mended.host_mem (h : Mended p plots names r after) (hi : r.2.map (·.input) = some i) :
    i ∈ inputIds r.1 true := by
  obtain ⟨root, hroot⟩ := h.host hi
  have hlt := (List.getElem?_eq_some_iff.mp hroot).1
  refine List.mem_filter.mpr ⟨List.mem_range.mpr hlt, ?_⟩
  rw [hroot]
  rfl

end Mended

/-- A check that repairs makes a repaired outline out of that of the program. -/
theorem Checkable.repaired (h : Checkable p plots repairs) :
    let o := plotted p plots
    let mended := mend (p, repairs) (o.lacking [] o.all)
    ∃ after, Checkable mended.1 after mended.2 ∧
      Repaired o (plotted mended.1 after) (o.lacking [] o.all) (mended.2.map (·.input)) := by
  let o := plotted p plots
  obtain ⟨after, hafter, hchecks⟩ := h.mended fun x => Outline.nonempty_of_lacking (o := o)
  refine ⟨after, hchecks, ?_⟩
  refine {
    externs := hafter.externs h.holds
    mains := hafter.mains_eq
    body := hafter.bodies
    file := fun i hi => ?_
    module := fun i hi => ?_
    modules := hafter.kept.modules
    blank := fun i hi => ?_
    hosted := fun hne => ?_
    undeclared := fun x hx => ?_
    complete := fun m hm hmissing => ?_ }
  · change Program.inputName _ i = p.inputName i
    rw [Program.inputName, Program.inputName, hafter.input? (lt_of_mem_outline hi)]
  · change Program.moduleOf _ i = p.moduleOf i
    rw [Program.moduleOf, Program.moduleOf, hafter.input? (lt_of_mem_outline hi)]
  · obtain ⟨root, hroot⟩ := hafter.host hi
    change Program.moduleOf _ i = none
    rw [Program.moduleOf, hroot]
    rfl
  · obtain ⟨host, hhost⟩ := Option.isSome_iff_exists.mp (hafter.made hne)
    have hi := congrArg (Option.map (·.input)) hhost
    exact ⟨host.input, hafter.host_mem hi, hi⟩
  · obtain ⟨-, m, -, hmissing, rfl⟩ := Outline.mem_lacking.mp hx
    obtain ⟨-, hname, -, hnone⟩ := Outline.isMissing_iff.mp hmissing
    exact ⟨hname, hnone⟩
  · exact Outline.mem_lacking.mpr ⟨List.not_mem_nil, m, hm, hmissing, rfl⟩

/-- After a check that repairs, no name is missing and the reports would be the other ones. -/
theorem Checkable.run_again (h : Checkable p plots repairs) :
    let first := run false repairs p
    ∃ after, Checkable first.program after first.repairs ∧
      (plotted first.program after).reports =
        (plotted p plots).reports.filter (fun d => d.key ≠ Rule.undefinedVariable.key) ∧
      ∀ m ∈ (plotted first.program after).all, ¬ (plotted first.program after).isMissing m := by
  obtain ⟨after, hchecks, hrepaired⟩ := h.repaired
  rw [h.run_false]
  exact ⟨after, hchecks.withBag _, hrepaired.reports_eq, fun m => hrepaired.not_isMissing⟩

/-- A check only reports something if no name is missing. -/
theorem Checkable.run_settled (h : Checkable p plots repairs)
    (hsettled : ∀ m ∈ (plotted p plots).all, ¬ (plotted p plots).isMissing m) :
    run false repairs p = ⟨noting p (plotted p plots).reports, repairs, none⟩ ∧
      (run true repairs p).error = none := by
  have hlacking : (plotted p plots).lacking [] (plotted p plots).all = [] := by
    apply List.eq_nil_iff_forall_not_mem.mpr
    intro x hx
    obtain ⟨-, m, hm, hmissing, -⟩ := Outline.mem_lacking.mp hx
    exact hsettled m hm hmissing
  constructor
  · rw [h.run_false]
    dsimp only
    rw [hlacking]
    rfl
  · obtain ⟨-, -, herror, -⟩ := h.run_true
    rw [herror, List.find?_eq_none.mpr hsettled]
    rfl

/-- Someone new can check whatever someone else can. -/
theorem Checkable.fresh (h : Checkable p plots repairs) : Checkable p plots none :=
  ⟨⟨h.holds, nofun⟩, h.fits⟩

/-- In every session a check that repairs goes through. When it is repeated right after that, by the
same checker or by someone new, it reports the same except for the missing names, and nothing else
changes. A sanity check goes through as well. -/
theorem check_again (levels : Levels) (actions : List Action) (checker : Checker)
    (hmem : checker ∈ (Session.after levels actions).checkers) (hnormal : checker.sanity = false) :
    let p := (Session.after levels actions).program
    let first := checker.verdict p
    first.error = none ∧ ∃ found, first.program.bag.reports = p.bag.reports ++ found ∧
      (∀ other ∈ [{ checker with repairs := first.repairs }, Checker.fresh false],
        other.verdict first.program =
          ⟨noting first.program (found.filter fun d => d.key ≠ Rule.undefinedVariable.key),
            other.repairs, none⟩) ∧
      ((Checker.fresh true).verdict first.program).error = none := by
  obtain ⟨plots, hplots⟩ := Session.held levels actions
  have hchecks := hplots.checks hmem
  obtain ⟨after, hafter, hreports, hsettled⟩ := hchecks.run_again
  have hfirst : checker.verdict (Session.after levels actions).program =
      run false checker.repairs (Session.after levels actions).program := by
    rw [Checker.verdict, hnormal]
  dsimp only
  rw [hfirst]
  refine ⟨?_, (plotted (Session.after levels actions).program plots).reports, ?_, ?_, ?_⟩
  · rw [hchecks.run_false]
  · rw [hchecks.run_false]
    rfl
  · intro other hother
    rcases List.mem_cons.mp hother with rfl | hother
    · rw [Checker.verdict, hnormal, (hafter.run_settled hsettled).1, hreports]
    · rw [List.mem_singleton.mp hother, Checker.verdict, Checker.fresh,
        (hafter.fresh.run_settled hsettled).1, hreports]
  · exact (hafter.fresh.run_settled hsettled).2

/-- For instance when a source uses what is declared nowhere. -/
theorem check_again_used :
    let s := Session.after Levels.none [.edit (.addSource "main.js" "used;" none), .join false]
    let first := (Checker.fresh false).verdict s.program
    (Checker.fresh false ∈ s.checkers ∧ (Checker.fresh false).sanity = false) ∧
      first.error = none ∧ ((Checker.fresh false).verdict first.program).repairs = none := by
  have hmem : Checker.fresh false ∈ (Session.after Levels.none
      [.edit (.addSource "main.js" "used;" none), .join false]).checkers := List.mem_cons_self
  obtain ⟨herror, found, -, hagain, -⟩ := check_again _ _ (Checker.fresh false) hmem rfl
  refine ⟨⟨hmem, rfl⟩, herror, ?_⟩
  rw [hagain (Checker.fresh false) (by simp)]
  rfl

end RefCheck.Check
