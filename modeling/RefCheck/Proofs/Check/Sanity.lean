import RefCheck.Proofs.Check.Sessions

/-!
# Sanity checks

A sanity check and a check that repairs, made of the same program, agree: the sanity check stops
where the other one reports a missing name first, and makes the same findings if there is none. It
leaves the program as it is.
-/

namespace RefCheck.Check

open RefCheck.Text RefCheck.Script

namespace Outline

/-- The first report of a missing name is that of the first missing name. -/
theorem find?_reports (o : Outline) :
    o.reports.find? (fun d => d.key = Rule.undefinedVariable.key) =
      (o.all.find? o.isMissing).map fun m => o.report Rule.undefinedVariable m [m.name] := by
  have hnone : (o.noEffect (o.mentions o.externs)).find?
      (fun d => d.key = Rule.undefinedVariable.key) = none := by
    apply List.find?_eq_none.mpr
    intro d hd
    rw [key_of_mem_noEffect hd]
    decide
  rw [reports, List.find?_append, hnone, Option.none_or, find?_findings]

/-- Without a missing name, the reports are those of a sanity check up to the rules they name. -/
theorem map_strictly_reports (o : Outline) (h : o.all.find? o.isMissing = none) :
    o.reports.map strictly =
      o.noEffect (o.mentions o.externs) ++ o.all.flatMap (remarks true o) := by
  have hsame : (o.noEffect (o.mentions o.externs)).map strictly =
      o.noEffect (o.mentions o.externs) :=
    calc (o.noEffect (o.mentions o.externs)).map strictly
      _ = (o.noEffect (o.mentions o.externs)).map id :=
        List.map_congr_left fun d hd => strictly_of_mem_noEffect hd
      _ = o.noEffect (o.mentions o.externs) := List.map_id _
  have hfindings : (o.findings [] o.all).map strictly = o.all.flatMap (remarks true o) := by
    rw [findings_of_declared (List.find?_eq_none.mp h), List.map_flatMap]
    exact List.flatMap_congr fun m _ => strictly_remarks
  rw [reports, List.map_append, hsame, hfindings]

end Outline

/-- In every session, a sanity check and a check that repairs agree if both checkers are new. -/
theorem sanity_agrees (levels : Levels) (actions : List Action) :
    let p := (Session.after levels actions).program
    let strict := (Checker.fresh true).verdict p
    let normal := (Checker.fresh false).verdict p
    strict.repairs = none ∧ (∃ ds, strict.program = noting p ds) ∧
      ∃ found, normal.program.bag.reports = p.bag.reports ++ found ∧
        match found.find? fun d => d.key = Rule.undefinedVariable.key with
        | some d => ∃ name file span,
            strict.error = some (.unexpectedVariable name file span) ∧
              d = Rule.undefinedVariable.diagnostic file span [name]
        | none => strict.error = none ∧
            strict.program.bag.reports = p.bag.reports ++ found.map strictly := by
  obtain ⟨plots, hplots⟩ := Session.held levels actions
  obtain ⟨hprogram, hrepairs, herror, hreports⟩ := hplots.checkable.run_true
  let o := plotted (Session.after levels actions).program plots
  have hnormal := hplots.checkable.run_false
  refine ⟨hrepairs, hprogram, o.reports, ?_, ?_⟩
  · change (run false none _).program.bag.reports = _
    rw [hnormal]
    rfl
  · rw [o.find?_reports]
    cases hfirst : o.all.find? o.isMissing with
    | some m =>
      refine ⟨m.name, o.file m.context.input, m.span, ?_, rfl⟩
      exact herror.trans (by rw [hfirst]; rfl)
    | none =>
      have hnone : (run true none (Session.after levels actions).program).error = none :=
        herror.trans (by rw [hfirst]; rfl)
      refine ⟨hnone, ?_⟩
      rw [o.map_strictly_reports hfirst]
      exact congrArg (fun q : Program => q.bag.reports) (hreports hnone)

end RefCheck.Check
