import RefCheck.Proofs.Check.Judgment
import RefCheck.Proofs.Check.Outcome
import RefCheck.Proofs.Program.Edits

/-!
# What a check reports

A check of a program that is no sanity check reports what its outline says, and mends the names that
are missing. A sanity check changes nothing but the reports.
-/

namespace RefCheck.Check

open RefCheck.Text RefCheck.Script

variable {p : Program} {plots : List Plot} {repairs : Repairs}

/-- What a check relies on: the program holds scripts as the parser builds them, and the script of
the placeholders, if there is one, is among them. -/
structure Checkable (p : Program) (plots : List Plot) (repairs : Repairs) : Prop
    extends Ready p plots repairs where
  fits : ∀ i, ∀ t ∈ bodyOf plots i, Fits maxNesting .statement t

theorem Checkable.regular (h : Checkable p plots repairs) (inputs : List InputId) :
    ∀ m ∈ (plotted p plots).mentions inputs, m.Regular := by
  intro m hm
  obtain ⟨i, -, hm⟩ := List.mem_flatMap.mp hm
  obtain ⟨t, ht, hm⟩ := List.mem_flatMap.mp hm
  obtain ⟨htext, hregular⟩ := regular_of_fits (h.fits i t ht)
  apply hregular _ _ m hm
  intro hkind
  exact Mention.regular_of_name (htext nofun hkind) nofun

/-- A check that is no sanity check goes through, reports what the outline says and mends what is
missing. -/
theorem Checkable.run_false (h : Checkable p plots repairs) :
    run false repairs p =
      let o := plotted p plots
      let mended := mend (p, repairs) (o.lacking [] o.all)
      ⟨{ mended.1 with bag := (noting p o.reports).bag }, mended.2, none⟩ := by
  have hjudged : (plotted p plots).judged false =
      .on ⟨(plotted p plots).findings [] (plotted p plots).all,
        (plotted p plots).lacking [] (plotted p plots).all⟩ :=
    each_judge_false (h.regular _) ⟨[], []⟩
  rw [run_eq h.toReady]
  dsimp only
  rw [hjudged]
  rfl

/-- A sanity check reports what the outline says up to the first missing name, and stops there. -/
theorem Checkable.run_true_eq (h : Checkable p plots repairs) :
    run true repairs p =
      let o := plotted p plots
      ⟨noting p (o.noEffect (o.mentions o.externs) ++ o.strictFindings o.all), repairs,
        (o.all.find? o.isMissing).map fun m =>
          VariableError.unexpectedVariable m.name (o.file m.context.input) m.span⟩ := by
  have hall : ∀ m ∈ (plotted p plots).all, m.Regular := h.regular _
  obtain ⟨hstate, herror⟩ := each_judge_true (o := plotted p plots) hall []
  rw [run_eq h.toReady]
  dsimp only
  rw [Outline.judged, hstate, herror]
  rfl

/-- A sanity check only reports something, and stops at the first missing name. -/
theorem Checkable.run_true (h : Checkable p plots repairs) :
    let o := plotted p plots
    let verdict := run true repairs p
    (∃ ds, verdict.program = noting p ds) ∧ verdict.repairs = repairs ∧
      verdict.error = (o.all.find? o.isMissing).map (fun m =>
        VariableError.unexpectedVariable m.name (o.file m.context.input) m.span) ∧
      (verdict.error = none →
        let ds := o.noEffect (o.mentions o.externs) ++ o.all.flatMap (Outline.remarks true o)
        verdict.program = noting p ds) := by
  dsimp only
  rw [h.run_true_eq]
  refine ⟨⟨_, rfl⟩, rfl, rfl, ?_⟩
  intro hnone
  dsimp only at hnone ⊢
  rw [Outline.strictFindings_of_declared (Option.map_eq_none_iff.mp hnone)]

/-- After any edits a check goes through and reports what can be read off the parsed sources, the
modules and their dependencies. -/
theorem run_edited (levels : Levels) (edits : List Edit) :
    let p := (Program.empty levels).edited edits
    let verdict := run false none p
    verdict.error = none ∧ verdict.program.bag.reports = (outline p p.statements).reports := by
  obtain ⟨plots, hholds, hbodies, hreports⟩ := Program.holds_edited levels edits
  have hcheckable : Checkable ((Program.empty levels).edited edits) plots none := by
    refine ⟨⟨hholds, nofun⟩, ?_⟩
    intro i t ht
    rw [hbodies] at ht
    exact Program.fits_statements ht
  dsimp only
  rw [hcheckable.run_false]
  refine ⟨rfl, ?_⟩
  change (_ ++ (plotted _ plots).reports : List Diagnostic) = _
  rw [hreports, List.nil_append, plotted, hbodies]

end RefCheck.Check
