import RefCheck.Proofs.Check.Reference
import RefCheck.Proofs.Walk.Regular

/-!
# What judging comes to

Judging names one after the other depends on what was found before only in so far as a missing name
is reported once. In a sanity check it stops at the first missing name, and there is nothing else
at which judging stops.
-/

namespace RefCheck.Check

open RefCheck.Text RefCheck.Script

variable {o : Outline} {m : Mention} {ms : List Mention} {d : Diagnostic}

/-- A finding as a sanity check makes it, which has one rule only for references between modules. -/
def strictly (d : Diagnostic) : Diagnostic :=
  if d.key = Rule.violatedModuleDependency.key ∨ d.key = Rule.missingModuleDependency.key then
    { d with
      key := Rule.strictModuleDependency.key
      category := Rule.strictModuleDependency.category
      message := Diagnostic.Template.fill Rule.strictModuleDependency.template d.args }
  else d

namespace Outline

/-- The names that are missing for the first time. -/
def lacking (o : Outline) (known : List String) : List Mention → List String
  | [] => []
  | m :: rest =>
    if o.isMissing m ∧ m.name ∉ known then m.name :: o.lacking (known ++ [m.name]) rest
    else o.lacking known rest

theorem isMissing_iff : o.isMissing m ↔ m.context.isLabel = false ∧ m.name ≠ "" ∧
    m.name ∉ m.context.bound ∧ o.declarer? m.name = none := by
  simp [isMissing, and_assoc]

theorem mem_lacking {known : List String} {x : String} :
    x ∈ o.lacking known ms ↔ x ∉ known ∧ ∃ m ∈ ms, o.isMissing m ∧ m.name = x := by
  induction ms generalizing known with
  | nil => simp [lacking]
  | cons m rest ih =>
    rw [lacking]
    by_cases h : o.isMissing m ∧ m.name ∉ known
    · rw [if_pos h, List.mem_cons, ih]
      constructor
      · rintro (rfl | ⟨hx, hm⟩)
        · exact ⟨h.2, m, List.mem_cons_self, h.1, rfl⟩
        · refine ⟨?_, List.exists_mem_cons_of_exists hm⟩
          intro hknown
          exact hx (List.mem_append_left _ hknown)
      · rintro ⟨hx, hm⟩
        by_cases hname : x = m.name
        · exact .inl hname
        · right
          refine ⟨by simp [hx, hname], ?_⟩
          rcases (List.exists_mem_cons_iff _ _ _).mp hm with hm | hm
          · exact absurd hm.2.symm hname
          · exact hm
    · rw [if_neg h, ih]
      constructor
      · rintro ⟨hx, hm⟩
        exact ⟨hx, List.exists_mem_cons_of_exists hm⟩
      · rintro ⟨hx, hm⟩
        refine ⟨hx, ?_⟩
        rcases (List.exists_mem_cons_iff _ _ _).mp hm with ⟨hmissing, rfl⟩ | hm
        · exact absurd ⟨hmissing, hx⟩ h
        · exact hm

theorem remarks_of_missing (h : o.isMissing m) (sanity : Bool) : remarks sanity o m = [] := by
  obtain ⟨hlabel, hname, hbound, hnone⟩ := isMissing_iff.mp h
  simp [remarks, hlabel, hname, hbound, hnone]

theorem mem_crossing {sanity : Bool} {declaring : InputId} (h : d ∈ crossing sanity o m declaring) :
    ∃ rule module other, d = o.report rule m [module, other, m.name] ∧
      (o.module m.context.input).isSome ∧
      rule ∈ [Rule.strictModuleDependency, Rule.violatedModuleDependency,
        Rule.missingModuleDependency] := by
  rw [crossing] at h
  split at h
  · next module other hmodule _ =>
    obtain ⟨rule, hrule, rfl⟩ := Option.map_eq_some_iff.mp (Option.mem_toList.mp h)
    refine ⟨rule, _, _, rfl, by rw [hmodule]; rfl, ?_⟩
    rw [broken?] at hrule
    split at hrule
    · cases hrule
    · split at hrule
      · cases hrule
        simp
      · split at hrule <;> cases hrule <;> simp
  · cases h

/-- A remark is about a declared function without a name, or about a reference across modules. -/
theorem mem_remarks {sanity : Bool} (h : d ∈ remarks sanity o m) :
    m.name = "" ∧ m.context.isDeclared ∧ d = o.report Rule.invalidFunctionDeclaration m [] ∨
      ∃ declaring, o.declarer? m.name = some declaring ∧ d ∈ crossing sanity o m declaring := by
  rw [remarks] at h
  split at h
  · cases h
  · split at h
    · next hname =>
      split at h
      · next hdeclared => exact .inl ⟨hname, hdeclared, List.mem_singleton.mp h⟩
      · cases h
    · split at h
      · cases h
      · split at h
        · next declaring hdeclarer => exact .inr ⟨declaring, hdeclarer, h⟩
        · cases h

/-- A name that is not missing is not reported to be. -/
theorem key_of_mem_remarks {sanity : Bool} (h : d ∈ remarks sanity o m) :
    d.key ≠ Rule.undefinedVariable.key := by
  rcases mem_remarks h with ⟨-, -, rfl⟩ | ⟨declaring, -, hd⟩
  · change Rule.invalidFunctionDeclaration.key ≠ _
    decide
  · obtain ⟨rule, module, other, rfl, -, hrule⟩ := mem_crossing hd
    have hkeys : ∀ rule ∈ [Rule.strictModuleDependency, Rule.violatedModuleDependency,
        Rule.missingModuleDependency], rule.key ≠ Rule.undefinedVariable.key := by decide
    exact hkeys rule hrule

theorem key_of_mem_noEffect (h : d ∈ o.noEffect ms) : d.key = Rule.nameReferenceInExterns.key := by
  obtain ⟨m, -, rfl⟩ := List.mem_map.mp h
  rfl

/-- Without those of missing names, the findings do not depend on what is known. -/
theorem filter_findings (known : List String) :
    (o.findings known ms).filter (fun d => d.key ≠ Rule.undefinedVariable.key) =
      ms.flatMap (remarks false o) := by
  induction ms generalizing known with
  | nil => rfl
  | cons m rest ih =>
    rw [findings, List.flatMap_cons]
    by_cases hmissing : o.isMissing m
    · rw [if_pos hmissing, remarks_of_missing hmissing]
      split
      · exact ih known
      · rw [List.filter_cons_of_neg (by simp [report, Rule.diagnostic])]
        exact ih _
    · have hkeys : (remarks false o m).filter (fun d => d.key ≠ Rule.undefinedVariable.key) =
          remarks false o m :=
        List.filter_eq_self.mpr fun d hd => decide_eq_true (key_of_mem_remarks hd)
      rw [if_neg hmissing, List.filter_append, hkeys, ih]

theorem findings_of_declared {known : List String} (h : ∀ m ∈ ms, ¬ o.isMissing m) :
    o.findings known ms = ms.flatMap (remarks false o) := by
  induction ms with
  | nil => rfl
  | cons m rest ih =>
    obtain ⟨hm, hrest⟩ := List.forall_mem_cons.mp h
    rw [findings, if_neg hm, ih hrest, List.flatMap_cons]

/-- The first missing name is the first one that is reported to be missing. -/
theorem find?_findings :
    (o.findings [] ms).find? (fun d => d.key = Rule.undefinedVariable.key) =
      (ms.find? o.isMissing).map fun m => o.report Rule.undefinedVariable m [m.name] := by
  induction ms with
  | nil => rfl
  | cons m rest ih =>
    rw [findings]
    by_cases hmissing : o.isMissing m
    · rw [if_pos hmissing, if_neg List.not_mem_nil, List.find?_cons_of_pos hmissing,
        List.find?_cons_of_pos (by simp [report, Rule.diagnostic])]
      rfl
    · have hkeys : (remarks false o m).find? (fun d => d.key = Rule.undefinedVariable.key) = none :=
        List.find?_eq_none.mpr fun d hd => by simpa using key_of_mem_remarks hd
      rw [if_neg hmissing, List.find?_append, hkeys, Option.none_or, ih,
        List.find?_cons_of_neg hmissing]

/-- What a sanity check reports of names one after the other, up to the first missing one. -/
def strictFindings (o : Outline) : List Mention → List Diagnostic
  | [] => []
  | m :: rest =>
    if o.isMissing m then [o.report Rule.undefinedVariable m [m.name]]
    else remarks true o m ++ o.strictFindings rest

theorem strictFindings_of_declared (h : ms.find? o.isMissing = none) :
    o.strictFindings ms = ms.flatMap (remarks true o) := by
  induction ms with
  | nil => rfl
  | cons m rest ih =>
    have hm : ¬ o.isMissing m := List.find?_eq_none.mp h m List.mem_cons_self
    rw [List.find?_cons_of_neg hm] at h
    rw [strictFindings, if_neg hm, ih h, List.flatMap_cons]

theorem strictly_of_mem_noEffect (h : d ∈ o.noEffect ms) : strictly d = d := by
  rw [strictly, key_of_mem_noEffect h]
  exact if_neg (by decide)

theorem strictly_crossing (declaring : InputId) :
    (crossing false o m declaring).map strictly = crossing true o m declaring := by
  simp only [crossing]
  split
  · next module other _ _ =>
    have hviolated : ∀ args, strictly (o.report Rule.violatedModuleDependency m args) =
        o.report Rule.strictModuleDependency m args := fun args => if_pos (.inl rfl)
    have hmissing : ∀ args, strictly (o.report Rule.missingModuleDependency m args) =
        o.report Rule.strictModuleDependency m args := fun args => if_pos (.inr rfl)
    simp only [broken?]
    by_cases hsafe : module = other ∨ o.modules.Reaches module other
    · simp only [if_pos hsafe]
      rfl
    · simp only [if_neg hsafe]
      by_cases hlater : o.modules.Reaches other module
      · simp [hlater, hviolated]
      · simp [hlater, hmissing]
  · rfl

theorem strictly_remarks : (remarks false o m).map strictly = remarks true o m := by
  simp only [remarks]
  split
  · rfl
  · split
    · split
      · have hkey : ¬ (Rule.invalidFunctionDeclaration.key = Rule.violatedModuleDependency.key ∨
            Rule.invalidFunctionDeclaration.key = Rule.missingModuleDependency.key) := by decide
        exact congrArg (fun d => [d]) (if_neg hkey)
      · rfl
    · split
      · rfl
      · split
        · exact strictly_crossing _
        · rfl

end Outline

/-- What a check does at a regular name. -/
theorem judge_of_regular (h : m.Regular) (sanity : Bool) (f : Found) :
    judge sanity o m f =
      if o.isMissing m then
        if m.name ∈ f.mended then .on f
        else if sanity then
          .stopped (.unexpectedVariable m.name (o.file m.context.input) m.span)
            (f.add (o.report Rule.undefinedVariable m [m.name]))
        else .on ⟨f.reports ++ [o.report Rule.undefinedVariable m [m.name]], f.mended ++ [m.name]⟩
      else .on ⟨f.reports ++ Outline.remarks sanity o m, f.mended⟩ := by
  have hnothing : (⟨f.reports ++ [], f.mended⟩ : Found) = f := by rw [List.append_nil]
  rw [judge]
  by_cases hmissing : o.isMissing m
  · obtain ⟨hlabel, hname, hbound, hnone⟩ := Outline.isMissing_iff.mp hmissing
    have hplace : ¬ (m.context.above = .function && !m.context.isDeclared) = true := by
      intro hplace
      rw [Bool.and_eq_true, decide_eq_true_iff, Bool.not_eq_true'] at hplace
      rcases h.expression hplace.1 hplace.2 with hempty | hmem
      · exact hname hempty
      · exact hbound hmem
    rw [if_pos hmissing]
    simp only [hlabel, Bool.false_eq_true, if_false, if_neg hname, if_neg hbound, hnone,
      if_neg hplace, Found.add]
  · rw [if_neg hmissing, Outline.remarks]
    by_cases hlabel : m.context.isLabel
    · rw [if_pos hlabel, if_pos hlabel, hnothing]
    · rw [if_neg hlabel, if_neg hlabel]
      by_cases hname : m.name = ""
      · rw [if_pos hname, if_pos hname, if_neg (not_not_intro (h.unnamed hname))]
        split
        · rfl
        · rw [hnothing]
      · rw [if_neg hname, if_neg hname]
        by_cases hbound : m.name ∈ m.context.bound
        · rw [if_pos hbound, if_pos hbound, hnothing]
        · rw [if_neg hbound, if_neg hbound]
          cases hdeclarer : o.declarer? m.name with
          | some declaring => rfl
          | none =>
            have hlabel : m.context.isLabel = false := Bool.eq_false_of_not_eq_true hlabel
            exact absurd (Outline.isMissing_iff.mpr ⟨hlabel, hname, hbound, hdeclarer⟩) hmissing

/-- A check that is no sanity check goes through all names. -/
theorem each_judge_false (hms : ∀ m ∈ ms, m.Regular) (f : Found) :
    Progress.each (judge false o) ms f =
      .on ⟨f.reports ++ o.findings f.mended ms, f.mended ++ o.lacking f.mended ms⟩ := by
  induction ms generalizing f with
  | nil => simp [Progress.each, Outline.findings, Outline.lacking]
  | cons m rest ih =>
    obtain ⟨hm, hrest⟩ := List.forall_mem_cons.mp hms
    rw [Progress.each, judge_of_regular hm, Outline.findings, Outline.lacking]
    by_cases hmissing : o.isMissing m
    · by_cases hknown : m.name ∈ f.mended
      · simp [hmissing, hknown, ih hrest]
      · simp [hmissing, hknown, ih hrest]
    · simp [hmissing, ih hrest]

/-- A sanity check goes on up to the first missing name, and mends nothing. -/
theorem each_judge_true (hms : ∀ m ∈ ms, m.Regular) (ds : List Diagnostic) :
    let judged := Progress.each (judge true o) ms ⟨ds, []⟩
    judged.state = ⟨ds ++ o.strictFindings ms, []⟩ ∧
      judged.error? = (ms.find? o.isMissing).map (fun m =>
        VariableError.unexpectedVariable m.name (o.file m.context.input) m.span) := by
  -- Nothing is mended up to the first missing name, so the list of names stays empty.
  induction ms generalizing ds with
  | nil => simp [Progress.each, Progress.state, Progress.error?, Outline.strictFindings]
  | cons m rest ih =>
    obtain ⟨hm, hrest⟩ := List.forall_mem_cons.mp hms
    rw [Progress.each, judge_of_regular hm, Outline.strictFindings]
    by_cases hmissing : o.isMissing m
    · rw [if_pos hmissing, if_pos hmissing, if_neg List.not_mem_nil, if_pos rfl,
        List.find?_cons_of_pos hmissing]
      exact ⟨rfl, rfl⟩
    · rw [if_neg hmissing, if_neg hmissing, List.find?_cons_of_neg hmissing, Progress.on_andThen,
        ← List.append_assoc]
      exact ih hrest _

end RefCheck.Check
