import RefCheck.Proofs.Check.Ownership

/-!
# Where reports point

Every report of a check is about a name in a script, and points at the bytes of that name in the
text of the input. Nothing is ever reported of placeholders, which stand in no text.
-/

namespace RefCheck.Check

open RefCheck.Text RefCheck.Script

/-- The name that a diagnostic is about, as its arguments have it: the only one, or the third one
after those of two modules. A declared function without a name has the empty one. -/
def subject? (d : Diagnostic) : Option String :=
  if d.key ∈ [Rule.undefinedVariable.key, Rule.nameReferenceInExterns.key] then d.args[0]?
  else if d.key ∈ [Rule.strictModuleDependency.key, Rule.violatedModuleDependency.key,
      Rule.missingModuleDependency.key] then d.args[2]?
  else if d.key = Rule.invalidFunctionDeclaration.key then some ""
  else none

/-- A diagnostic points at a node: a name in the script of an input that has the source and the name
of the diagnostic's file. The bytes of the source at the diagnostic are those of the name that the
diagnostic is about, which follows the word `function` if that is all there is of a name. -/
structure PointsAt (p : Program) (d : Diagnostic) (n : NodeId) (source : String) : Prop where
  isName : p.store.kind? (some n) = some .name
  input : ∃ i input, p.store.inputOf (some n) = some i ∧ p.input? i = some input ∧
    input.name = d.file ∧ input.source = some source
  span : p.store.span (some n) = ⟨d.start, d.start + d.length⟩
  subject : subject? d = some (p.store.text (some n))
  inside : d.start + d.length ≤ source.utf8ByteSize
  bytes : bytesAt source ⟨d.start, d.start + d.length⟩ = (p.store.text (some n)).toUTF8
  unnamed : d.key = Rule.invalidFunctionDeclaration.key → d.length = 0 ∧ 8 ≤ d.start ∧
    bytesAt source ⟨d.start - 8, d.start⟩ = "function".toUTF8

variable {p : Program} {plots : List Plot} {o : Outline} {m : Mention} {d : Diagnostic}

/-- What a check may report of a name. -/
inductive Outline.Speaks (o : Outline) (m : Mention) : Diagnostic → Prop
  | noEffect : hasEffectBelow m.context.above = false →
      Speaks o m (o.report Rule.nameReferenceInExterns m [m.name])
  | missing : o.isMissing m → Speaks o m (o.report Rule.undefinedVariable m [m.name])
  | unnamed : m.name = "" → m.context.isDeclared →
      Speaks o m (o.report Rule.invalidFunctionDeclaration m [])
  | crossing {rule module other} : (o.module m.context.input).isSome →
      rule ∈ [Rule.strictModuleDependency, Rule.violatedModuleDependency,
        Rule.missingModuleDependency] →
      Speaks o m (o.report rule m [module, other, m.name])

namespace Outline

variable {ms : List Mention}

theorem speaks_of_mem_noEffect (h : d ∈ o.noEffect ms) : ∃ m ∈ ms, o.Speaks m d := by
  obtain ⟨m, hm, rfl⟩ := List.mem_map.mp h
  obtain ⟨hm, heffect⟩ := List.mem_filter.mp hm
  exact ⟨m, hm, .noEffect (by simpa using heffect)⟩

theorem speaks_of_mem_remarks {sanity : Bool} (h : d ∈ remarks sanity o m) : o.Speaks m d := by
  rcases mem_remarks h with ⟨hname, hdeclared, rfl⟩ | ⟨declaring, -, hd⟩
  · exact .unnamed hname hdeclared
  · obtain ⟨rule, module, other, rfl, hmodule, hrule⟩ := mem_crossing hd
    exact .crossing hmodule hrule

theorem speaks_of_mem_findings {known : List String} (h : d ∈ o.findings known ms) :
    ∃ m ∈ ms, o.Speaks m d := by
  induction ms generalizing known with
  | nil => cases h
  | cons m rest ih =>
    rw [findings] at h
    split at h
    · next hmissing =>
      split at h
      · exact List.exists_mem_cons_of_exists (ih h)
      · rcases List.mem_cons.mp h with rfl | h
        · exact ⟨m, List.mem_cons_self, .missing hmissing⟩
        · exact List.exists_mem_cons_of_exists (ih h)
    · rcases List.mem_append.mp h with h | h
      · exact ⟨m, List.mem_cons_self, speaks_of_mem_remarks h⟩
      · exact List.exists_mem_cons_of_exists (ih h)

theorem speaks_of_mem_strictFindings (h : d ∈ o.strictFindings ms) : ∃ m ∈ ms, o.Speaks m d := by
  induction ms with
  | nil => cases h
  | cons m rest ih =>
    rw [strictFindings] at h
    split at h
    · next hmissing =>
      rw [List.mem_singleton.mp h]
      exact ⟨m, List.mem_cons_self, .missing hmissing⟩
    · rcases List.mem_append.mp h with h | h
      · exact ⟨m, List.mem_cons_self, speaks_of_mem_remarks h⟩
      · exact List.exists_mem_cons_of_exists (ih h)

/-- Whatever a check finds is about a name in some script. -/
theorem speaks_of_mem_found {sanity : Bool} (h : d ∈ o.found sanity) :
    ∃ m ∈ o.all, o.Speaks m d := by
  rcases List.mem_append.mp h with h | h
  · obtain ⟨m, hm, hspeaks⟩ := speaks_of_mem_noEffect h
    refine ⟨m, ?_, hspeaks⟩
    rw [all, mentions_append]
    exact List.mem_append_left _ hm
  · cases sanity with
    | true => exact speaks_of_mem_strictFindings h
    | false => exact speaks_of_mem_findings h

end Outline

/-- Where a name stands in a source, in bytes. -/
theorem within_bytes {source text : String} {span : Span}
    (h : (NameRule.within source).Holds text span) :
    bytesAt source span = text.toUTF8 ∧ span.start ≤ span.stop ∧
      span.stop ≤ source.utf8ByteSize := by
  rcases h with ⟨-, hoccurs⟩ | ⟨rfl, hstop, start, hword⟩
  · exact hoccurs.bytes
  · obtain ⟨k, stop⟩ := span
    obtain rfl : stop = k := hstop
    exact OccursAt.bytes hword.behind

theorem within_unnamed {source : String} {span : Span}
    (h : (NameRule.within source).Holds "" span) :
    span.length = 0 ∧ 8 ≤ span.start ∧
      bytesAt source ⟨span.start - 8, span.start⟩ = "function".toUTF8 := by
  rcases h with ⟨hne, -⟩ | ⟨-, hstop, start, hword⟩
  · exact absurd rfl hne
  · obtain ⟨before, -, -, hspan⟩ := id hword
    have hstart : span.start = start + 8 := by
      obtain ⟨rfl, hstart⟩ := Span.mk.inj hspan
      exact hstart
    refine ⟨by rw [Span.length, hstop, Nat.sub_self], by omega, ?_⟩
    rw [show span.start - 8 = start by omega]
    exact hword.bytes.1

/-- A name is that of a node in the script of an input, and stands in the text of the input. -/
structure Sourced (p : Program) (m : Mention) (n : NodeId) (source : String) : Prop where
  isName : p.store.kind? (some n) = some .name
  text : p.store.text (some n) = m.name
  span : p.store.span (some n) = m.span
  inputOf : p.store.inputOf (some n) = some m.context.input
  input : ∃ input, p.input? m.context.input = some input ∧ input.source = some source
  holds : (NameRule.within source).Holds m.name m.span

/-- What holds of a tree that stands in a script holds wherever a walk comes below it. -/
theorem stands_named {s : NodeStore} {plot : Plot} {c : Planted} {rule : NameRule}
    (hshown : s.ShowsScript plot) (hc : c ∈ plot.body) (hnamed : c.tree.Named rule) :
    ∀ v ∈ c.visits plot.site, s.Stands v ∧ v.tree.tree.Named rule := by
  intro v hv
  refine forall_visits (P := fun q site => s.Stands ⟨q, site⟩ ∧ q.tree.Named rule) ?_
    ⟨hshown.stands hc, hnamed⟩ v hv
  rintro q site ⟨hstands, hq⟩
  have hchild : ∀ child ∈ q.children, child.tree.Named rule := fun child hmem =>
    hq.children child.tree (spread_tree hmem)
  constructor
  · intro child hhead
    have hmem := List.mem_of_mem_head? hhead
    refine ⟨?_, hchild child hmem⟩
    rw [Site.named]
    split
    · exact hstands.below hmem
    · exact hstands.inside hmem
  · intro child htail
    have hmem := List.mem_of_mem_tail htail
    exact ⟨hstands.inside hmem, hchild child hmem⟩

theorem sourced_of_visit (hp : p.Holds plots) {plot : Plot} (hplot : plot ∈ plots) {c : Planted}
    (hc : c ∈ plot.body) (hparsed : c.tree ∈ p.statements plot.input) {v : Visit}
    (hv : v ∈ c.visits plot.site) (hm : v.mention? = some m) :
    ∃ source, Sourced p m v.tree.root source := by
  obtain ⟨input, hinput, ht⟩ := Program.mem_statements hparsed
  obtain ⟨source, hsource, hnamed⟩ := Input.named_statements ht
  obtain ⟨hstands, hnamed⟩ := stands_named (hp.shown plot hplot) hc hnamed v hv
  have hsame : m.context.input = plot.input :=
    Tree.input_of_mem_mentions (mem_mentions_of_visit hv hm)
  obtain ⟨hkind, rfl⟩ := Visit.mention?_eq_some hm
  refine ⟨source, ?_⟩
  exact {
    isName := hstands.shown.kind_eq.trans (congrArg some hkind)
    text := hstands.shown.text_eq
    span := hstands.shown.span_eq
    inputOf := hstands.inputOf
    input := ⟨input, hsame ▸ hinput, hsource⟩
    holds := hnamed.holds hkind }

/-- What is reported of a name that stands in a source points at its node. -/
theorem pointsAt_report {n : NodeId} {source : String} (hm : Sourced p m n source) {rule : Rule}
    {args : List String}
    (hsubject : subject? ((plotted p plots).report rule m args) = some m.name)
    (hunnamed : rule.key = Rule.invalidFunctionDeclaration.key → m.name = "") :
    PointsAt p ((plotted p plots).report rule m args) n source := by
  obtain ⟨hbytes, hle, hinside⟩ := within_bytes hm.holds
  obtain ⟨input, hinput, hsource⟩ := hm.input
  have hstop : m.span.start + m.span.length = m.span.stop := Nat.add_sub_cancel' hle
  have hspan : (⟨m.span.start, m.span.start + m.span.length⟩ : Span) = m.span := by rw [hstop]
  refine {
    isName := hm.isName
    input := ⟨_, input, hm.inputOf, hinput, ?_, hsource⟩
    span := hm.span.trans hspan.symm
    subject := hsubject.trans (congrArg some hm.text.symm)
    inside := (Nat.le_of_eq hstop).trans hinside
    bytes := ?_
    unnamed := ?_ }
  · change input.name = ((p.input? m.context.input).map (·.name)).getD ""
    rw [hinput]
    rfl
  · change bytesAt source ⟨m.span.start, m.span.start + m.span.length⟩ = _
    rw [hspan, hbytes, hm.text]
  · intro hkey
    have hholds := hm.holds
    rw [hunnamed hkey] at hholds
    exact within_unnamed hholds

theorem pointsAt_of_speaks {n : NodeId} {source : String} (hm : Sourced p m n source)
    (h : (plotted p plots).Speaks m d) : PointsAt p d n source := by
  cases h with
  | noEffect => exact pointsAt_report hm rfl nofun
  | missing => exact pointsAt_report hm rfl nofun
  | unnamed hname => exact pointsAt_report hm (congrArg some hname.symm) fun _ => hname
  | crossing _ hrule =>
    simp only [List.mem_cons, List.not_mem_nil, or_false] at hrule
    rcases hrule with rfl | rfl | rfl <;> exact pointsAt_report hm rfl nofun

namespace Session.Accounts

variable {s : Session} {made : InputId → List String}

/-- Every name in a session stands in the text of an input, or is that of a placeholder. -/
theorem sourced_or_made (ha : s.Accounts plots made) (hm : m ∈ (plotted s.program plots).all) :
    (∃ n source, Sourced s.program m n source) ∨
      ∃ i, ∃ x ∈ made i, m = Repaired.placeholderMention i x := by
  have hvisits := visits_mentions ha.checkable.holds fun _ => mem_of_mem_walked
  rw [walked_inputs ha.checkable.holds] at hvisits
  rw [Outline.all, ← hvisits] at hm
  obtain ⟨v, hv, hm⟩ := List.mem_filterMap.mp hm
  obtain ⟨plot, hplot, hv⟩ := List.mem_flatMap.mp hv
  obtain ⟨c, hc, hv⟩ := List.mem_flatMap.mp hv
  have hplot := mem_of_mem_walked hplot
  have htree : c.tree ∈ bodyOf plots plot.input := by
    rw [bodyOf_input ha.checkable.holds hplot]
    exact List.mem_map_of_mem hc
  rw [ha.bodies] at htree
  rcases List.mem_append.mp htree with htree | htree
  · obtain ⟨source, hsourced⟩ := sourced_of_visit ha.checkable.holds hplot hc htree hv hm
    exact .inl ⟨_, source, hsourced⟩
  · obtain ⟨x, hx, htree⟩ := List.mem_map.mp htree
    exact .inr ⟨_, x, hx, mention_of_placeholder htree.symm hv hm⟩

/-- Nothing is reported of placeholders. -/
theorem silent (ha : s.Accounts plots made) {i : InputId} {x : String} (hx : x ∈ made i) :
    ¬ (plotted s.program plots).Speaks (Repaired.placeholderMention i x) d := by
  intro h
  cases h with
  | noEffect heffect => cases heffect
  | missing hmissing => exact ha.declared hx (Outline.isMissing_iff.mp hmissing).2.2.2
  | unnamed _ hdeclared => cases hdeclared
  | crossing hmodule =>
    obtain ⟨h, hmem, rfl⟩ := ha.owned i (List.ne_nil_of_mem hx)
    have hnone : s.program.moduleOf h.input = none := by
      rw [Program.moduleOf, ha.toHeld.blank hmem]
      rfl
    have hsome : (s.program.moduleOf h.input).isSome := hmodule
    rw [hnone] at hsome
    cases hsome

end Session.Accounts

/-- However a session went on, whatever any checker reports next points at a name in the text of
the input that it names. -/
theorem reports_located (levels : Levels) (actions : List Action) :
    let s := Session.after levels actions
    ∀ checker ∈ s.checkers, ∃ found,
      (checker.verdict s.program).program.bag.reports = s.program.bag.reports ++ found ∧
        ∀ d ∈ found, ∃ n source, PointsAt s.program d n source := by
  intro s checker hmem
  obtain ⟨plots, made, ha⟩ := Session.accounts levels actions
  refine ⟨_, (ha.checks hmem).run_found checker.sanity, fun d hd => ?_⟩
  obtain ⟨m, hm, hspeaks⟩ := Outline.speaks_of_mem_found hd
  rcases ha.sourced_or_made hm with ⟨n, source, hsourced⟩ | ⟨i, x, hx, rfl⟩
  · exact ⟨n, source, pointsAt_of_speaks hsourced hspeaks⟩
  · exact absurd hspeaks (ha.silent hx)

/-- The function has no name, and the variable is two bytes long. -/
example :
    let s := Session.after .none [.edit (.addSource "main.js" "function(){} é;" none)]
    ((Checker.fresh false).verdict s.program).program.bag.reports.map
        (fun d => (d.file, d.start, d.length, d.args)) =
      [("main.js", 8, 0, []), ("main.js", 13, 2, ["é"])] := by decide +kernel

end RefCheck.Check
