import RefCheck.Proofs.Check.Plots

/-!
# The walk of a check, and what it depends on

While a check walks, the program is the one at the start with some names mended and some reports
added, and the global scope binds what the scripts declare, and the mended names. So what happens at
a name depends only on the outline, the names mended so far and the mode.
-/

namespace RefCheck.Check

open RefCheck.Text RefCheck.Script

/-- A state of the walk that has come to some findings. -/
structure Tracks (p : Program) (plots : List Plot) (repairs : Repairs) (f : Found)
    (s : WalkState Repairs) : Prop where
  program : s.program = { (mend (p, repairs) f.mended).1 with
    bag := { p.bag with reports := p.bag.reports ++ f.reports } }
  own : s.own = (mend (p, repairs) f.mended).2
  nonempty : ∀ x ∈ f.mended, x ≠ ""
  missing : ∀ x ∈ f.mended, (plotted p plots).declarer? x = none
  sound : s.scopes.Sound
  isGlobal : s.scopes.parent? 0 = some none
  global : ∀ x, x ≠ "" → (s.scopes.own? (some 0) x).map (fun var => (var.input, var.isGlobal)) =
    match (plotted p plots).declarer? x with
    | some declaring => some (some declaring, true)
    | none => if x ∈ f.mended then s.own.map fun h => (some h.input, true) else none

/-- What is done at a visit, as far as it depends on the outline. -/
def judgeVisit (sanity : Bool) (o : Outline) (v : Visit) (f : Found) :
    Progress VariableError Found :=
  match v.mention? with
  | none => .on f
  | some m => judge sanity o m f

section Tracks

variable {p : Program} {plots : List Plot} {repairs : Repairs} {f : Found} {s : WalkState Repairs}
  {v : Visit} {ids : List Nat} {sanity : Bool}

/-- What a check relies on at the start. -/
structure Ready (p : Program) (plots : List Plot) (repairs : Repairs) : Prop where
  holds : p.Holds plots
  hosted : Hosted p plots repairs

theorem Tracks.mended (ht : Tracks p plots repairs f s) (h : Ready p plots repairs) :
    ∃ after, Mended p plots f.mended (mend (p, repairs) f.mended) after :=
  Check.mended h.holds h.hosted f.mended ht.nonempty

/-- Names that were mended are bound to their host. -/
theorem Tracks.own_of_mem (ht : Tracks p plots repairs f s) (h : Ready p plots repairs) {x : String}
    (hx : x ∈ f.mended) :
    ∃ host var, s.own = some host ∧ s.scopes.own? (some 0) x = some var ∧
      var.input = some host.input := by
  obtain ⟨after, hafter⟩ := ht.mended h
  obtain ⟨host, hhost⟩ := Option.isSome_iff_exists.mp (hafter.made (List.ne_nil_of_mem hx))
  have hown : s.own = some host := ht.own.trans hhost
  have hglobal := ht.global x (ht.nonempty x hx)
  rw [ht.missing x hx, hown] at hglobal
  dsimp only at hglobal
  rw [if_pos hx] at hglobal
  obtain ⟨var, hvar, hspec⟩ := Option.map_eq_some_iff.mp hglobal
  exact ⟨host, var, hown, hvar, (Prod.mk.inj hspec).1⟩

/-- What nothing declares and was not mended is bound to nothing. -/
theorem Tracks.own_eq_none (ht : Tracks p plots repairs f s) {x : String} (hname : x ≠ "")
    (hnone : (plotted p plots).declarer? x = none) (hnew : x ∉ f.mended) :
    s.scopes.own? (some 0) x = none := by
  have hglobal := ht.global x hname
  rw [hnone, if_neg hnew] at hglobal
  exact Option.map_eq_none_iff.mp hglobal

theorem Tracks.input? (ht : Tracks p plots repairs f s) (h : Ready p plots repairs) {i : Nat}
    (hi : i < p.inputs.length) : s.program.input? i = p.input? i := by
  obtain ⟨after, hafter⟩ := ht.mended h
  rw [ht.program]
  exact hafter.input? hi

theorem Tracks.modules (ht : Tracks p plots repairs f s) (h : Ready p plots repairs) :
    s.program.modules = p.modules := by
  obtain ⟨after, hafter⟩ := ht.mended h
  rw [ht.program]
  exact hafter.kept.modules

/-- The placeholders belong to no module. -/
theorem Tracks.moduleOf_host (ht : Tracks p plots repairs f s) (h : Ready p plots repairs)
    {host : Placeholders} (hown : s.own = some host) : s.program.moduleOf host.input = none := by
  obtain ⟨after, hafter⟩ := ht.mended h
  obtain ⟨plot, -, hhost⟩ := hafter.hosted host (ht.own ▸ hown)
  rw [ht.program, Program.moduleOf, Program.input?]
  change ((mend (p, repairs) f.mended).1.inputs[host.input]?).bind _ = none
  rw [hhost.blank]
  rfl

theorem Tracks.refl (ht : Tracks p plots repairs f s) :
    After (Tracks p plots repairs) s f s := ⟨ht, NodeStore.grew_refl _, ht.sound.keeps⟩

theorem Tracks.sourceName (ht : Tracks p plots repairs f s) (h : Ready p plots repairs)
    (hv : v.site.input < p.inputs.length) :
    s.sourceName (v.place ids) = (plotted p plots).file v.context.input := by
  change s.program.inputName v.site.input = p.inputName v.site.input
  rw [Program.inputName, ht.input? h hv]
  rfl

/-- Reporting something adds to the findings, and changes nothing else. -/
theorem Tracks.report (ids : List Nat) (ht : Tracks p plots repairs f s) (h : Ready p plots repairs)
    (hv : v.site.input < p.inputs.length) (hstands : s.program.store.Stands v) {m : Mention}
    (hm : v.mention? = some m) (rule : Rule) (args : List String) :
    After (Tracks p plots repairs) s (f.add ((plotted p plots).report rule m args))
      (s.report (v.place ids) rule args) := by
  have hreport : s.report (v.place ids) rule args =
      { s with program := s.program.report ((plotted p plots).report rule m args) } := by
    obtain ⟨-, rfl⟩ := Visit.mention?_eq_some hm
    rw [WalkState.report, ht.sourceName h hv, Outline.report]
    simp only [Visit.place, hstands.shown.span_eq]
  rw [hreport]
  refine ⟨⟨?_, ht.own, ht.nonempty, ht.missing, ht.sound, ht.isGlobal, ht.global⟩,
    NodeStore.grew_refl _, ht.sound.keeps⟩
  rw [ht.program]
  simp [Program.report, Bag.report, Found.add]

/-- Mending does not look at the reports. -/
theorem mendOne_bag (q : Program) (bag : Bag) (repairs : Repairs) (name : String) :
    mendOne ({ q with bag }, repairs) name =
      ({ (mendOne (q, repairs) name).1 with bag }, (mendOne (q, repairs) name).2) := by
  cases repairs <;> rfl

theorem globalScope_place : (v.place ids).globalScope = some 0 := by
  simp [Visit.place, Place.globalScope]

/-- The state after a name was mended. -/
theorem repair_eq (v : Visit) (ids : List Nat) (name : String) (s : WalkState Repairs) :
    ∃ node host, (mendOne (s.program, s.own) name).2 = some host ∧
      repair (v.place ids) name s =
        ⟨(mendOne (s.program, s.own) name).1,
          (s.scopes.declare (some 0) name (some node) (some host.input)).1, some host⟩ := by
  let q := placeholders s.own s.program
  refine ⟨(q.2.declare q.1 name).2, q.2, rfl, ?_⟩
  change WalkState.declareGlobal ⟨(q.2.declare q.1 name).1, s.scopes, some q.2⟩ (v.place ids) name
    (q.2.declare q.1 name).2 q.2.input = _
  rw [WalkState.declareGlobal, globalScope_place]
  rfl

theorem mendOne_some {q : Program × Repairs} {host : Placeholders} (h : q.2 = some host)
    (name : String) : (mendOne q name).2 = some host := by
  rw [mendOne, h]
  rfl

/-- Mending one more name only adds to the store. -/
theorem Tracks.grew_mendOne (ht : Tracks p plots repairs f s) (h : Ready p plots repairs)
    {name : String} (hname : name ≠ "") :
    s.program.store.Grew (mendOne (s.program, s.own) name).1.store := by
  obtain ⟨after, hafter⟩ := ht.mended h
  obtain ⟨more, hmore⟩ :=
    Check.mended hafter.holds hafter.hosted [name] (List.forall_mem_singleton.mpr hname)
  rw [ht.program, ht.own, mendOne_bag]
  exact hmore.kept.store

/-- What the global scope binds after one more name was mended. -/
theorem Tracks.global_declare {name : String} {node : NodeId} {host : Placeholders}
    (ht : Tracks p plots repairs f s) (h : Ready p plots repairs)
    (hname : name ≠ "") (hnone : (plotted p plots).declarer? name = none) (hnew : name ∉ f.mended)
    (hhost : (mendOne (s.program, s.own) name).2 = some host) {x : String} (hx : x ≠ "") :
    ((s.scopes.declare (some 0) name (some node) (some host.input)).1.own? (some 0) x).map
        (fun var => (var.input, var.isGlobal)) =
      match (plotted p plots).declarer? x with
      | some declaring => some (some declaring, true)
      | none => if x ∈ f.mended ++ [name] then some (some host.input, true) else none := by
  rw [ht.sound.own?_declare (ScopeTable.lt_of_parent? ht.isGlobal)]
  by_cases hxname : x = name
  · subst hxname
    simp [ScopeTable.declared, ht.own_eq_none hname hnone hnew, hnone,
      ScopeTable.isGlobal_iff.mpr ht.isGlobal]
  · rw [if_neg (fun heq => hxname heq.2), ht.global x hx]
    cases (plotted p plots).declarer? x with
    | some declaring => rfl
    | none =>
      by_cases hmem : x ∈ f.mended
      · obtain ⟨old, -, hold, -⟩ := ht.own_of_mem h hmem
        have hsame := mendOne_some (q := (s.program, s.own)) hold name
        rw [hhost] at hsame
        cases hsame
        simp [hmem, hold]
      · simp [hmem, hxname]

theorem Tracks.repair {name : String} (ht : Tracks p plots repairs f s) (h : Ready p plots repairs)
    (hname : name ≠ "") (hnone : (plotted p plots).declarer? name = none)
    (hnew : name ∉ f.mended) :
    After (Tracks p plots repairs) s { f with mended := f.mended ++ [name] }
      (repair (v.place ids) name s) := by
  obtain ⟨node, host, hhost, hrepair⟩ := repair_eq v ids name s
  have hpos : 0 < s.scopes.size := ScopeTable.lt_of_parent? ht.isGlobal
  have hmend : mend (p, repairs) (f.mended ++ [name]) =
      mendOne (mend (p, repairs) f.mended) name := mend_append _ _ _
  have hstate : mendOne (s.program, s.own) name =
      ({ (mend (p, repairs) (f.mended ++ [name])).1 with
        bag := { p.bag with reports := p.bag.reports ++ f.reports } },
        (mend (p, repairs) (f.mended ++ [name])).2) := by
    rw [ht.program, ht.own, mendOne_bag, hmend]
  rw [hrepair]
  refine ⟨⟨?_, ?_, ?_, ?_, ?_, ?_, fun x => ht.global_declare h hname hnone hnew hhost⟩,
    ht.grew_mendOne h hname, ht.sound.keeps_declare hpos⟩
  · rw [hstate]
  · rw [← hhost, hstate]
  · exact List.forall_mem_append.mpr ⟨ht.nonempty, by simpa using hname⟩
  · exact List.forall_mem_append.mpr ⟨ht.missing, by simpa using hnone⟩
  · exact ht.sound.declare
  · exact ScopeTable.parent?_declare.trans ht.isGlobal

theorem bound_eq (v : Visit) :
    v.context.bound = v.site.frames.flatMap fun f => f.names.map fun q => q.tree.text := by
  rw [Site.frames, List.flatMap_map]
  rfl

theorem lookup?_place {t : ScopeTable} {x : String} {program : Program} {own : Repairs}
    (h : t.Models ids v.site.frames) :
    WalkState.lookup? ⟨program, t, own⟩ (v.place ids) x =
      (Frame.meaning ids v.site.frames x).or (t.own? (some 0) x) := by
  have hscope : (v.place ids).scope = some (Frame.nearest ids) := by cases ids <;> rfl
  rw [WalkState.lookup?, hscope, h.lookup?]

/-- A name that a function around it declares refers to no other input. -/
theorem reference_of_local {x : String} {var : Var} (h : var.input = some v.site.input) :
    reference sanity (v.place ids) x var s = s := by
  simp [reference, Visit.place, h]

/-- A reference to what belongs to no module breaks no rule. -/
theorem reference_of_host {x : String} {var : Var} {input : InputId}
    (hinput : var.input = some input) (hmodule : s.program.moduleOf input = none) :
    reference sanity (v.place ids) x var s = s := by
  simp only [reference, Visit.place, hinput, hmodule]
  split
  · rfl
  · cases s.program.moduleOf v.site.input <;> rfl

theorem broken?_eq (g : ModuleGraph) (module other : ModuleId) :
    brokenRule sanity g module other true = Outline.broken? sanity g module other := by
  have hreach : ∀ a b, (g.dependsOn a b = true) = g.Reaches a b := fun a b =>
    propext ModuleGraph.dependsOn_iff_reaches
  have happly : ∀ a b : Rule, some (if g.Reaches other module then a else b) =
      if g.Reaches other module then some a else some b := fun a b => apply_ite some _ a b
  cases sanity <;> simp [brokenRule, Outline.broken?, hreach, happly]

theorem declarer?_lt {x : String} {declaring : InputId}
    (h : (plotted p plots).declarer? x = some declaring) : declaring < p.inputs.length :=
  lt_of_mem_outline (List.mem_of_find?_eq_some h)

/-- A name that some script declares globally. -/
theorem Tracks.reference {var : Var} {declaring : InputId} {m : Mention}
    (ht : Tracks p plots repairs f s) (h : Ready p plots repairs)
    (hv : v.site.input < p.inputs.length) (hstands : s.program.store.Stands v)
    (hm : v.mention? = some m) (hvar : var.input = some declaring) (hglobal : var.isGlobal = true)
    (hdeclaring : declaring < p.inputs.length) :
    After (Tracks p plots repairs) s
      { f with reports := f.reports ++ (plotted p plots).crossing sanity m declaring }
      (Check.reference sanity (v.place ids) m.name var s) := by
  have hcontext : m.context.input = v.site.input := by
    obtain ⟨-, rfl⟩ := Visit.mention?_eq_some hm
    rfl
  have hmodule : ∀ i, i < p.inputs.length → s.program.moduleOf i = p.moduleOf i := by
    intro i hi
    rw [Program.moduleOf, ht.input? h hi]
    rfl
  have hskip : (plotted p plots).crossing sanity m declaring = [] →
      After (Tracks p plots repairs) s
        { f with reports := f.reports ++ (plotted p plots).crossing sanity m declaring } s := by
    intro hnone
    rw [hnone, List.append_nil]
    exact ht.refl
  have hmine : (plotted p plots).module m.context.input = p.moduleOf v.site.input := by
    rw [hcontext]
    rfl
  have hother : (plotted p plots).module declaring = p.moduleOf declaring := rfl
  rw [Check.reference, hvar, hglobal]
  change After _ _ _ (if v.site.input = declaring then s else _)
  rw [hmodule _ hv, hmodule _ hdeclaring, ht.modules h]
  by_cases hsame : v.site.input = declaring
  · rw [if_pos hsame]
    exact hskip (Outline.crossing_self (by rw [hmine, hother, hsame]))
  · rw [if_neg hsame]
    cases hmodule : p.moduleOf v.site.input with
    | none => exact hskip (by rw [Outline.crossing, hmine, hmodule])
    | some module =>
      cases hdeclared : p.moduleOf declaring with
      | none => exact hskip (by rw [Outline.crossing, hmine, hmodule, hother, hdeclared])
      | some other =>
        have hcrossing : (plotted p plots).crossing sanity m declaring =
            ((Outline.broken? sanity p.modules module other).map fun rule =>
              (plotted p plots).report rule m
                [p.modules.name module, p.modules.name other, m.name]).toList := by
          rw [Outline.crossing, hmine, hmodule, hother, hdeclared]
          rfl
        dsimp only
        rw [broken?_eq]
        cases hbroken : Outline.broken? sanity p.modules module other with
        | none => exact hskip (by rw [hcrossing, hbroken]; rfl)
        | some rule =>
          rw [hcrossing, hbroken]
          exact ht.report _ h hv hstands hm rule _

/-- What the program says of a name at its place. -/
structure Seen (o : Outline) (s : WalkState Repairs) (place : Place) (m : Mention) : Prop where
  kind : s.program.store.kind? (some place.node) = some .name
  label : s.program.store.isLabelName (some place.node) = m.context.isLabel
  text : s.program.store.text (some place.node) = m.name
  span : s.program.store.span (some place.node) = m.span
  above : s.program.store.kind? place.parent = some m.context.above
  declared : s.program.store.isFunctionDeclaration place.parent = m.context.isDeclared
  file : s.sourceName place = o.file m.context.input

theorem Tracks.seen {m : Mention} (ids : List Nat) (ht : Tracks p plots repairs f s)
    (h : Ready p plots repairs) (hv : v.site.input < p.inputs.length)
    (hstands : s.program.store.Stands v) (hm : v.mention? = some m) :
    Seen (plotted p plots) s (v.place ids) m := by
  obtain ⟨hname, rfl⟩ := Visit.mention?_eq_some hm
  refine ⟨hname ▸ hstands.shown.kind_eq, ?_, hstands.shown.text_eq, hstands.shown.span_eq,
    hstands.hosts.kind_eq, hstands.isDeclared, ht.sourceName h hv⟩
  refine hstands.isLabelName.trans ?_
  rw [hname]
  rfl

section Names

variable {m : Mention} (ht : Tracks p plots repairs f s) (h : Ready p plots repairs)
  (hv : v.site.input < p.inputs.length) (hstands : s.program.store.Stands v)
  (hm : v.mention? = some m) (hlabel : m.context.isLabel = false)

include ht h hv hstands hm hlabel

/-- A name without a text. -/
theorem Tracks.emptyName (hname : m.name = "") :
    (judge sanity (plotted p plots) m f).Follows (After (Tracks p plots repairs) s)
      (Check.emptyName (v.place ids) s) := by
  have hseen := ht.seen ids h hv hstands hm
  rw [judge, hlabel, if_neg Bool.false_ne_true, if_pos hname, Check.emptyName, hseen.above,
    hseen.declared, hseen.span, hseen.file]
  by_cases hfunction : m.context.above = .function
  · rw [if_neg (not_not_intro hfunction), if_neg (not_not_intro (congrArg some hfunction))]
    split
    · exact ht.report _ h hv hstands hm _ _
    · exact ht.refl
  · rw [if_pos hfunction, if_pos fun hsome => hfunction (Option.some.inj hsome)]
    exact ⟨rfl, ht.refl⟩

/-- A name that nothing declares and that was not mended. -/
theorem Tracks.undeclared (hname : m.name ≠ "") (hfree : m.name ∉ m.context.bound)
    (hnone : (plotted p plots).declarer? m.name = none) (hnew : m.name ∉ f.mended) :
    (judge sanity (plotted p plots) m f).Follows (After (Tracks p plots repairs) s)
      (Check.undeclared sanity (v.place ids) m.name s) := by
  have hseen := ht.seen ids h hv hstands hm
  have hexpression : s.program.store.isFunctionExpression (v.place ids).parent =
      (decide (m.context.above = .function) && !m.context.isDeclared) := by
    rw [NodeStore.isFunctionExpression, hseen.declared, hseen.above]
    simp
  have hreport := ht.report ids h hv hstands hm Rule.undefinedVariable [m.name]
  rw [judge, hlabel, if_neg Bool.false_ne_true, if_neg hname, if_neg hfree, hnone,
    Check.undeclared, hexpression, hseen.span, hseen.file]
  dsimp only
  rw [if_neg hnew]
  split
  · exact ht.refl
  · cases sanity with
    | true => exact ⟨rfl, hreport⟩
    | false => exact hreport.trans (hreport.related.repair h hname hnone hnew)

/-- A name that is declared by a function around it or by a script, or was mended. -/
theorem Tracks.resolved (hname : m.name ≠ "") (hmodels : s.scopes.Models ids v.site.frames) :
    (judge sanity (plotted p plots) m f).Follows (After (Tracks p plots repairs) s)
      (match s.lookup? (v.place ids) m.name with
        | none => Check.undeclared sanity (v.place ids) m.name s
        | some var => .on (Check.reference sanity (v.place ids) m.name var s)) := by
  have hcontext : m.context = v.context := by
    obtain ⟨-, rfl⟩ := Visit.mention?_eq_some hm
    rfl
  have hbound := hcontext ▸ bound_eq v
  have hlookup : s.lookup? (v.place ids) m.name = _ := lookup?_place hmodels
  have hglobal := ht.global m.name hname
  by_cases hfree : m.name ∈ m.context.bound
  · obtain ⟨var, hvar, hinput⟩ := Frame.meaning_of_mem v.site.input hname hmodels.length
      (fun f hf => by
        obtain ⟨names, -, rfl⟩ := List.mem_map.mp hf
        rfl) (hbound ▸ hfree)
    rw [hlookup, hvar, judge, hlabel, if_neg Bool.false_ne_true, if_neg hname, if_pos hfree]
    dsimp only [Option.some_or]
    rw [reference_of_local hinput]
    exact ht.refl
  · rw [Frame.meaning_of_not_mem hname (hbound ▸ hfree), Option.none_or] at hlookup
    rw [hlookup]
    cases hdeclarer : (plotted p plots).declarer? m.name with
    | some declaring =>
      rw [hdeclarer] at hglobal
      obtain ⟨var, hvar, hspec⟩ := Option.map_eq_some_iff.mp hglobal
      obtain ⟨hinput, hisGlobal⟩ := Prod.mk.inj hspec
      rw [judge, hlabel, if_neg Bool.false_ne_true, if_neg hname, if_neg hfree, hdeclarer, hvar]
      exact ht.reference h hv hstands hm hinput hisGlobal (declarer?_lt hdeclarer)
    | none =>
      by_cases hnew : m.name ∈ f.mended
      · obtain ⟨host, var, hown, hvar, hinput⟩ := ht.own_of_mem h hnew
        rw [judge, hlabel, if_neg Bool.false_ne_true, if_neg hname, if_neg hfree, hdeclarer, hvar]
        dsimp only
        rw [if_pos hnew, reference_of_host hinput (ht.moduleOf_host h hown)]
        exact ht.refl
      · rw [ht.own_eq_none hname hdeclarer hnew]
        exact ht.undeclared h hv hstands hm hlabel hname hfree hdeclarer hnew

end Names

/-- What a check does at a visit is what the outline says. -/
theorem Tracks.visit (ht : Tracks p plots repairs f s) (h : Ready p plots repairs)
    (hv : v.site.input < p.inputs.length) (hstands : s.program.store.Stands v)
    (hmodels : s.scopes.Models ids v.site.frames) :
    (judgeVisit sanity (plotted p plots) v f).Follows (After (Tracks p plots repairs) s)
      (variableNames sanity (v.place ids) s) := by
  rw [variableNames, judgeVisit]
  cases hm : v.mention? with
  | none =>
    have hkind : s.program.store.kind? (some (v.place ids).node) = some v.tree.tree.kind :=
      hstands.shown.kind_eq
    have hname : v.tree.tree.kind ≠ .name := by
      intro hname
      rw [Visit.mention?, if_pos hname] at hm
      cases hm
    rw [if_pos (by simp [hkind, hname])]
    exact ht.refl
  | some m =>
    have hseen := ht.seen ids h hv hstands hm
    simp only [hseen.kind, hseen.label, hseen.text]
    cases hlabel : m.context.isLabel with
    | true =>
      rw [judge, hlabel, if_pos rfl, if_pos (by simp)]
      exact ht.refl
    | false =>
      rw [if_neg (by simp)]
      by_cases hname : m.name = ""
      · rw [if_pos hname]
        exact ht.emptyName h hv hstands hm hlabel hname
      · rw [if_neg hname]
        exact ht.resolved h hv hstands hm hlabel hname hmodels

end Tracks

end RefCheck.Check
