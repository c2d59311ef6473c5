import RefCheck.Proofs.Check.Externs
import RefCheck.Proofs.Check.Tracking

/-!
# How a check ends

A check goes through the names of a program as its outline says. At the end the program has one more
report for each finding and one more placeholder for each name that was mended, and is otherwise as
it was.
-/

namespace RefCheck.Check

open RefCheck.Text RefCheck.Script

variable {p : Program} {plots : List Plot} {repairs : Repairs} {f : Found} {s : WalkState Repairs}
  {sanity : Bool}

theorem skips_variableNames : (variableNames sanity).SkipsScripts := by
  intro place s kind hkind hskip
  have hname : s.program.store.kind? (some place.node) ≠ some .name := by
    rw [hkind]
    rcases hskip with rfl | rfl <;> simp
  rw [variableNames]
  rw [if_pos (by simp [hname])]

/-- Names that were mended stay mended. -/
theorem mended_of_after {g : Found} {t : WalkState Repairs} (h : Ready p plots repairs)
    (ht : Tracks p plots repairs f s) (hafter : After (Tracks p plots repairs) s g t) {x : String}
    (hx : x ∈ f.mended) : x ∈ g.mended := by
  obtain ⟨host, var, -, hvar, -⟩ := ht.own_of_mem h hx
  by_contra hnot
  have hlater := hafter.related.own_eq_none (ht.nonempty x hx) (ht.missing x hx) hnot
  rw [hafter.keeps.global x var hvar] at hlater
  cases hlater

/-- The only name that a placeholder mentions is its own. -/
theorem mention_of_placeholder {v : Visit} {c : Planted} {plot : Plot} {x : String} {m : Mention}
    (hc : c.tree = Program.placeholder x) (hv : v ∈ c.visits plot.site) (hm : v.mention? = some m) :
    m = ⟨x, Span.none, ⟨.var, true, false, plot.input, []⟩⟩ := by
  have hmem := mem_mentions_of_visit hv hm
  rw [hc] at hmem
  exact List.mem_singleton.mp hmem

/-- Nothing happens at a placeholder whose name was mended. -/
theorem judgeVisit_placeholder {v : Visit} {c : Planted} {plot : Plot} {x : String}
    (hx : x ∈ f.mended) (hname : x ≠ "") (hnone : (plotted p plots).declarer? x = none)
    (hc : c.tree = Program.placeholder x) (hv : v ∈ c.visits plot.site) :
    judgeVisit sanity (plotted p plots) v f = .on f := by
  rw [judgeVisit]
  cases hm : v.mention? with
  | none => rfl
  | some m =>
    obtain rfl := mention_of_placeholder hc hv hm
    simp [judge, Context.isLabel, hname, hnone, hx]

theorem tracks_simulation (h : Ready p plots repairs) :
    ScriptSimulation (variableNames sanity) (judgeVisit sanity (plotted p plots))
      (Tracks p plots repairs) (fun input => input < p.inputs.length) plots (p.store.size + 2) where
  sound f s ht := ht.sound
  tables f s t ht hkeeps hglobal := {
    program := ht.program
    own := ht.own
    nonempty := ht.nonempty
    missing := ht.missing
    sound := hkeeps.sound
    isGlobal := (hkeeps.parent 0 (ScopeTable.lt_of_parent? ht.isGlobal)).trans ht.isGlobal
    global := fun x hx => by
      dsimp only
      rw [hglobal]
      exact ht.global x hx }
  visits f s v ids ht hv hstands hmodels := ht.visit h hv hstands hmodels
  skips f s place kind ht := skips_variableNames.follows ht.refl
  inputs plot hplot := input_lt h.holds hplot
  global f s ht := ht.isGlobal
  scripts f s ht plot hplot := by
    obtain ⟨after, hafter⟩ := ht.mended h
    obtain ⟨more, hgrown, hmore⟩ := hafter.scripts plot hplot
    -- Of all scripts only the host has more statements, and these name what was mended.
    refine ⟨more, ?_, fun c hc => ?_, fun g t hlater v hv => ?_⟩
    · rw [ht.program]
      exact hafter.holds.shown _ hgrown
    · rcases List.mem_append.mp hc with hc | hc
      · have hsize := ((h.holds.shown plot hplot).body c hc).size_le
        omega
      · obtain ⟨x, -, hx⟩ := hmore c hc
        have hsize : (Program.placeholder x).size = 2 := rfl
        rw [hx, hsize]
        exact Nat.le_add_left _ _
    · obtain ⟨c, hc, hv⟩ := List.mem_flatMap.mp hv
      obtain ⟨x, hx, htree⟩ := hmore c hc
      exact judgeVisit_placeholder (mended_of_after h ht hlater hx) (ht.nonempty x hx)
        (ht.missing x hx) htree hv

theorem tracks_start (h : Ready p plots repairs) :
    Tracks p plots repairs ⟨[], []⟩
      (Walk.start p [some Program.externsRoot, some Program.mainRoot] repairs) := by
  have hglobal := globalOf_start h.holds
  refine ⟨?_, rfl, by simp, by simp, hglobal.sound, hglobal.isGlobal, fun x hx => ?_⟩
  · simp [Walk.start, mend]
  · change Option.map _ (ScopeTable.own? (ScopeTable.pushGlobal _ _ _) _ _) = _
    rw [hglobal.own, global_eq h.holds hx]
    cases (plotted p plots).declarer? x <;> simp

theorem each_judgeVisit (o : Outline) (visits : List Visit) (f : Found) :
    Progress.each (judgeVisit sanity o) visits f =
      Progress.each (judge sanity o) (visits.filterMap Visit.mention?) f := by
  induction visits generalizing f with
  | nil => rfl
  | cons v rest ih =>
    rw [Progress.each, List.filterMap_cons, judgeVisit]
    cases v.mention? with
    | none => exact ih f
    | some m =>
      rw [Progress.each]
      exact congrArg _ (funext ih)

/-- What becomes of the names of all scripts. -/
def Outline.judged (sanity : Bool) (o : Outline) : Progress VariableError Found :=
  Progress.each (judge sanity o) o.all ⟨[], []⟩

/-- The walk over all names comes to what the outline says. -/
theorem follows_walk (h : Ready p plots repairs) (sanity : Bool) :
    ((plotted p plots).judged sanity).Follows
      (Tracks p plots repairs)
      (Walk.roots (variableNames sanity) p [some Program.externsRoot, some Program.mainRoot]
        repairs) := by
  have hvisits : (plotted p plots).all =
      ((walked plots).flatMap Plot.visits).filterMap Visit.mention? := by
    rw [visits_mentions h.holds fun plot => mem_of_mem_walked, walked_inputs h.holds]
    rfl
  rw [Outline.judged, hvisits, ← each_judgeVisit]
  refine ((tracks_simulation h).roots (plots.filter _) (plots.filter _)
    (fun plot => mem_filter_above) (fun plot => mem_filter_above) (children_root h.holds (.inl rfl))
    (fun f t ht => ?_) (tracks_start h)).imp fun _ _ ht => ht.related
  obtain ⟨after, hafter⟩ := ht.mended h
  refine ⟨Plot.rootRecord plots Program.mainRoot, ?_, rfl, rfl⟩
  rw [ht.program, ← hafter.mains]
  exact hafter.holds.node _ (.inr rfl)

theorem Hosted.withBag (h : Hosted p plots repairs) (bag : Bag) :
    Hosted { p with bag } plots repairs := by
  intro host hhost
  obtain ⟨plot, hplot, hhosts⟩ := h host hhost
  exact ⟨plot, hplot, hhosts.input, hhosts.root, hhosts.body, hhosts.blank⟩

/-- What is reported does not matter for a check. -/
theorem Ready.withBag (h : Ready p plots repairs) (bag : Bag) :
    Ready { p with bag } plots repairs where
  holds := ⟨h.holds.length, h.holds.input, h.holds.shown, h.holds.node⟩
  hosted := h.hosted.withBag bag

theorem mend_bag (q : Program) (bag : Bag) (repairs : Repairs) (names : List String) :
    mend ({ q with bag }, repairs) names =
      ({ (mend (q, repairs) names).1 with bag }, (mend (q, repairs) names).2) := by
  induction names generalizing q repairs with
  | nil => rfl
  | cons name rest ih =>
    have hcons : ∀ q : Program × Repairs, mend q (name :: rest) = mend (mendOne q name) rest :=
      fun q => List.foldl_cons ..
    rw [hcons, hcons, mendOne_bag, ih]

/-- What a check does to a program, and how it ends. -/
theorem run_eq (h : Ready p plots repairs) (sanity : Bool) :
    run sanity repairs p =
      let o := plotted p plots
      let found := (o.judged sanity).state
      let mended := mend (p, repairs) found.mended
      ⟨{ mended.1 with bag := (noting p (o.noEffect (o.mentions o.externs) ++ found.reports)).bag },
        mended.2, (o.judged sanity).error?⟩ := by
  let ds := (plotted p plots).noEffect ((plotted p plots).mentions (plotted p plots).externs)
  have hsame : plotted (noting p ds) plots = plotted p plots := rfl
  have hmend : ∀ names, mend (noting p ds, repairs) names =
      ({ (mend (p, repairs) names).1 with bag := (noting p ds).bag },
        (mend (p, repairs) names).2) := mend_bag p _ repairs
  have hready : Ready (noting p ds) plots repairs := h.withBag _
  obtain ⟨ht, herror⟩ := (follows_walk hready sanity).ended
  rw [hsame] at ht herror
  have hprogram := ht.program
  have hown := ht.own
  rw [hmend] at hprogram hown
  rw [run, externs_eq h.holds, Verdict.ofWalk, hprogram, hown, ← herror]
  simp only [noting, ds, List.append_assoc]

end RefCheck.Check
