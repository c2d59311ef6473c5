import RefCheck.Proofs.Check.Reports

/-!
# Sessions

In a session a program is edited and checked in any order, by any number of checkers. A checker
keeps its placeholders from one check to the next. However a session goes on, the program holds
scripts as the parser builds them, and the placeholders of every checker are among them.
-/

namespace RefCheck.Check

open RefCheck.Text RefCheck.Script

/-- Someone who checks, and the placeholders that were needed so far. -/
structure Checker where
  sanity : Bool
  repairs : Repairs
deriving DecidableEq, Repr

/-- A checker that did not check anything yet. -/
def Checker.fresh (sanity : Bool) : Checker := ⟨sanity, none⟩

def Checker.verdict (checker : Checker) (p : Program) : Verdict :=
  run checker.sanity checker.repairs p

structure Session where
  program : Program
  checkers : List Checker
deriving DecidableEq, Repr

/-- What can happen in a session. -/
inductive Action
  | edit (e : Edit)
  | join (sanity : Bool)
  | check (checker : Nat)
deriving DecidableEq, Repr

namespace Session

def start (levels : Levels) : Session := ⟨Program.empty levels, []⟩

/-- A session after something happened. Nothing does if there is no such checker. -/
def act (s : Session) : Action → Session
  | .edit e => { s with program := s.program.edit e }
  | .join sanity => { s with checkers := s.checkers ++ [.fresh sanity] }
  | .check i =>
    match s.checkers[i]? with
    | none => s
    | some checker =>
      let verdict := checker.verdict s.program
      ⟨verdict.program, s.checkers.set i { checker with repairs := verdict.repairs }⟩

/-- The session after some things happened, in this order. -/
def after (levels : Levels) (actions : List Action) : Session := actions.foldl act (start levels)

end Session

variable {p q : Program} {plots after : List Plot} {repairs : Repairs} {names : List String}

theorem Hosted.extended (h : Hosted p plots repairs) (hq : Program.Extended p plots q after) :
    Hosted q after repairs := by
  intro host hhost
  obtain ⟨plot, hplot, hhosts⟩ := h host hhost
  obtain ⟨new, hnew⟩ := hq.inputs
  refine ⟨plot, hq.kept plot hplot, hhosts.input, hhosts.root, hhosts.body, ?_⟩
  have hlt := (List.getElem?_eq_some_iff.mp hhosts.blank).1
  rw [hnew, List.getElem?_append_left hlt]
  exact hhosts.blank

/-- What one checker mends leaves the placeholders of another one where they are. -/
theorem Hosted.mended {other : Repairs} (h : Hosted p plots other) {r : Program × Repairs}
    (hnames : ∀ x ∈ names, x ≠ "") (hr : Mended p plots names r after) :
    Hosted r.1 after other := by
  intro host hhost
  obtain ⟨plot, hplot, hhosts⟩ := h host hhost
  obtain ⟨more, hgrown, hmore⟩ := hr.scripts plot hplot
  obtain ⟨new, hnew, -⟩ := hr.inputs
  refine ⟨_, hgrown, hhosts.input, hhosts.root, ?_, ?_⟩
  · intro c hc
    rcases List.mem_append.mp hc with hc | hc
    · exact hhosts.body c hc
    · obtain ⟨x, hx, htree⟩ := hmore c hc
      exact ⟨x, hnames x hx, htree⟩
  · have hlt := (List.getElem?_eq_some_iff.mp hhosts.blank).1
    rw [hnew, List.getElem?_append_left hlt]
    exact hhosts.blank

theorem fits_placeholder {x : String} (hx : x ≠ "") :
    Fits maxNesting .statement (Program.placeholder x) := by
  change Fits (255 + 1) _ _
  apply FitsAs.var
  · exact List.cons_ne_nil _ _
  · intro t ht
    rw [List.mem_singleton.mp ht]
    exact .declared hx

/-- Missing names have a text. -/
theorem Outline.nonempty_of_lacking {o : Outline} {known : List String} {ms : List Mention}
    {x : String} (h : x ∈ o.lacking known ms) : x ≠ "" := by
  obtain ⟨-, m, -, hmissing, rfl⟩ := Outline.mem_lacking.mp h
  exact (Outline.isMissing_iff.mp hmissing).2.1

theorem Checkable.withBag (h : Checkable p plots repairs) (bag : Bag) :
    Checkable { p with bag } plots repairs :=
  ⟨h.toReady.withBag bag, h.fits⟩

/-- After some names were mended a program can be checked again. -/
theorem Checkable.of_mended (h : Checkable p plots repairs) (hnames : ∀ x ∈ names, x ≠ "")
    {r : Program × Repairs} (hafter : Mended p plots names r after) :
    Checkable r.1 after r.2 := by
  refine ⟨⟨hafter.holds, hafter.hosted⟩, ?_⟩
  intro i t ht
  rw [hafter.bodies] at ht
  rcases List.mem_append.mp ht with ht | ht
  · exact h.fits i t ht
  · split at ht
    · obtain ⟨x, hx, rfl⟩ := List.mem_map.mp ht
      exact fits_placeholder (hnames x hx)
    · cases ht

theorem Checkable.mended (h : Checkable p plots repairs) (hnames : ∀ x ∈ names, x ≠ "") :
    ∃ after, Mended p plots names (mend (p, repairs) names) after ∧
      Checkable (mend (p, repairs) names).1 after (mend (p, repairs) names).2 := by
  obtain ⟨after, hafter⟩ := Check.mended h.holds h.hosted names hnames
  exact ⟨after, hafter, h.of_mended hnames hafter⟩

/-- The names that a check mends: those that are missing, and none in a sanity check. -/
def Outline.mends (o : Outline) (sanity : Bool) : List String :=
  if sanity then [] else o.lacking [] o.all

theorem Outline.nonempty_of_mends {o : Outline} {sanity : Bool} :
    ∀ x ∈ o.mends sanity, x ≠ "" := by
  intro x hx
  rw [mends] at hx
  split at hx
  · cases hx
  · exact nonempty_of_lacking hx

theorem Checkable.run_mends (h : Checkable p plots repairs) (sanity : Bool) :
    let mended := mend (p, repairs) ((plotted p plots).mends sanity)
    ∃ bag, (run sanity repairs p).program = { mended.1 with bag } ∧
      (run sanity repairs p).repairs = mended.2 := by
  cases sanity with
  | true =>
    rw [h.run_true_eq]
    exact ⟨_, rfl, rfl⟩
  | false =>
    rw [h.run_false]
    exact ⟨_, rfl, rfl⟩

/-- What a check finds, in the order in which it is reported. A sanity check finds nothing more
after the first missing name. -/
def Outline.found (o : Outline) (sanity : Bool) : List Diagnostic :=
  o.noEffect (o.mentions o.externs) ++
    if sanity then o.strictFindings o.all else o.findings [] o.all

theorem Checkable.run_found (h : Checkable p plots repairs) (sanity : Bool) :
    (run sanity repairs p).program.bag.reports =
      p.bag.reports ++ (plotted p plots).found sanity := by
  cases sanity with
  | true =>
    rw [h.run_true_eq]
    rfl
  | false =>
    rw [h.run_false]
    rfl

/-- The plots of a session: what its program holds is as a check relies on, for every checker, and
sanity checkers never have placeholders. -/
structure Session.Held (s : Session) (plots : List Plot) : Prop where
  checkable : Checkable s.program plots none
  hosted : ∀ checker ∈ s.checkers, Hosted s.program plots checker.repairs
  sane : ∀ checker ∈ s.checkers, checker.sanity = true → checker.repairs = none

namespace Session.Held

variable {s : Session}

theorem checks (h : s.Held plots) {checker : Checker} (hmem : checker ∈ s.checkers) :
    Checkable s.program plots checker.repairs :=
  ⟨⟨h.checkable.holds, h.hosted checker hmem⟩, h.checkable.fits⟩

theorem start (levels : Levels) : (Session.start levels).Held [] where
  checkable := ⟨⟨Program.holds_empty levels, nofun⟩, fun i t ht => by simp [bodyOf] at ht⟩
  hosted := nofun
  sane := nofun

theorem extended (h : s.Held plots) (hafter : Program.Extended s.program plots q after) :
    Session.Held { s with program := q } after := by
  refine ⟨⟨⟨hafter.holds, nofun⟩, ?_⟩, ?_, h.sane⟩
  · intro i t ht
    rw [hafter.bodies] at ht
    split at ht
    · exact h.checkable.fits i t ht
    · exact Program.fits_statements ht
  · intro checker hmem
    exact (h.hosted checker hmem).extended hafter

theorem edit (h : s.Held plots) (e : Edit) : ∃ after, (s.act (.edit e)).Held after := by
  obtain ⟨after, hafter⟩ := h.checkable.holds.extended_edit e
  exact ⟨after, h.extended hafter⟩

theorem join (h : s.Held plots) (sanity : Bool) : (s.act (.join sanity)).Held plots where
  checkable := h.checkable
  hosted := by
    intro checker hmem
    rcases List.mem_append.mp hmem with hmem | hmem
    · exact h.hosted checker hmem
    · rw [List.mem_singleton.mp hmem]
      exact nofun
  sane := by
    intro checker hmem hsanity
    rcases List.mem_append.mp hmem with hmem | hmem
    · exact h.sane checker hmem hsanity
    · rw [List.mem_singleton.mp hmem]
      rfl

/-- What a checker of a session mends, and what becomes of the session then. -/
theorem mended (h : s.Held plots) {i : Nat} {checker : Checker}
    (hchecker : s.checkers[i]? = some checker) {r : Program × Repairs}
    (hnames : ∀ x ∈ names, x ≠ "") (hafter : Mended s.program plots names r after)
    (hsane : checker.sanity = true → r.2 = none) (bag : Bag) :
    Session.Held ⟨{ r.1 with bag }, s.checkers.set i { checker with repairs := r.2 }⟩ after := by
  have hmem := List.mem_of_getElem? hchecker
  have hmended := ((h.checks hmem).of_mended hnames hafter).withBag bag
  refine ⟨⟨⟨hmended.holds, nofun⟩, hmended.fits⟩, ?_, ?_⟩
  · intro other hother
    rcases List.mem_or_eq_of_mem_set hother with hother | rfl
    · exact ((h.hosted other hother).mended hnames hafter).withBag bag
    · exact hmended.hosted
  · intro other hother htrue
    rcases List.mem_or_eq_of_mem_set hother with hother | rfl
    · exact h.sane other hother htrue
    · exact hsane htrue

theorem repairs_of_sane (h : s.Held plots) {checker : Checker} (hmem : checker ∈ s.checkers)
    (hsanity : checker.sanity = true) :
    (mend (s.program, checker.repairs)
      ((plotted s.program plots).mends checker.sanity)).2 = none := by
  rw [hsanity]
  exact h.sane checker hmem hsanity

theorem check (h : s.Held plots) (i : Nat) : ∃ after, (s.act (.check i)).Held after := by
  rw [Session.act]
  cases hchecker : s.checkers[i]? with
  | none => exact ⟨plots, h⟩
  | some checker =>
    have hmem := List.mem_of_getElem? hchecker
    obtain ⟨bag, hprogram, hrepairs⟩ := (h.checks hmem).run_mends checker.sanity
    obtain ⟨after, hafter, -⟩ := (h.checks hmem).mended Outline.nonempty_of_mends
    dsimp only [Checker.verdict]
    rw [hprogram, hrepairs]
    exact ⟨after, h.mended hchecker Outline.nonempty_of_mends hafter (h.repairs_of_sane hmem) bag⟩

theorem act (h : s.Held plots) (action : Action) : ∃ after, (s.act action).Held after := by
  cases action with
  | edit e => exact h.edit e
  | join sanity => exact ⟨plots, h.join sanity⟩
  | check i => exact h.check i

theorem acts (h : s.Held plots) (actions : List Action) :
    ∃ after, (actions.foldl Session.act s).Held after := by
  induction actions generalizing s plots with
  | nil => exact ⟨plots, h⟩
  | cons action rest ih =>
    obtain ⟨mid, hmid⟩ := h.act action
    exact ih hmid

end Session.Held

theorem Session.held (levels : Levels) (actions : List Action) :
    ∃ plots, (Session.after levels actions).Held plots :=
  (Held.start levels).acts actions

end RefCheck.Check
