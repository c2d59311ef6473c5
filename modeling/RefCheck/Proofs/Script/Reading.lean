import RefCheck.Script.Grammar

/-!
# What a reader may answer with

`Answers K P r Q` says that `r`, started at a cursor with `P` whose tokens have `K`, answers only
with values that have `Q`, if it answers at all. One rule for each way in which readers are put
together carries such a statement from the tokens up to a whole script.
-/

namespace RefCheck.Script

open RefCheck.Text

/-- All tokens of a cursor have a property. -/
structure Cursor.All (K : Token → Prop) (c : Cursor) : Prop where
  current : K c.current
  ahead : ∀ t ∈ c.ahead, K t

namespace Reader

variable {α β : Type} {K : Token → Prop} {P : Cursor → Prop} {Q : α → Prop} {R : β → Prop}

/-- From cursors with `P` whose tokens have `K`, a reader answers with `Q` or not at all. -/
def Answers (K : Token → Prop) (P : Cursor → Prop) (r : Reader α) (Q : α → Prop) : Prop :=
  ∀ c, c.All K → P c → ∀ a rest, r c = .done a rest → Q a ∧ rest.All K

/-- The same from every such cursor. -/
abbrev Always (K : Token → Prop) (r : Reader α) (Q : α → Prop) : Prop :=
  Answers K (fun _ => True) r Q

theorem Answers.anywhere {r : Reader α} (h : Always K r Q) : Answers K P r Q :=
  fun c hc _ => h c hc trivial

theorem Answers.imp {r : Reader α} {Q' : α → Prop} (h : Answers K P r Q)
    (hq : ∀ a, Q a → Q' a) : Answers K P r Q' := by
  intro c hc hp a rest hr
  obtain ⟨ha, hrest⟩ := h c hc hp a rest hr
  exact ⟨hq a ha, hrest⟩

theorem answers_pure {a : α} (ha : Q a) : Answers K P (pure a : Reader α) Q := by
  intro c hc _ b rest hr
  cases hr
  exact ⟨ha, hc⟩

theorem answers_bind {r : Reader α} {next : α → Reader β} (first : Answers K P r Q)
    (rest : ∀ a, Q a → Always K (next a) R) : Answers K P (r >>= next) R := by
  intro c hc hp b d hr
  dsimp only [bind] at hr
  cases hfirst : r c with
  | failed error loose => rw [hfirst] at hr; cases hr
  | done a between =>
    rw [hfirst] at hr
    obtain ⟨ha, hbetween⟩ := first c hc hp a between hfirst
    exact rest a ha between hbetween trivial b d hr

theorem answers_fail {fault : Fault} : Answers K P (fail fault : Reader α) Q := by
  intro c _ _ a rest hr
  cases hr

theorem answers_failAt {fault : Fault} {span : Span} :
    Answers K P (failAt fault span : Reader α) Q := by
  intro c _ _ a rest hr
  cases hr

theorem answers_missing {wanted : Wanted} : Answers K P (missing wanted : Reader α) Q := by
  intro c _ _ a rest hr
  cases hr

theorem answers_holdingAll {r : Reader α} {trees : List Tree} (h : Answers K P r Q) :
    Answers K P (holdingAll trees r) Q := by
  intro c hc hp a rest hr
  cases hread : r c with
  | failed error loose => simp [holdingAll, hread] at hr
  | done b d =>
    simp only [holdingAll, hread, Outcome.done.injEq] at hr
    obtain ⟨rfl, rfl⟩ := hr
    exact h c hc hp _ _ hread

theorem answers_holding {r : Reader α} {tree : Tree} (h : Answers K P r Q) :
    Answers K P (holding tree r) Q :=
  @answers_holdingAll _ _ _ _ _ [tree] h

theorem answers_ite {b : Prop} [Decidable b] {r s : Reader α} (hr : b → Answers K P r Q)
    (hs : ¬ b → Answers K P s Q) : Answers K P (if b then r else s) Q := by
  by_cases h : b
  · simpa only [if_pos h] using hr h
  · simpa only [if_neg h] using hs h

theorem answers_current {next : Token → Reader β}
    (h : ∀ t, Answers K (fun c => P c ∧ c.current = t) (next t) R) :
    Answers K P (current >>= next) R :=
  fun c hc hp a rest hr => h c.current c hc ⟨hp, rfl⟩ a rest hr

theorem answers_isAt {kind : TokenKind} {next : Bool → Reader β}
    (yes : Answers K (fun c => P c ∧ c.current.kind = kind) (next true) R)
    (no : Answers K P (next false) R) : Answers K P (isAt kind >>= next) R := by
  intro c hc hp a rest hr
  change next (decide (c.current.kind = kind)) c = _ at hr
  by_cases h : c.current.kind = kind
  · rw [decide_eq_true h] at hr
    exact yes c hc ⟨hp, h⟩ a rest hr
  · rw [decide_eq_false h] at hr
    exact no c hc hp a rest hr

/-- The token that is taken is the one that was at hand. -/
theorem answers_advance {Q : Token → Prop} (h : ∀ c, P c → K c.current → Q c.current) :
    Answers K P advance Q := by
  intro c hc hp a rest hr
  obtain ⟨now, ahead, fault⟩ := c
  have hnow := h _ hp hc.current
  cases ahead with
  | nil =>
    cases fault with
    | some error => cases hr
    | none => cases hr; exact ⟨hnow, hc⟩
  | cons next more =>
    cases hr
    exact ⟨hnow, hc.ahead _ List.mem_cons_self,
      fun t ht => hc.ahead t (List.mem_cons_of_mem _ ht)⟩

theorem answers_advance_any : Answers K P advance (fun _ => True) :=
  answers_advance fun _ _ _ => trivial

theorem answers_following {next : TokenKind → Reader β} (h : ∀ k, Answers K P (next k) R) :
    Answers K P (following >>= next) R := by
  intro c hc hp a rest hr
  obtain ⟨now, ahead, fault⟩ := c
  cases ahead with
  | nil =>
    cases fault with
    | some error => cases hr
    | none => exact h _ _ hc hp a rest hr
  | cons token more => exact h _ _ hc hp a rest hr

theorem answers_eat {kind : TokenKind} : Answers K P (eat kind) (fun _ => True) :=
  answers_isAt (answers_bind answers_advance_any fun _ _ => answers_pure trivial)
    (answers_pure trivial)

theorem answers_expect {kind : TokenKind} {wanted : Wanted} :
    Answers K P (expect kind wanted) (fun t => t.kind = kind ∧ K t) :=
  answers_isAt (answers_advance fun _ hp hs => ⟨hp.2, hs⟩) answers_missing

variable {T : Tree → Prop}

/-- With a round left there is an item at least. -/
theorem answers_separated {item : Reader Tree} (h : Always K item T) (fuel : Nat) :
    Answers K P (separated item fuel) (fun ts => (0 < fuel → ts ≠ []) ∧ ∀ t ∈ ts, T t) := by
  induction fuel generalizing P with
  | zero => exact answers_pure ⟨by simp, by simp⟩
  | succ fuel ih =>
    refine answers_bind h.anywhere fun first hfirst => answers_holding ?_
    refine answers_bind answers_eat fun more _ => answers_ite (fun _ => ?_) fun _ => ?_
    · exact answers_bind ih fun rest hrest => answers_pure
        ⟨by simp, List.forall_mem_cons.mpr ⟨hfirst, hrest.2⟩⟩
    · exact answers_pure ⟨by simp, by simpa using hfirst⟩

theorem answers_upTo {closing : TokenKind} {wanted : Wanted} {item : Reader Tree}
    (h : Always K item T) (fuel : Nat) :
    Answers K P (upTo closing wanted item fuel) (fun ts => ∀ t ∈ ts, T t) := by
  induction fuel generalizing P with
  | zero => exact answers_pure (by simp)
  | succ fuel ih =>
    refine answers_isAt (answers_pure (by simp)) (answers_isAt answers_missing ?_)
    refine answers_bind h.anywhere fun first hfirst => ?_
    exact answers_bind (answers_holding ih) fun rest hrest =>
      answers_pure (List.forall_mem_cons.mpr ⟨hfirst, hrest⟩)

theorem answers_perToken {loop : Nat → Reader α} (h : ∀ fuel, Answers K P (loop fuel) Q) :
    Answers K P (perToken loop) Q :=
  fun c hc hp a rest hr => h _ c hc hp a rest hr

theorem answers_items {item : Reader Tree} (h : Always K item T) :
    Answers K P (perToken (separated item)) (fun ts => ts ≠ [] ∧ ∀ t ∈ ts, T t) := by
  intro c hc hp a rest hr
  obtain ⟨ha, hrest⟩ := answers_separated h _ c hc hp a rest hr
  exact ⟨⟨ha.1 (by omega), ha.2⟩, hrest⟩

end Reader

end RefCheck.Script
