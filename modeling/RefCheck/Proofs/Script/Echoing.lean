import RefCheck.Script.Grammar

/-!
# Readers that echo each other

`Echoes f r r'` says of two readers that the second one answers whenever the first one does: it
takes the same tokens, and its answer is the image of the other one under `f`. One rule for each way
in which readers are put together carries this from the parts to the whole. Nothing is said of
sources that the first reader refuses.
-/

namespace RefCheck.Script.Reader

open RefCheck.Text

variable {α β γ δ : Type} {f : α → β} {g : γ → δ}

/-- Whenever `r` is done, `r'` is done at the same token, with the image of the answer. -/
def Echoes (f : α → β) (r : Reader α) (r' : Reader β) : Prop :=
  ∀ c a rest, r c = .done a rest → r' c = .done (f a) rest

/-- Every reader echoes itself. -/
theorem echoes_self (r : Reader α) : Echoes id r r := fun _ _ _ h => h

theorem echoes_pure (a : α) : Echoes f (pure a) (pure (f a)) := by
  intro c b rest h
  cases h
  rfl

theorem echoes_answer {a : α} {b : β} (h : f a = b) : Echoes f (pure a) (pure b) :=
  h ▸ echoes_pure a

theorem echoes_bind {r : Reader α} {r' : Reader β} {next : α → Reader γ} {next' : β → Reader δ}
    (first : Echoes f r r') (rest : ∀ a, Echoes g (next a) (next' (f a))) :
    Echoes g (r >>= next) (r' >>= next') := by
  intro c b d h
  dsimp only [bind] at h ⊢
  cases hfirst : r c with
  | failed error loose =>
    rw [hfirst] at h
    cases h
  | done a between =>
    rw [hfirst] at h
    rw [first c a between hfirst]
    exact rest a between b d h

/-- Both readers start with the same one. -/
theorem echoes_after {r : Reader α} {next : α → Reader γ} {next' : α → Reader δ}
    (rest : ∀ a, Echoes g (next a) (next' a)) : Echoes g (r >>= next) (r >>= next') :=
  echoes_bind (echoes_self r) rest

/-- The second reader changes its answer. -/
theorem echoes_then {r : Reader α} {r' : Reader β} {change : β → γ} {f' : α → γ}
    (h : Echoes f r r') (hchange : ∀ a, change (f a) = f' a) :
    Echoes f' r (do return change (← r')) := by
  intro c a rest hr
  dsimp only [bind, pure]
  rw [h c a rest hr, ← hchange]

theorem echoes_fail {fault : Fault} {r' : Reader β} : Echoes f (fail fault) r' := by
  intro c a rest h
  cases h

theorem echoes_failAt {fault : Fault} {span : Span} {r' : Reader β} :
    Echoes f (failAt fault span) r' := by
  intro c a rest h
  cases h

theorem echoes_missing {wanted : Wanted} {r' : Reader β} : Echoes f (missing wanted) r' := by
  intro c a rest h
  cases h

theorem echoes_holdingAll {r : Reader α} {r' : Reader β} {trees trees' : List Tree}
    (h : Echoes f r r') : Echoes f (holdingAll trees r) (holdingAll trees' r') := by
  intro c a rest hr
  cases hread : r c with
  | failed error loose => simp [holdingAll, hread] at hr
  | done b between =>
    simp only [holdingAll, hread, Outcome.done.injEq] at hr
    obtain ⟨rfl, rfl⟩ := hr
    simp only [holdingAll, h c _ _ hread]

theorem echoes_holding {r : Reader α} {r' : Reader β} {tree tree' : Tree} (h : Echoes f r r') :
    Echoes f (holding tree r) (holding tree' r') :=
  @echoes_holdingAll _ _ _ _ _ [tree] [tree'] h

theorem echoes_holding_fail {tree : Tree} {fault : Fault} {r' : Reader β} :
    Echoes f (holding tree (fail fault)) r' := by
  intro c a rest h
  cases h

theorem echoes_ite {b : Prop} [Decidable b] {r s : Reader α} {r' s' : Reader β}
    (hr : b → Echoes f r r') (hs : ¬ b → Echoes f s s') :
    Echoes f (if b then r else s) (if b then r' else s') := by
  by_cases h : b
  · simpa only [if_pos h] using hr h
  · simpa only [if_neg h] using hs h

variable {h : Tree → Tree} {item item' : Reader Tree}

theorem echoes_separated (hitem : Echoes h item item') (fuel : Nat) :
    Echoes (List.map h) (separated item fuel) (separated item' fuel) := by
  induction fuel with
  | zero => exact echoes_pure []
  | succ fuel ih =>
    refine echoes_bind hitem fun first => echoes_holding (echoes_after fun more => ?_)
    refine echoes_ite (fun _ => ?_) fun _ => echoes_pure [first]
    exact echoes_bind ih fun rest => echoes_pure (first :: rest)

theorem echoes_upTo {closing : TokenKind} {wanted : Wanted} (hitem : Echoes h item item')
    (fuel : Nat) :
    Echoes (List.map h) (upTo closing wanted item fuel) (upTo closing wanted item' fuel) := by
  induction fuel with
  | zero => exact echoes_pure []
  | succ fuel ih =>
    refine echoes_after fun closed => echoes_ite (fun _ => echoes_pure []) fun _ => ?_
    refine echoes_after fun ended => echoes_ite (fun _ => echoes_missing) fun _ => ?_
    refine echoes_bind hitem fun first => ?_
    exact echoes_bind (echoes_holding ih) fun rest => echoes_pure (first :: rest)

theorem echoes_perToken {loop : Nat → Reader α} {loop' : Nat → Reader β}
    (hloop : ∀ fuel, Echoes f (loop fuel) (loop' fuel)) :
    Echoes f (perToken loop) (perToken loop') := fun c => hloop _ c

end RefCheck.Script.Reader
