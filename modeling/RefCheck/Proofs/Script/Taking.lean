import RefCheck.Proofs.Script.Derivation

/-!
# What a reader takes

`Takes n t r M` says that `r`, started where `t` is at hand and fewer than `n` tokens are ahead,
takes tokens off the front, if it answers, and that `M` holds of the answer, of the tokens that were
taken and of the one that is at hand then. One rule for each way in which readers are put together
carries such a statement from single tokens up to a whole script. The bound `n` is what the loops
need: a round takes a token at least, so they never run out of rounds.
-/

namespace RefCheck.Script

open RefCheck.Text

/-- All tokens of a cursor. -/
def Cursor.tokens (c : Cursor) : List Token := c.current :: c.ahead

/-- Tokens go on up to the end of input, and up to there only, or else up to a fault. -/
def Sealed (fault : Option SyntaxError) : List Token → Prop
  | [] => fault ≠ none
  | t :: rest => if t.kind = .endOfInput then rest = [] ∧ fault = none else Sealed fault rest

theorem Sealed.of_append {fault : Option SyntaxError} {ts us : List Token}
    (h : Sealed fault (ts ++ us)) (hne : us ≠ []) : Sealed fault us := by
  induction ts with
  | nil => exact h
  | cons t rest ih =>
    rw [List.cons_append, Sealed] at h
    split at h
    · exact absurd (List.append_eq_nil_iff.mp h.1).2 hne
    · exact ih h

/-- Only the last token can be the end of input. -/
theorem Sealed.ne_end {fault : Option SyntaxError} {ts us : List Token}
    (h : Sealed fault (ts ++ us)) (hne : us ≠ []) : ∀ t ∈ ts, t.kind ≠ .endOfInput := by
  induction ts with
  | nil => exact List.forall_mem_nil _
  | cons t rest ih =>
    rw [List.cons_append, Sealed] at h
    split at h
    · exact absurd (List.append_eq_nil_iff.mp h.1).2 hne
    · next ht => exact List.forall_mem_cons.mpr ⟨ht, ih h⟩

namespace Reader

variable {α β : Type} {n m : Nat} {t : Token}

def Takes (n : Nat) (t : Token) (r : Reader α) (M : α → List Token → Token → Prop) : Prop :=
  ∀ c : Cursor, Sealed c.fault c.tokens → c.current = t → c.ahead.length < n →
    ∀ a rest, r c = .done a rest →
      ∃ used, c.tokens = used ++ rest.tokens ∧ rest.fault = c.fault ∧ M a used rest.current

variable {r : Reader α} {M : α → List Token → Token → Prop} {R : β → List Token → Token → Prop}

theorem Takes.imp {M' : α → List Token → Token → Prop} (h : Takes n t r M)
    (himp : ∀ a used next, M a used next → M' a used next) : Takes n t r M' := by
  intro c hc ht hn a rest hr
  obtain ⟨used, htokens, hfault, hm⟩ := h c hc ht hn a rest hr
  exact ⟨used, htokens, hfault, himp _ _ _ hm⟩

theorem Takes.mono (h : Takes n t r M) (hle : m ≤ n) : Takes m t r M :=
  fun c hc ht hm => h c hc ht (Nat.lt_of_lt_of_le hm hle)

theorem takes_pure {a : α} (h : M a [] t) : Takes n t (pure a : Reader α) M := by
  intro c _ ht _ b rest hr
  cases hr
  exact ⟨[], rfl, rfl, ht ▸ h⟩

theorem takes_bind {next : α → Reader β} (first : Takes n t r M)
    (rest : ∀ a used now, M a used now →
      Takes (n - used.length) now (next a) fun b more then' => R b (used ++ more) then') :
    Takes n t (r >>= next) R := by
  intro c hc ht hn b d hr
  dsimp only [bind] at hr
  cases hfirst : r c with
  | failed error loose =>
    rw [hfirst] at hr
    cases hr
  | done a mid =>
    rw [hfirst] at hr
    obtain ⟨used, htokens, hfault, hm⟩ := first c hc ht hn a mid hfirst
    have hmid : Sealed mid.fault mid.tokens := by
      rw [htokens, ← hfault] at hc
      exact hc.of_append (List.cons_ne_nil _ _)
    have hlength : mid.ahead.length < n - used.length := by
      have := congrArg List.length htokens
      simp only [Cursor.tokens, List.length_append, List.length_cons] at this
      omega
    obtain ⟨more, hmore, hfault', hr'⟩ := rest a used _ hm mid hmid rfl hlength b d hr
    exact ⟨used ++ more, by rw [htokens, hmore, List.append_assoc], hfault'.trans hfault, hr'⟩

theorem takes_fail {fault : Fault} : Takes n t (fail fault : Reader α) M := by
  intro c _ _ _ a rest hr
  cases hr

theorem takes_failAt {fault : Fault} {span : Span} :
    Takes n t (failAt fault span : Reader α) M := by
  intro c _ _ _ a rest hr
  cases hr

theorem takes_missing {wanted : Wanted} : Takes n t (missing wanted : Reader α) M := by
  intro c _ _ _ a rest hr
  cases hr

theorem takes_holdingAll {trees : List Tree} (h : Takes n t r M) :
    Takes n t (holdingAll trees r) M := by
  intro c hc ht hn a rest hr
  cases hread : r c with
  | failed error loose => simp [holdingAll, hread] at hr
  | done b d =>
    simp only [holdingAll, hread, Outcome.done.injEq] at hr
    obtain ⟨rfl, rfl⟩ := hr
    exact h c hc ht hn _ _ hread

theorem takes_holding {tree : Tree} (h : Takes n t r M) : Takes n t (holding tree r) M :=
  @takes_holdingAll _ _ _ _ _ [tree] h

theorem takes_ite {b : Prop} [Decidable b] {s : Reader α} (hr : b → Takes n t r M)
    (hs : ¬ b → Takes n t s M) : Takes n t (if b then r else s) M := by
  by_cases h : b
  · simpa only [if_pos h] using hr h
  · simpa only [if_neg h] using hs h

theorem takes_current {next : Token → Reader β} (h : Takes n t (next t) R) :
    Takes n t (current >>= next) R := by
  rintro c hc rfl
  exact h c hc rfl

theorem takes_isAt {kind : TokenKind} {next : Bool → Reader β}
    (yes : t.kind = kind → Takes n t (next true) R)
    (no : t.kind ≠ kind → Takes n t (next false) R) : Takes n t (isAt kind >>= next) R := by
  rintro c hc rfl hn a rest hr
  change next (decide (c.current.kind = kind)) c = _ at hr
  by_cases h : c.current.kind = kind
  · rw [decide_eq_true h] at hr
    exact yes h c hc rfl hn a rest hr
  · rw [decide_eq_false h] at hr
    exact no h c hc rfl hn a rest hr

theorem takes_following {next : TokenKind → Reader β} (h : ∀ kind, Takes n t (next kind) R) :
    Takes n t (following >>= next) R := by
  intro c hc ht hn a rest hr
  obtain ⟨now, ahead, fault⟩ := c
  cases ahead with
  | nil =>
    cases fault with
    | some error => cases hr
    | none => exact h _ _ hc ht hn a rest hr
  | cons token more => exact h _ _ hc ht hn a rest hr

/-- Anything but the end of input is taken. -/
theorem takes_advance (ht : t.kind ≠ .endOfInput) :
    Takes n t advance fun token used _ => token = t ∧ used = [t] := by
  rintro c hc rfl - a rest hr
  obtain ⟨now, ahead, fault⟩ := c
  cases ahead with
  | nil =>
    rw [Cursor.tokens, Sealed, if_neg ht] at hc
    cases fault with
    | some error => cases hr
    | none => exact absurd rfl hc
  | cons next more =>
    cases hr
    exact ⟨[now], rfl, rfl, rfl, rfl⟩

theorem takes_eat {kind : TokenKind} {next : Bool → Reader β} (hkind : kind ≠ .endOfInput)
    (yes : t.kind = kind → ∀ now,
      Takes (n - 1) now (next true) fun b more then' => R b (t :: more) then')
    (no : t.kind ≠ kind → Takes n t (next false) R) : Takes n t (eat kind >>= next) R := by
  have heat : Takes n t (eat kind) fun found used now =>
      found = true ∧ t.kind = kind ∧ used = [t] ∨
        found = false ∧ t.kind ≠ kind ∧ used = [] ∧ now = t := by
    refine takes_isAt (fun h => ?_) fun h => takes_pure (.inr ⟨rfl, h, rfl, rfl⟩)
    refine takes_bind (takes_advance (h ▸ hkind)) ?_
    rintro _ _ now ⟨rfl, rfl⟩
    exact takes_pure (.inl ⟨rfl, h, rfl⟩)
  refine takes_bind heat ?_
  rintro _ _ now (⟨rfl, h, rfl⟩ | ⟨rfl, h, rfl, rfl⟩)
  · exact yes h now
  · exact no h

theorem takes_expect {kind : TokenKind} {wanted : Wanted} (hkind : kind ≠ .endOfInput) :
    Takes n t (expect kind wanted) fun token used _ => token.kind = kind ∧ used = [token] := by
  refine takes_isAt (fun h => ?_) fun _ => takes_missing
  refine (takes_advance (h ▸ hkind)).imp ?_
  rintro token used - ⟨rfl, rfl⟩
  exact ⟨h, rfl⟩

theorem takes_perToken {loop : Nat → Reader α} (h : ∀ fuel, Takes fuel t (loop fuel) M) :
    Takes n t (perToken loop) M :=
  fun c hc ht _ => h (c.ahead.length + 1) c hc ht (Nat.lt_succ_self _)

/-- Wherever it starts, a reader of trees takes what its answer is derived from. -/
def Reads (part : Part) (r : Reader Tree) : Prop :=
  ∀ n t, Takes n t r fun tree used _ => Derives part used [tree]

theorem takes_separated {item : Reader Tree} {part : Part} (h : Reads part item) (fuel : Nat) :
    Takes fuel t (separated item fuel) fun trees used _ => Derives (.list part) used trees := by
  induction fuel generalizing t with
  | zero => exact fun c _ _ hn => absurd hn (Nat.not_lt_zero _)
  | succ fuel ih =>
    refine takes_bind (h _ _) fun first used now hfirst => takes_holding ?_
    refine takes_eat nofun (fun hcomma now => ?_) fun _ => ?_
    · refine takes_bind (ih.mono (by omega)) fun rest more next hrest => takes_pure ?_
      simpa using .comma hfirst hcomma hrest
    · exact takes_pure (by simpa using .last hfirst)

theorem takes_upTo {closing : TokenKind} {wanted : Wanted} {item : Reader Tree}
    (h : Reads .statement item) (fuel : Nat) :
    Takes fuel t (upTo closing wanted item fuel)
      fun trees used next => next.kind = closing ∧ Derives .statements used trees := by
  induction fuel generalizing t with
  | zero => exact fun c _ _ hn => absurd hn (Nat.not_lt_zero _)
  | succ fuel ih =>
    refine takes_isAt (fun hclosing => takes_pure ⟨hclosing, .nothing⟩) fun _ => ?_
    refine takes_isAt (fun _ => takes_missing) fun _ => ?_
    refine takes_bind (h _ _) fun first used now hfirst => ?_
    have hused := List.length_pos_iff.mpr (hfirst.ne_nil rfl)
    refine takes_bind (takes_holding (ih.mono (by omega))) fun rest more next hrest => ?_
    exact takes_pure ⟨hrest.1, by simpa using .more hfirst hrest.2⟩

theorem bind_eq_done_iff {r : Reader α} {next : α → Reader β} {c d : Cursor} {b : β} :
    (r >>= next) c = .done b d ↔ ∃ a e, r c = .done a e ∧ next a e = .done b d := by
  dsimp only [bind]
  constructor
  · intro h
    cases hr : r c with
    | failed => simp [hr] at h
    | done a e => exact ⟨a, e, rfl, by simpa [hr] using h⟩
  · rintro ⟨a, e, hr, h⟩
    rw [hr]
    exact h

theorem holding_eq_done_iff {tree : Tree} {r : Reader α} {c d : Cursor} {a : α} :
    holding tree r c = .done a d ↔ r c = .done a d := by
  change holdingAll [tree] r c = .done a d ↔ _
  dsimp only [holdingAll]
  cases r c <;> simp

theorem holding_of_failed {tree : Tree} {r : Reader α} {c : Cursor} {error : SyntaxError}
    {loose : List Tree} (h : r c = .failed error loose) :
    holding tree r c = .failed error (tree :: loose) := by
  change holdingAll [tree] r c = _
  rw [holdingAll, h]
  rfl

theorem isAt_bind (kind : TokenKind) (next : Bool → Reader β) (c : Cursor) :
    (isAt kind >>= next) c = if c.current.kind = kind then next true c else next false c := by
  change next (decide (c.current.kind = kind)) c = _
  by_cases h : c.current.kind = kind
  · rw [if_pos h, decide_eq_true h]
  · rw [if_neg h, decide_eq_false h]

theorem eat_bind (kind : TokenKind) (next : Bool → Reader β) (c : Cursor) :
    (eat kind >>= next) c =
      if c.current.kind = kind then (advance >>= fun _ => next true) c else next false c := by
  have heat : eat kind c = if c.current.kind = kind then (advance >>= fun _ => pure true) c
      else .done false c := isAt_bind kind _ c
  dsimp only [bind] at heat ⊢
  rw [heat]
  by_cases h : c.current.kind = kind
  · rw [if_pos h, if_pos h]
    cases advance c <;> rfl
  · rw [if_neg h, if_neg h]

/-- One round of the loop that goes on up to a closing token. -/
theorem upTo_succ (closing : TokenKind) (wanted : Wanted) (item : Reader Tree) (fuel : Nat)
    (c : Cursor) :
    upTo closing wanted item (fuel + 1) c =
      if c.current.kind = closing then .done [] c
      else if c.current.kind = .endOfInput then missing wanted c
      else (item >>= fun first => holding first (upTo closing wanted item fuel) >>= fun rest =>
        pure (first :: rest)) c := by
  refine (isAt_bind closing _ c).trans ?_
  congr 1
  exact isAt_bind .endOfInput _ c

variable {c d : Cursor}

/-- A solid part takes a token. -/
theorem Reads.length_lt {part : Part} {r : Reader Tree} {tree : Tree} (h : Reads part r)
    (hsolid : part.isSolid) (hc : Sealed c.fault c.tokens) (hr : r c = .done tree d) :
    d.ahead.length < c.ahead.length := by
  obtain ⟨used, htokens, -, hused⟩ := h _ _ c hc rfl (Nat.lt_succ_self _) tree d hr
  have hpos := List.length_pos_iff.mpr (hused.ne_nil hsolid)
  have hlength := congrArg List.length htokens
  simp only [Cursor.tokens, List.length_append, List.length_cons] at hlength
  omega

theorem Reads.sealed {part : Part} {r : Reader Tree} {tree : Tree} (h : Reads part r)
    (hc : Sealed c.fault c.tokens) (hr : r c = .done tree d) : Sealed d.fault d.tokens := by
  obtain ⟨used, htokens, hfault, -⟩ := h _ _ c hc rfl (Nat.lt_succ_self _) tree d hr
  rw [htokens, ← hfault] at hc
  exact hc.of_append (List.cons_ne_nil _ _)

theorem length_advance_lt {a : Token} (hc : Sealed c.fault c.tokens)
    (hne : c.current.kind ≠ .endOfInput) (h : advance c = .done a d) :
    d.ahead.length < c.ahead.length := by
  obtain ⟨used, htokens, -, rfl, rfl⟩ := takes_advance hne c hc rfl (Nat.lt_succ_self _) a d h
  have hlength := congrArg List.length htokens
  simp only [Cursor.tokens, List.length_append, List.length_cons, List.length_nil] at hlength
  omega

end Reader

end RefCheck.Script
