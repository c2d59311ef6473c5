import RefCheck.Proofs.Script.Printing
import RefCheck.Proofs.Script.Taking

/-!
# How a reader passes over words

`Passes before r after Q` says that `r`, started where the words `before` are left, goes on to where
the words `after` are left and answers with a value that has `Q`, or else fails because the nesting
is too deep. Where tokens stand does not matter for this, as no reader looks at spans. The rules are
those of the readers, as for what a reader takes, but here they show that an answer is there.
-/

namespace RefCheck.Script

open RefCheck.Text

/-- The tokens that may stand behind an expression. -/
def TokenKind.isEnd : TokenKind → Bool
  | closeParen | comma | semicolon => true
  | _ => false

/-- The tokens that a statement may start with. -/
def TokenKind.isStart : TokenKind → Bool
  | closeBrace | elseWord | endOfInput => false
  | _ => true

def Cursor.words (c : Cursor) : List Word := c.tokens.map Token.word

namespace Reader

variable {α β : Type}

def Passes (before : List Word) (r : Reader α) (after : List Word) (Q : α → Prop) : Prop :=
  ∀ c : Cursor, c.fault = none → c.words = before →
    (∃ a rest, r c = .done a rest ∧ rest.fault = none ∧ rest.words = after ∧ Q a) ∨
      ∃ error loose, r c = .failed error loose ∧ error.fault = .nestedTooDeeply

variable {r : Reader α} {Q : α → Prop} {R : β → Prop} {w v : Word} {ws us vs : List Word}

theorem Passes.imp {Q' : α → Prop} (h : Passes ws r us Q) (himp : ∀ a, Q a → Q' a) :
    Passes ws r us Q' := by
  intro c hc hws
  rcases h c hc hws with ⟨a, rest, hr, hrest, hus, ha⟩ | hdeep
  · exact .inl ⟨a, rest, hr, hrest, hus, himp a ha⟩
  · exact .inr hdeep

theorem passes_pure {a : α} (ha : Q a) : Passes ws (pure a : Reader α) ws Q :=
  fun c hc hws => .inl ⟨a, c, rfl, hc, hws, ha⟩

theorem passes_bind {next : α → Reader β} (first : Passes ws r us Q)
    (rest : ∀ a, Q a → Passes us (next a) vs R) : Passes ws (r >>= next) vs R := by
  intro c hc hws
  dsimp only [bind]
  rcases first c hc hws with ⟨a, mid, hr, hmid, hus, ha⟩ | ⟨error, loose, hr, hdeep⟩
  · rw [hr]
    exact rest a ha mid hmid hus
  · rw [hr]
    exact .inr ⟨error, loose, rfl, hdeep⟩

theorem passes_tooDeeply : Passes ws (fail .nestedTooDeeply : Reader α) us Q :=
  fun _ _ _ => .inr ⟨_, _, rfl, rfl⟩

theorem passes_holdingAll {trees : List Tree} (h : Passes ws r us Q) :
    Passes ws (holdingAll trees r) us Q := by
  intro c hc hws
  rcases h c hc hws with ⟨a, rest, hr, hdone⟩ | ⟨error, loose, hr, hdeep⟩
  · exact .inl ⟨a, rest, by rw [holdingAll, hr], hdone⟩
  · exact .inr ⟨error, trees ++ loose, by rw [holdingAll, hr], hdeep⟩

theorem passes_holding {tree : Tree} (h : Passes ws r us Q) : Passes ws (holding tree r) us Q :=
  @passes_holdingAll _ _ _ _ _ [tree] h

theorem passes_current {next : Token → Reader β}
    (h : ∀ t : Token, t.word = w → Passes (w :: ws) (next t) us R) :
    Passes (w :: ws) (current >>= next) us R := by
  intro c hc hws
  exact h c.current (List.cons.inj hws).1 c hc hws

theorem passes_isAt {kind : TokenKind} {next : Bool → Reader β}
    (h : Passes (w :: ws) (next (decide (w.kind = kind))) us R) :
    Passes (w :: ws) (isAt kind >>= next) us R := by
  intro c hc hws
  have hkind : c.current.kind = w.kind := congrArg Word.kind (List.cons.inj hws).1
  rw [← hkind] at h
  exact h c hc hws

theorem passes_following {next : TokenKind → Reader β}
    (h : Passes (w :: v :: ws) (next v.kind) us R) :
    Passes (w :: v :: ws) (following >>= next) us R := by
  intro c hc hws
  obtain ⟨now, ahead, fault⟩ := c
  cases ahead with
  | nil => cases hws
  | cons token more =>
    have hkind : token.kind = v.kind := congrArg Word.kind (List.cons.inj (List.cons.inj hws).2).1
    rw [← hkind] at h
    exact h _ hc hws

theorem passes_advance (hne : ws ≠ []) : Passes (w :: ws) advance ws fun t => t.word = w := by
  intro c hc hws
  obtain ⟨now, ahead, fault⟩ := c
  obtain ⟨hw, hmore⟩ := List.cons.inj hws
  cases ahead with
  | nil => exact absurd hmore.symm hne
  | cons token more => exact .inl ⟨now, ⟨token, more, fault⟩, rfl, hc, hmore, hw⟩

theorem passes_expect {kind : TokenKind} {wanted : Wanted} (hkind : w.kind = kind)
    (hne : ws ≠ []) : Passes (w :: ws) (expect kind wanted) ws fun t => t.word = w := by
  refine passes_isAt ?_
  rw [decide_eq_true hkind]
  exact passes_advance hne

theorem passes_eat {kind : TokenKind} {next : Bool → Reader β} (hkind : w.kind = kind)
    (hne : ws ≠ []) (h : Passes ws (next true) us R) :
    Passes (w :: ws) (eat kind >>= next) us R := by
  have heat : Passes (w :: ws) (eat kind) ws fun found => found = true := by
    refine passes_isAt ?_
    rw [decide_eq_true hkind]
    exact passes_bind (passes_advance hne) fun _ _ => passes_pure rfl
  refine passes_bind heat ?_
  rintro _ rfl
  exact h

theorem passes_eat_other {kind : TokenKind} {next : Bool → Reader β} (hkind : w.kind ≠ kind)
    (h : Passes (w :: ws) (next false) us R) : Passes (w :: ws) (eat kind >>= next) us R := by
  have heat : Passes (w :: ws) (eat kind) (w :: ws) fun found => found = false := by
    refine passes_isAt ?_
    rw [decide_eq_false hkind]
    exact passes_pure rfl
  refine passes_bind heat ?_
  rintro _ rfl
  exact h

theorem passes_perToken {loop : Nat → Reader α} (h : Passes ws (loop ws.length) us Q) :
    Passes ws (perToken loop) us Q := by
  intro c hc hws
  have hlength : c.ahead.length + 1 = ws.length := by
    rw [← hws, Cursor.words, List.length_map]
    rfl
  rw [perToken_apply, hlength]
  exact h c hc hws

/-- What a reader answers with for a tree that was printed: the same tree but for its spans. -/
abbrev Rereads (before : List Word) (r : Reader Tree) (after : List Word) (t : Tree) : Prop :=
  Passes before r after fun a => a.bare = t.bare

variable {item : Reader Tree} {trees : List Tree}

/-- Printed items with commas between them are read one by one. -/
theorem passes_separated (hne : trees ≠ [])
    (hitem : ∀ t ∈ trees, ∀ w ws, w.kind.isEnd → Rereads (t.enclosed ++ w :: ws) item (w :: ws) t)
    (hend : w.kind.isEnd) (hcomma : w.kind ≠ .comma) {fuel : Nat} (hfuel : trees.length ≤ fuel) :
    Passes (listWords trees ++ w :: ws) (separated item fuel) (w :: ws)
      fun as => as.map Tree.bare = trees.map Tree.bare := by
  induction trees generalizing fuel with
  | nil => exact absurd rfl hne
  | cons t rest ih =>
    obtain ⟨ht, hrest⟩ := List.forall_mem_cons.mp hitem
    cases fuel with
    | zero => cases hfuel
    | succ fuel =>
      cases rest with
      | nil =>
        refine passes_bind (ht w ws hend) fun a ha => passes_holding ?_
        exact passes_eat_other hcomma (passes_pure (by simp [ha]))
      | cons next more =>
        have hmore := ih (List.cons_ne_nil _ _) hrest (Nat.le_of_succ_le_succ hfuel)
        rw [listWords_cons, List.append_assoc, List.cons_append]
        refine passes_bind (ht _ _ rfl) fun a ha => passes_holding ?_
        refine passes_eat rfl (by simp) (passes_bind hmore fun as has => passes_pure ?_)
        simp only [List.map_cons, ha, has]

/-- So many rounds as there are words are enough. -/
theorem passes_items (hne : trees ≠ [])
    (hitem : ∀ t ∈ trees, ∀ w ws, w.kind.isEnd → Rereads (t.enclosed ++ w :: ws) item (w :: ws) t)
    (hend : w.kind.isEnd) (hcomma : w.kind ≠ .comma) :
    Passes (listWords trees ++ w :: ws) (perToken (separated item)) (w :: ws)
      fun as => as.map Tree.bare = trees.map Tree.bare := by
  refine passes_perToken (passes_separated hne hitem hend hcomma ?_)
  have := length_listWords trees
  simp only [List.length_append, List.length_cons]
  omega

/-- There are items unless the closing parenthesis is there at once. -/
theorem passes_isAt_items {next : Bool → Reader β}
    (hhead : ∀ t ∈ trees, ∃ v vs, t.enclosed = v :: vs ∧ v.kind ≠ .closeParen)
    (hnone : trees = [] → Passes (.of .closeParen :: ws) (next true) us R)
    (hsome : trees ≠ [] →
      Passes (listWords trees ++ .of .closeParen :: ws) (next false) us R) :
    Passes (listWords trees ++ .of .closeParen :: ws) (isAt .closeParen >>= next) us R := by
  cases trees with
  | nil => exact passes_isAt (hnone rfl)
  | cons t rest =>
    obtain ⟨v, vs, hvs, hv⟩ := (List.forall_mem_cons.mp hhead).1
    obtain ⟨more, hmore⟩ : ∃ more, listWords (t :: rest) = v :: more := by
      cases rest with
      | nil => exact ⟨vs, hvs⟩
      | cons u rest => exact ⟨_, by rw [listWords_cons, hvs, List.cons_append]⟩
    have hitems := hsome (List.cons_ne_nil _ _)
    rw [hmore] at hitems ⊢
    refine passes_isAt ?_
    rwa [decide_eq_false hv]

/-- What stands behind a statement, the next one or the end of all, starts without an `else`. -/
theorem exists_behind (hstart : ∀ t ∈ trees, ∃ v vs, t.words = v :: vs ∧ v.kind.isStart)
    (hclosing : w.kind = .closeBrace ∨ w.kind = .endOfInput) :
    ∃ u us, statementWords trees ++ w :: ws = u :: us ∧ u.kind ≠ .elseWord := by
  cases trees with
  | nil => exact ⟨w, ws, rfl, by rcases hclosing with h | h <;> rw [h] <;> decide⟩
  | cons next more =>
    obtain ⟨⟨u, us, hnext, hu⟩, -⟩ := List.forall_mem_cons.mp hstart
    refine ⟨u, us ++ statementWords more ++ w :: ws, by simp [statementWords, hnext], ?_⟩
    intro h
    rw [h] at hu
    cases hu

/-- Printed statements are read one by one. -/
theorem passes_upTo {wanted : Wanted}
    (hstart : ∀ t ∈ trees, ∃ v vs, t.words = v :: vs ∧ v.kind.isStart)
    (hitem : ∀ t ∈ trees, ∀ w ws, w.kind ≠ .elseWord →
      Rereads (t.words ++ w :: ws) item (w :: ws) t)
    (hclosing : w.kind = .closeBrace ∨ w.kind = .endOfInput) {fuel : Nat}
    (hfuel : trees.length < fuel) :
    Passes (statementWords trees ++ w :: ws) (upTo w.kind wanted item fuel) (w :: ws)
      fun as => as.map Tree.bare = trees.map Tree.bare := by
  induction trees generalizing fuel with
  | nil =>
    cases fuel with
    | zero => cases hfuel
    | succ fuel =>
      refine passes_isAt ?_
      rw [decide_eq_true rfl]
      exact passes_pure rfl
  | cons t rest ih =>
    obtain ⟨⟨v, vs, ht, hv⟩, hstarts⟩ := List.forall_mem_cons.mp hstart
    obtain ⟨hread, hreads⟩ := List.forall_mem_cons.mp hitem
    cases fuel with
    | zero => cases hfuel
    | succ fuel =>
      have hrest := ih hstarts hreads (Nat.lt_of_succ_lt_succ hfuel)
      obtain ⟨u, us, hu, helse⟩ := exists_behind hstarts hclosing
      have hhead : v.kind ≠ w.kind ∧ v.kind ≠ .endOfInput := by
        constructor <;> intro h <;> rw [h] at hv
        · rcases hclosing with h | h <;> rw [h] at hv <;> cases hv
        · cases hv
      have hwords : statementWords (t :: rest) ++ w :: ws = t.words ++ u :: us := by
        rw [statementWords, List.append_assoc, hu]
      rw [hu] at hrest
      rw [hwords]
      have hbody := hread u us helse
      rw [ht] at hbody ⊢
      refine passes_isAt ?_
      rw [decide_eq_false hhead.1]
      refine passes_isAt ?_
      rw [decide_eq_false hhead.2]
      refine passes_bind hbody fun a ha => ?_
      refine passes_bind (passes_holding hrest) fun as has => passes_pure ?_
      simp only [List.map_cons, ha, has]

end Reader

end RefCheck.Script
