import RefCheck.Proofs.Script.Moving

/-!
# Reading up to a seam

Tokens that can be read on their own are put in front of others, some bytes further on. A reader
that has an answer on the tokens alone has the same one there, moved, and leaves off at the same
token. Only a statement that goes up to the end may differ: a semicolon there becomes its end.
`Keeps` says this of two outcomes, with one rule for each way in which readers are put together.
-/

namespace RefCheck.Script

open RefCheck.Text Reader

/-- The kinds of statements that end with the statement below them. -/
def NodeKind.endsBelow : NodeKind → Bool
  | .ifElse | .label | .block => true
  | _ => false

mutual

/-- A statement that reaches over a span as well, and with it the statement that it ends with. -/
def Tree.extended (reach : Span) : Tree → Tree
  | .node kind text span children =>
    .node kind text (span.to reach)
      (if kind.endsBelow then forestExtended reach children else children)

def forestExtended (reach : Span) : List Tree → List Tree
  | [] => []
  | t :: rest => if rest.isEmpty then [t.extended reach] else t :: forestExtended reach rest

end

section Extended

variable {reach : Span}

theorem forestExtended_append (init : List Tree) (last : Tree) :
    forestExtended reach (init ++ [last]) = init ++ [last.extended reach] := by
  induction init with
  | nil => rfl
  | cons t rest ih =>
    rw [List.cons_append, forestExtended, if_neg (by simp), ih, List.cons_append]

@[simp] theorem Tree.kind_extended (t : Tree) : (t.extended reach).kind = t.kind := by
  cases t
  rw [Tree.extended]
  rfl

@[simp] theorem Tree.span_extended (t : Tree) : (t.extended reach).span = t.span.to reach := by
  cases t
  rw [Tree.extended]
  rfl

/-- Nothing but spans is changed. -/
theorem bare_extended (t : Tree) : (t.extended reach).bare = t.bare := by
  induction t with
  | node kind text span children ih =>
    rw [Tree.extended, bare_node, bare_node]
    split
    · rcases List.eq_nil_or_concat children with rfl | ⟨init, last, rfl⟩
      · rfl
      · rw [List.concat_eq_append] at ih ⊢
        rw [forestExtended_append, List.map_append, List.map_append, List.map_singleton,
          List.map_singleton, ih last (List.mem_append_right _ List.mem_cons_self)]
    · rfl

theorem extended_finished {kind : NodeKind} (hkind : kind.endsBelow = false) (span : Span)
    (children : List Tree) :
    (Tree.branch kind span children).extended reach = .branch kind (span.to reach) children := by
  rw [Tree.branch, Tree.extended, hkind]
  rfl

theorem extended_around {kind : NodeKind} (hkind : kind.endsBelow) (span : Span)
    (init : List Tree) (last : Tree) :
    (Tree.branch kind span (init ++ [last])).extended reach =
      .branch kind (span.to reach) (init ++ [last.extended reach]) := by
  rw [Tree.branch, Tree.extended, if_pos hkind, forestExtended_append]
  rfl

end Extended

/-- What stands in the place of the end of input: the end again, or a semicolon in front of other
tokens, the first of which is no `else`. -/
structure Seam where
  shift : Nat
  mark : Token
  behind : List Token
  closes : mark.kind = .endOfInput ∨
    mark.kind = .semicolon ∧ ∃ next more, behind = next :: more ∧ next.kind ≠ .elseWord

namespace Seam

variable {seam : Seam} {c c' d d' : Cursor}

/-- Two cursors as far from the end of the tokens alone and from the mark. -/
inductive Before (seam : Seam) : Cursor → Cursor → Prop
  | ends {last : Token} : last.kind = .endOfInput →
      seam.Before ⟨last, [], none⟩ ⟨seam.mark, seam.behind, none⟩
  | goes {t : Token} {c c' : Cursor} : t.kind ≠ .endOfInput → seam.Before c c' →
      seam.Before ⟨t, c.tokens, c.fault⟩ ⟨t.moved seam.shift, c'.tokens, c'.fault⟩

/-- The tokens alone are at their end, and the others behind the semicolon. -/
structure Past (seam : Seam) (c c' : Cursor) : Prop where
  ended : c.current.kind = .endOfInput
  mark : seam.mark.kind = .semicolon
  tokens : c'.tokens = seam.behind
  fault : c'.fault = none

theorem Before.current (h : seam.Before c c') (hc : c.current.kind ≠ .endOfInput) :
    c'.current = c.current.moved seam.shift := by
  cases h with
  | ends hend => exact absurd hend hc
  | goes => rfl

theorem Before.mark (h : seam.Before c c') (hc : c.current.kind = .endOfInput) :
    c' = ⟨seam.mark, seam.behind, none⟩ := by
  cases h with
  | ends => rfl
  | goes hne => exact absurd hc hne

theorem Before.length (h : seam.Before c c') :
    c'.ahead.length = c.ahead.length + seam.behind.length := by
  induction h with
  | ends => simp
  | goes _ _ ih => simp only [Cursor.tokens, List.length_cons, ih, Nat.add_right_comm]

theorem Before.sealed (h : seam.Before c c') : Sealed c.fault c.tokens := by
  induction h with
  | ends hend => exact (if_pos hend).mpr ⟨rfl, rfl⟩
  | goes hne _ ih => exact (if_neg hne).mpr ih

/-- The seam of tokens that are put in front of others. -/
theorem Before.of_tokens {ts : List Token} {last : Token} (htokens : c.tokens = ts ++ [last])
    (hfault : c.fault = none) (hts : ∀ t ∈ ts, t.kind ≠ .endOfInput)
    (hlast : last.kind = .endOfInput)
    (htokens' : c'.tokens = ts.map (Token.moved seam.shift) ++ seam.mark :: seam.behind)
    (hfault' : c'.fault = none) : seam.Before c c' := by
  obtain ⟨now, ahead, fault⟩ := c
  obtain ⟨now', ahead', fault'⟩ := c'
  obtain rfl : fault = none := hfault
  obtain rfl : fault' = none := hfault'
  induction ts generalizing now ahead now' ahead' with
  | nil =>
    cases htokens
    cases htokens'
    exact .ends hlast
  | cons t rest ih =>
    obtain ⟨ht, hrest⟩ := List.forall_mem_cons.mp hts
    obtain ⟨rfl, hahead : ahead = rest ++ [last]⟩ := List.cons.inj htokens
    obtain ⟨rfl, hahead' : ahead' = _⟩ := List.cons.inj htokens'
    cases ahead with
    | nil => exact absurd hahead.symm (by simp)
    | cons next more =>
      cases ahead' with
      | nil => exact absurd hahead'.symm (by simp)
      | cons next' more' => exact .goes ht (ih hrest next more next' more' hahead hahead')

/-- Only of a semicolon and of the end can a reader tell the two apart. -/
theorem Before.kind_iff (h : seam.Before c c') {kind : TokenKind} (hend : kind ≠ .endOfInput)
    (hsemicolon : kind ≠ .semicolon) : c'.current.kind = kind ↔ c.current.kind = kind := by
  by_cases hc : c.current.kind = .endOfInput
  · rw [h.mark hc, hc]
    refine iff_of_false (fun hmark => ?_) hend.symm
    rcases seam.closes with hcloses | ⟨hcloses, -⟩
    · exact hend (hmark.symm.trans hcloses)
    · exact hsemicolon (hmark.symm.trans hcloses)
  · rw [h.current hc, Token.kind_moved]

theorem Past.kind_ne_elseWord (h : seam.Past c c') : c'.current.kind ≠ .elseWord := by
  rcases seam.closes with hend | ⟨-, next, more, hbehind, hkind⟩
  · exact absurd (h.mark.symm.trans hend) nofun
  · obtain ⟨rfl, -⟩ := List.cons.inj (h.tokens.trans hbehind)
    exact hkind

section Readers

variable {α β : Type}

/-- If there is an answer on the tokens alone, there is one on the others, and both readers are
before the seam and the answer is the same but for a change, or the second one is past it. -/
inductive Keeps (seam : Seam) (change : α → α) (V : α → α → Prop) : Outcome α → Outcome α → Prop
  | failed {error : SyntaxError} {loose : List Tree} {found : Outcome α} :
      seam.Keeps change V (.failed error loose) found
  | before {a : α} {d d' : Cursor} : seam.Before d d' →
      seam.Keeps change V (.done a d) (.done (change a) d')
  | past {a b : α} {d d' : Cursor} : seam.Past d d' → V a b →
      seam.Keeps change V (.done a d) (.done b d')

/-- The same for a reader that does not get past the seam. -/
abbrev Tracks (seam : Seam) (change : α → α) : Outcome α → Outcome α → Prop :=
  seam.Keeps change fun _ _ => False

variable {change : α → α} {V : α → α → Prop} {change' : β → β} {W : β → β → Prop}
  {r r' s s' : Reader α} {next next' : α → Reader β}

theorem Keeps.of_not_done {found : Outcome α} (h : ∀ a d, r c ≠ .done a d) :
    seam.Keeps change V (r c) found := by
  cases hr : r c with
  | failed => exact .failed
  | done a d => exact absurd hr (h a d)

theorem Tracks.keeps {o o' : Outcome α} (h : seam.Tracks change o o') :
    seam.Keeps change V o o' := by
  cases h with
  | failed => exact .failed
  | before hd => exact .before hd
  | past _ hv => exact hv.elim

theorem keeps_pure {a b : α} (h : seam.Before c c') (hb : b = change a) :
    seam.Keeps change V ((pure a : Reader α) c) ((pure b : Reader α) c') :=
  hb ▸ .before h

theorem keeps_bind (first : seam.Keeps change V (r c) (r' c'))
    (before : ∀ a d d', r c = .done a d → seam.Before d d' →
      seam.Keeps change' W (next a d) (next' (change a) d'))
    (past : ∀ a b d d', r c = .done a d → seam.Past d d' → V a b →
      seam.Keeps change' W (next a d) (next' b d')) :
    seam.Keeps change' W ((r >>= next) c) ((r' >>= next') c') := by
  dsimp only [bind]
  cases hr : r c with
  | failed => exact .failed
  | done a d =>
    rw [hr] at first
    generalize r' c' = found at first
    cases first with
    | before hd => exact before a d _ hr hd
    | past hd hv => exact past a _ d _ hr hd hv

theorem tracks_bind (first : seam.Tracks change (r c) (r' c'))
    (before : ∀ a d d', r c = .done a d → seam.Before d d' →
      seam.Keeps change' W (next a d) (next' (change a) d')) :
    seam.Keeps change' W ((r >>= next) c) ((r' >>= next') c') :=
  keeps_bind first before fun _ _ _ _ _ _ => False.elim

theorem keeps_holdingAll {trees trees' : List Tree} (h : seam.Keeps change V (r c) (r' c')) :
    seam.Keeps change V (holdingAll trees r c) (holdingAll trees' r' c') := by
  change seam.Keeps change V (Reader.holdingAll trees r c) (Reader.holdingAll trees' r' c')
  dsimp only [Reader.holdingAll]
  generalize r c = o at h
  generalize r' c' = o' at h
  cases h with
  | failed => exact .failed
  | before hd => exact .before hd
  | past hd hv => exact .past hd hv

theorem keeps_holding {tree tree' : Tree} (h : seam.Keeps change V (r c) (r' c')) :
    seam.Keeps change V (holding tree r c) (holding tree' r' c') :=
  @keeps_holdingAll _ _ _ _ _ _ _ _ [tree] [tree'] h

theorem keeps_ite {p p' : Prop} [Decidable p] [Decidable p'] (hp : p' ↔ p)
    (yes : p → seam.Keeps change V (r c) (r' c')) (no : ¬ p → seam.Keeps change V (s c) (s' c')) :
    seam.Keeps change V ((if p then r else s) c) ((if p' then r' else s') c') := by
  by_cases h : p
  · rw [if_pos h, if_pos (hp.mpr h)]
    exact yes h
  · rw [if_neg h, if_neg (mt hp.mp h)]
    exact no h

variable {kind : TokenKind}

theorem keeps_current {next next' : Token → Reader β}
    (h : seam.Keeps change' W (next c.current c) (next' c'.current c')) :
    seam.Keeps change' W ((current >>= next) c) ((current >>= next') c') := h

theorem keeps_isAt {next next' : Bool → Reader β}
    (hkind : c'.current.kind = kind ↔ c.current.kind = kind)
    (yes : c.current.kind = kind → seam.Keeps change' W (next true c) (next' true c'))
    (no : c.current.kind ≠ kind → seam.Keeps change' W (next false c) (next' false c')) :
    seam.Keeps change' W ((isAt kind >>= next) c) ((isAt kind >>= next') c') := by
  rw [isAt_bind, isAt_bind]
  by_cases h : c.current.kind = kind
  · rw [if_pos h, if_pos (hkind.mpr h)]
    exact yes h
  · rw [if_neg h, if_neg (mt hkind.mp h)]
    exact no h

/-- Where a reader does not go on at the end, it does not matter that the mark is no end. -/
theorem keeps_isAt_end {next next' : Bool → Reader β} (h : seam.Before c c')
    (yes : ∀ found, seam.Keeps change' W (next true c) found)
    (no : c.current.kind ≠ .endOfInput →
      seam.Keeps change' W (next false c) (next' false c')) :
    seam.Keeps change' W ((isAt .endOfInput >>= next) c) ((isAt .endOfInput >>= next') c') := by
  by_cases hc : c.current.kind = .endOfInput
  · rw [isAt_bind, if_pos hc]
    exact yes _
  · refine keeps_isAt ?_ (fun hend => absurd hend hc) no
    rw [h.current hc, Token.kind_moved]

/-- Whether a colon follows does not depend on what stands behind the seam. -/
theorem keeps_following (h : seam.Before c c') (hc : c.current.kind ≠ .endOfInput)
    {next next' : TokenKind → Reader β}
    (hnext : ∀ kind kind', (kind' = .colon ↔ kind = .colon) →
      seam.Keeps change' W (next kind c) (next' kind' c')) :
    seam.Keeps change' W ((following >>= next) c) ((following >>= next') c') := by
  cases h with
  | ends hend => exact absurd hend hc
  | @goes _ d d' _ hd => exact hnext d.current.kind d'.current.kind (hd.kind_iff nofun nofun)

theorem tracks_advance (h : seam.Before c c') (hc : c.current.kind ≠ .endOfInput) :
    seam.Tracks (Token.moved seam.shift) (advance c) (advance c') := by
  cases h with
  | ends hend => exact absurd hend hc
  | goes _ hd => exact .before hd

theorem tracks_expect {wanted : Wanted} (h : seam.Before c c') (hend : kind ≠ .endOfInput)
    (hsemicolon : kind ≠ .semicolon) :
    seam.Tracks (Token.moved seam.shift) (expect kind wanted c) (expect kind wanted c') :=
  keeps_isAt (h.kind_iff hend hsemicolon) (fun hc => tracks_advance h (hc ▸ hend))
    fun _ => .failed

theorem keeps_eat (h : seam.Before c c') (hend : kind ≠ .endOfInput)
    (hsemicolon : kind ≠ .semicolon) {next next' : Bool → Reader β}
    (yes : ∀ d d', d.ahead.length < c.ahead.length → seam.Before d d' →
      seam.Keeps change' W (next true d) (next' true d'))
    (no : seam.Keeps change' W (next false c) (next' false c')) :
    seam.Keeps change' W ((eat kind >>= next) c) ((eat kind >>= next') c') := by
  have hkind := h.kind_iff hend hsemicolon
  rw [eat_bind, eat_bind]
  by_cases hc : c.current.kind = kind
  · have hne : c.current.kind ≠ .endOfInput := hc ▸ hend
    rw [if_pos hc, if_pos (hkind.mpr hc)]
    exact tracks_bind (tracks_advance h hne) fun a d d' hadvance hd =>
      yes d d' (length_advance_lt h.sealed hne hadvance) hd
  · rw [if_neg hc, if_neg (mt hkind.mp hc)]
    exact no

theorem keeps_eat_other {next next' : Bool → Reader β} (hc : c.current.kind ≠ kind)
    (hc' : c'.current.kind ≠ kind) (h : seam.Keeps change' W (next false c) (next' false c')) :
    seam.Keeps change' W ((eat kind >>= next) c) ((eat kind >>= next') c') := by
  rwa [eat_bind, eat_bind, if_neg hc, if_neg hc']

/-- A reader of a part of the grammar that has the same answers before a seam, or, past it, other
ones as `V` says. -/
structure Carries (seam : Seam) (part : Part) (V : Tree → Tree → Prop) (r : Reader Tree) :
    Prop where
  reads : Reads part r
  keeps {c c' : Cursor} : seam.Before c c' →
    seam.Keeps (Tree.moved seam.shift) V (r c) (r c')

/-- What becomes of a statement that ends with the semicolon at the seam. -/
def Extends (seam : Seam) (t u : Tree) : Prop :=
  u = (t.moved seam.shift).extended seam.mark.span

/-- What becomes of the span of a statement that ends with the semicolon at the seam. -/
def Stretches (seam : Seam) (s s' : Span) : Prop :=
  s' = (s.moved seam.shift).to seam.mark.span

def Never (_ _ : Tree) : Prop := False

theorem tracks_perToken {loop loop' : Nat → Reader α} (h : seam.Before c c')
    (hloop : seam.Tracks change (loop (c.ahead.length + 1) c)
      (loop' (c.ahead.length + 1 + seam.behind.length) c')) :
    seam.Tracks change (perToken loop c) (perToken loop' c') := by
  rw [perToken_apply, perToken_apply, h.length, Nat.add_right_comm]
  exact hloop

theorem tracks_separated {item : Reader Tree} {part : Part} (hitem : seam.Carries part Never item)
    (hsolid : part.isSolid) (h : seam.Before c c') (fuel : Nat) (hfuel : c.ahead.length < fuel) :
    seam.Tracks (List.map (Tree.moved seam.shift)) (separated item fuel c)
      (separated item (fuel + seam.behind.length) c') := by
  induction fuel generalizing c c' with
  | zero => exact absurd hfuel (Nat.not_lt_zero _)
  | succ fuel ih =>
    rw [Nat.add_right_comm]
    refine tracks_bind (hitem.keeps h) fun first d d' hfirst hd => ?_
    have hless := hitem.reads.length_lt hsolid h.sealed hfirst
    refine keeps_holding (keeps_eat hd (by decide) (by decide) (fun e e' _ he => ?_) ?_)
    · exact tracks_bind (ih he (by omega)) fun rest x x' _ hx => keeps_pure hx rfl
    · exact keeps_pure hd rfl

theorem upTo_at_end {closing : TokenKind} {wanted : Wanted} {item : Reader Tree} {fuel : Nat}
    (hend : closing ≠ .endOfInput) (hc : c.current.kind = .endOfInput) (hfuel : 0 < fuel) :
    ∃ error, upTo closing wanted item fuel c = .failed error [] := by
  obtain ⟨fuel, rfl⟩ := Nat.exists_eq_add_one_of_ne_zero (Nat.ne_of_gt hfuel)
  have hclosing : c.current.kind ≠ closing := hc ▸ hend.symm
  refine ⟨⟨.missing wanted c.current, c.current.span⟩, ?_⟩
  rw [upTo_succ, if_neg hclosing, if_pos hc]
  rfl

/-- A loop that has to come to a closing token does not get past the end. -/
theorem tracks_upTo {closing : TokenKind} {wanted : Wanted} {item : Reader Tree}
    (hitem : seam.Carries .statement seam.Extends item) (hend : closing ≠ .endOfInput)
    (hsemicolon : closing ≠ .semicolon) (h : seam.Before c c') (fuel : Nat)
    (hfuel : c.ahead.length < fuel) :
    seam.Tracks (List.map (Tree.moved seam.shift)) (upTo closing wanted item fuel c)
      (upTo closing wanted item (fuel + seam.behind.length) c') := by
  induction fuel generalizing c c' with
  | zero => exact absurd hfuel (Nat.not_lt_zero _)
  | succ fuel ih =>
    rw [Nat.add_right_comm]
    refine keeps_isAt (h.kind_iff hend hsemicolon) (fun _ => keeps_pure h rfl) fun _ => ?_
    refine keeps_isAt_end h (fun _ => .failed) fun hc => ?_
    refine keeps_bind (hitem.keeps h) (fun first d d' hfirst hd => ?_)
      fun first _ d d' hfirst hd _ => ?_
    · have hless := hitem.reads.length_lt rfl h.sealed hfirst
      exact tracks_bind (keeps_holding (ih hd (by omega))) fun rest e e' _ he => keeps_pure he rfl
    · have hless := hitem.reads.length_lt rfl h.sealed hfirst
      obtain ⟨error, hfailed⟩ := @upTo_at_end d closing wanted item fuel hend hd.ended (by omega)
      dsimp only [bind]
      rw [holding_of_failed hfailed]
      exact .failed

end Readers

end Seam

end RefCheck.Script
