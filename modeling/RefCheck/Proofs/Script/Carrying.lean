import RefCheck.Proofs.Script.Seams

/-!
# The grammar at a seam

Every production has the same answers before a seam, moved. A statement that the semicolon at the
seam may end has a later end if it takes it, and nothing else gets past the seam
(`below_carried`).
-/

namespace RefCheck.Script

open RefCheck.Text Reader Seam

variable {seam : Seam} {c c' : Cursor}

section Statements

variable {statement assignment : Reader Tree}

/-- The optional semicolon is the only thing that is taken past a seam. -/
theorem keeps_finish (h : seam.Before c c') (span : Span) :
    seam.Keeps (Span.moved seam.shift) seam.Stretches (finish span c)
      (finish (span.moved seam.shift) c') := by
  by_cases hend : c.current.kind = .endOfInput
  · have hne : c.current.kind ≠ .semicolon := by simp [hend]
    have halone : finish span c = .done span c := (isAt_bind _ _ c).trans (if_neg hne)
    rw [halone, h.mark hend]
    rcases seam.closes with hcloses | ⟨hcloses, next, more, hbehind, -⟩
    · have hother : seam.mark.kind ≠ .semicolon := by simp [hcloses]
      have hmark : finish (span.moved seam.shift) ⟨seam.mark, seam.behind, none⟩ =
          .done (span.moved seam.shift) ⟨seam.mark, seam.behind, none⟩ :=
        (isAt_bind _ _ _).trans (if_neg hother)
      rw [hmark, ← h.mark hend]
      exact .before h
    · have hmark : finish (span.moved seam.shift) ⟨seam.mark, seam.behind, none⟩ =
          .done ((span.moved seam.shift).to seam.mark.span) ⟨next, more, none⟩ := by
        rw [hbehind]
        exact (isAt_bind _ _ _).trans (if_pos hcloses)
      rw [hmark]
      exact .past ⟨hend, hcloses, hbehind.symm, rfl⟩ rfl
  · refine keeps_isAt (by rw [h.current hend, Token.kind_moved]) (fun _ => ?_) fun _ =>
      keeps_pure h rfl
    exact tracks_bind (tracks_advance h hend) fun token d d' _ hd =>
      keeps_pure hd (Span.moved_to _ _ _).symm

/-- A statement around its end, moved or extended. -/
theorem keeps_finished {kind : NodeKind} (hkind : kind.endsBelow = false) {r r' : Reader Span}
    {trees : List Tree} (h : seam.Keeps (Span.moved seam.shift) seam.Stretches (r c) (r' c')) :
    seam.Keeps (Tree.moved seam.shift) seam.Extends
      ((r >>= fun span => pure (Tree.branch kind span trees)) c)
      ((r' >>= fun span =>
        pure (Tree.branch kind span (trees.map (Tree.moved seam.shift)))) c') := by
  refine keeps_bind h (fun span d d' _ hd => keeps_pure hd (moved_branch _).symm)
    fun span span' d d' _ hd hspan => .past hd ?_
  rw [Seam.Extends, moved_branch, extended_finished hkind, hspan]

theorem tracks_block (hs : seam.Carries .statement seam.Extends statement)
    (h : seam.Before c c') :
    seam.Tracks (Tree.moved seam.shift) (block statement c) (block statement c') := by
  refine tracks_bind (tracks_expect h (by decide) (by decide)) fun opening d d' _ hd => ?_
  refine tracks_bind (tracks_perToken hd (tracks_upTo hs (by decide) (by decide) hd _
    (Nat.lt_succ_self _))) fun body e e' hdone he => ?_
  obtain ⟨-, -, -, hclosing, -⟩ := takes_perToken (takes_upTo hs.reads) d hd.sealed rfl
    (Nat.lt_succ_self _) body e hdone
  have hne : e.current.kind ≠ .endOfInput := by simp [hclosing]
  exact tracks_bind (keeps_holdingAll (tracks_advance he hne)) fun closing x x' _ hx =>
    keeps_pure hx (by simp [Span.moved_to])

theorem carries_parameter : seam.Carries .name Never parameter where
  reads := reads_parameter
  keeps h := tracks_bind (tracks_expect h (by decide) (by decide)) fun token d d' _ hd =>
    keeps_pure hd (moved_toLeaf _ _).symm

theorem tracks_parameterList (h : seam.Before c c') :
    seam.Tracks (Tree.moved seam.shift) ((parameterList : Reader Tree) c)
      ((parameterList : Reader Tree) c') := by
  refine tracks_bind (tracks_expect h (by decide) (by decide)) fun opening d d' _ hd => ?_
  refine keeps_isAt (hd.kind_iff (by decide) (by decide)) (fun _ => ?_) fun _ => ?_
  · have hnone : seam.Tracks (List.map (Tree.moved seam.shift))
        ((pure [] : Reader (List Tree)) d) ((pure [] : Reader (List Tree)) d') := keeps_pure hd rfl
    refine tracks_bind hnone fun parameters e e' _ he => ?_
    exact tracks_bind (keeps_holdingAll (tracks_expect he (by decide) (by decide)))
      fun closing x x' _ hx => keeps_pure hx (by simp [Span.moved_to])
  · refine tracks_bind (tracks_perToken hd (tracks_separated carries_parameter rfl hd _
      (Nat.lt_succ_self _))) fun parameters e e' _ he => ?_
    exact tracks_bind (keeps_holdingAll (tracks_expect he (by decide) (by decide)))
      fun closing x x' _ hx => keeps_pure hx (by simp [Span.moved_to])

theorem tracks_functionName (keyword : Token) (h : seam.Before c c') :
    seam.Tracks (Tree.moved seam.shift) (functionName keyword c)
      (functionName (keyword.moved seam.shift) c') := by
  refine keeps_isAt (h.kind_iff (by decide) (by decide)) (fun hname => ?_) fun _ => ?_
  · exact tracks_bind (tracks_advance h (by simp [hname])) fun token d d' _ hd =>
      keeps_pure hd (moved_toLeaf _ _).symm
  · exact keeps_pure h (by simp [Span.moved])

theorem tracks_function (hs : seam.Carries .statement seam.Extends statement)
    (h : seam.Before c c') (hc : c.current.kind ≠ .endOfInput) :
    seam.Tracks (Tree.moved seam.shift) (function statement c) (function statement c') := by
  refine tracks_bind (tracks_advance h hc) fun keyword d d' _ hd => ?_
  refine tracks_bind (tracks_functionName keyword hd) fun name e e' _ he => keeps_holding ?_
  refine tracks_bind (tracks_parameterList he) fun parameters x x' _ hx => ?_
  exact tracks_bind (keeps_holding (tracks_block hs hx)) fun body y y' _ hy =>
    keeps_pure hy (by simp [Span.moved_to])

theorem carries_declarator (ha : seam.Carries .expression Never assignment) :
    seam.Carries .declarator Never (declarator assignment) where
  reads := reads_declarator ha.reads
  keeps h := by
    refine tracks_bind (tracks_expect h (by decide) (by decide)) fun token d d' _ hd => ?_
    refine keeps_holding (keeps_eat hd (by decide) (by decide) (fun e e' _ he => ?_) ?_)
    · exact tracks_bind (ha.keeps he) fun value x x' _ hx => keeps_pure hx (by simp)
    · exact keeps_pure hd (moved_toLeaf _ _).symm

theorem keeps_varStatement (ha : seam.Carries .expression Never assignment)
    (h : seam.Before c c') (hc : c.current.kind ≠ .endOfInput) :
    seam.Keeps (Tree.moved seam.shift) seam.Extends (varStatement assignment c)
      (varStatement assignment c') := by
  refine tracks_bind (tracks_advance h hc) fun keyword d d' _ hd => ?_
  refine tracks_bind (tracks_perToken hd (tracks_separated (carries_declarator ha) rfl hd _
    (Nat.lt_succ_self _))) fun names e e' _ he => ?_
  have hlast : ((names.map (Tree.moved seam.shift)).getLast?.map declaratorEnd).getD
      (keyword.span.moved seam.shift) =
        ((names.getLast?.map declaratorEnd).getD keyword.span).moved seam.shift := by
    rw [List.getLast?_map]
    cases names.getLast? with
    | none => rfl
    | some name => exact declaratorEnd_moved _ name
  dsimp only [Token.span_moved]
  rw [hlast, ← Span.moved_to]
  exact keeps_finished rfl (keeps_holdingAll (keeps_finish he _))

/-- A statement ends later with the last one below it. -/
theorem extends_around {kind : NodeKind} (hkind : kind.endsBelow) {t u : Tree}
    (h : seam.Extends t u) (start : Span) (init : List Tree) :
    seam.Extends (.branch kind (start.to t.span) (init ++ [t]))
      (.branch kind ((start.moved seam.shift).to u.span)
        (init.map (Tree.moved seam.shift) ++ [u])) := by
  rw [Seam.Extends] at h
  rw [Seam.Extends, moved_branch, List.map_append, List.map_singleton, extended_around hkind, h,
    Span.moved_to, Tree.span_extended, Tree.span_moved, Span.to_assoc]

/-- A branch ends later also if it is wrapped. -/
theorem keeps_branch (hs : seam.Carries .statement seam.Extends statement)
    (h : seam.Before c c') :
    seam.Keeps (Tree.moved seam.shift) seam.Extends (branch statement c) (branch statement c') := by
  refine keeps_bind (hs.keeps h) (fun body d d' _ hd => keeps_pure hd ?_)
    fun body body' d d' _ hd hbody => .past hd ?_
  · rw [Tree.kind_moved]
    split
    · rfl
    · rw [moved_branch, Tree.span_moved]
      rfl
  · have hkind : body'.kind = body.kind := by rw [hbody, Tree.kind_extended, Tree.kind_moved]
    rw [hkind]
    split
    · exact hbody
    · have hspan : body.span.to body.span = body.span := by simp [Span.to]
      have hspan' : (body.span.moved seam.shift).to body'.span = body'.span := by
        rw [hbody, Tree.span_extended, Tree.span_moved, ← Span.to_assoc, ← Span.moved_to, hspan]
      have haround := extends_around (show NodeKind.block.endsBelow from rfl) hbody body.span []
      rwa [hspan, hspan'] at haround

theorem keeps_ifStatement (hs : seam.Carries .statement seam.Extends statement)
    (ha : seam.Carries .expression Never assignment) (h : seam.Before c c')
    (hc : c.current.kind ≠ .endOfInput) :
    seam.Keeps (Tree.moved seam.shift) seam.Extends (ifStatement statement assignment c)
      (ifStatement statement assignment c') := by
  refine tracks_bind (tracks_advance h hc) fun keyword d d' _ hd => ?_
  refine tracks_bind (tracks_expect hd (by decide) (by decide)) fun opening e e' _ he => ?_
  refine tracks_bind (ha.keeps he) fun condition x x' _ hx => keeps_holding ?_
  refine tracks_bind (tracks_expect hx (by decide) (by decide)) fun closing y y' _ hy => ?_
  refine keeps_bind (keeps_branch hs hy) (fun first z z' _ hz => keeps_holding ?_)
    fun first first' z z' _ hz hfirst => keeps_holding ?_
  · refine keeps_eat hz (by decide) (by decide) (fun w w' _ hw => ?_) ?_
    · exact keeps_bind (keeps_branch hs hw)
        (fun second v v' _ hv => keeps_pure hv (by simp [Span.moved_to]))
        fun second second' v v' _ hv hsecond =>
          .past hv (extends_around rfl hsecond keyword.span [condition, first])
    · exact keeps_pure hz (by simp [Span.moved_to])
  -- The branch took the semicolon: on neither side an `else` follows.
  · have hne : z.current.kind ≠ .elseWord := by simp [hz.ended]
    refine keeps_eat_other hne hz.kind_ne_elseWord ?_
    exact .past hz (extends_around rfl hfirst keyword.span [condition])

theorem keeps_returnStatement (ha : seam.Carries .expression Never assignment)
    (h : seam.Before c c') (hc : c.current.kind ≠ .endOfInput) :
    seam.Keeps (Tree.moved seam.shift) seam.Extends (returnStatement assignment c)
      (returnStatement assignment c') := by
  refine tracks_bind (tracks_advance h hc) fun keyword d d' _ hd => ?_
  refine keeps_current (keeps_ite ?_ (fun _ => ?_) fun _ => ?_)
  · by_cases hend : d.current.kind = .endOfInput
    · rw [hd.mark hend]
      rcases seam.closes with hcloses | ⟨hcloses, -⟩ <;> simp [hcloses, hend]
    · rw [hd.current hend, Token.kind_moved]
  · exact keeps_finished rfl (keeps_finish hd _)
  · refine tracks_bind (ha.keeps hd) fun value e e' _ he => ?_
    rw [Token.span_moved, Tree.span_moved, ← Span.moved_to]
    exact keeps_finished rfl (keeps_holding (keeps_finish he _))

theorem keeps_jumpStatement {kind : NodeKind} (hkind : kind.endsBelow = false)
    (h : seam.Before c c') (hc : c.current.kind ≠ .endOfInput) :
    seam.Keeps (Tree.moved seam.shift) seam.Extends (jumpStatement kind c)
      (jumpStatement kind c') := by
  refine tracks_bind (tracks_advance h hc) fun keyword d d' _ hd => ?_
  refine keeps_isAt (hd.kind_iff (by decide) (by decide)) (fun hname => ?_) fun _ => ?_
  · refine tracks_bind (tracks_advance hd (by simp [hname])) fun token e e' _ he => ?_
    dsimp only [Token.span_moved]
    rw [← Span.moved_to, ← moved_toLeaf]
    exact keeps_finished hkind (keeps_holding (keeps_finish he _))
  · exact keeps_finished hkind (keeps_finish hd _)

theorem keeps_labelled (hs : seam.Carries .statement seam.Extends statement)
    (h : seam.Before c c') (hc : c.current.kind ≠ .endOfInput) :
    seam.Keeps (Tree.moved seam.shift) seam.Extends (labelled statement c)
      (labelled statement c') := by
  refine tracks_bind (tracks_advance h hc) fun token d d' _ hd => keeps_holding ?_
  refine tracks_bind (tracks_expect hd (by decide) (by decide)) fun colon e e' _ he => ?_
  exact keeps_bind (hs.keeps he) (fun body x x' _ hx => keeps_pure hx (by simp [Span.moved_to]))
    fun body body' x x' _ hx hbody =>
      .past hx (extends_around rfl hbody token.span [token.toLeaf .name])

theorem keeps_exprStatement (ha : seam.Carries .expression Never assignment)
    (h : seam.Before c c') :
    seam.Keeps (Tree.moved seam.shift) seam.Extends (exprStatement assignment c)
      (exprStatement assignment c') := by
  refine tracks_bind (ha.keeps h) fun value d d' _ hd => ?_
  rw [Tree.span_moved]
  exact keeps_finished rfl (keeps_holding (keeps_finish hd _))

/-- Nothing is read at the end. -/
theorem not_done_at_end {part : Part} {r : Reader Tree} (hr : Reads part r)
    (hsolid : part.isSolid) (h : seam.Before c c') (hc : c.current.kind = .endOfInput)
    (tree : Tree) (d : Cursor) : r c ≠ .done tree d := by
  intro hdone
  have hless := hr.length_lt hsolid h.sealed hdone
  cases h with
  | ends => exact absurd hless (Nat.not_lt_zero _)
  | goes hne => exact hne hc

theorem carries_statementBody (hs : seam.Carries .statement seam.Extends statement)
    (ha : seam.Carries .expression Never assignment) :
    seam.Carries .statement seam.Extends (statementBody statement assignment) where
  reads := reads_statementBody hs.reads ha.reads
  keeps {c c'} h := by
    have hreads := reads_statementBody hs.reads ha.reads
    by_cases hc : c.current.kind = .endOfInput
    · exact .of_not_done (not_done_at_end hreads rfl h hc)
    refine keeps_current ?_
    rw [h.current hc, Token.kind_moved]
    cases hkind : c.current.kind with
    | var => exact keeps_varStatement ha h hc
    | function => exact (tracks_function hs h hc).keeps
    | openBrace => exact (tracks_block hs h).keeps
    | ifWord => exact keeps_ifStatement hs ha h hc
    | ret => exact keeps_returnStatement ha h hc
    | breakWord => exact keeps_jumpStatement rfl h hc
    | continueWord => exact keeps_jumpStatement rfl h hc
    | semicolon =>
      exact tracks_bind (tracks_advance h hc) fun token d d' _ hd => keeps_pure hd (by simp)
    | identifier =>
      refine keeps_following h hc fun next next' hnext => keeps_ite hnext (fun _ => ?_) fun _ => ?_
      · exact keeps_labelled hs h hc
      · exact keeps_exprStatement ha h
    | _ => exact keeps_exprStatement ha h

end Statements

section Expressions

variable {statement assignment : Reader Tree} {inner : Option Level}

/-- Neither the end nor the mark is an operator. -/
theorem precedenceAbove_eq (h : seam.Before c c') (floor : Nat) :
    c'.current.precedenceAbove floor = c.current.precedenceAbove floor := by
  by_cases hc : c.current.kind = .endOfInput
  · rw [h.mark hc]
    rcases seam.closes with hcloses | ⟨hcloses, -⟩ <;>
      simp [Token.precedenceAbove, hcloses, hc]
  · rw [h.current hc]
    rfl

theorem isUnaryOperator_eq (h : seam.Before c c') :
    c'.current.isUnaryOperator = c.current.isUnaryOperator := by
  by_cases hc : c.current.kind = .endOfInput
  · rw [h.mark hc, Token.isUnaryOperator, Token.isUnaryOperator, hc]
    rcases seam.closes with hcloses | ⟨hcloses, -⟩ <;> rw [hcloses]
  · rw [h.current hc]
    rfl

theorem tracks_primary (hs : seam.Carries .statement seam.Extends statement)
    (ha : seam.Carries .expression Never assignment) (h : seam.Before c c') :
    seam.Tracks (Tree.moved seam.shift) (primary statement assignment c)
      (primary statement assignment c') := by
  by_cases hc : c.current.kind = .endOfInput
  · have hreads : Reads .members (primary statement assignment) :=
      fun n t => takes_primary hs.reads ha.reads
    exact .of_not_done (not_done_at_end hreads rfl h hc)
  refine keeps_current ?_
  rw [h.current hc, Token.kind_moved]
  cases hleaf : c.current.kind.leafKind with
  | some kind =>
    exact tracks_bind (tracks_advance h hc) fun token d d' _ hd =>
      keeps_pure hd (moved_toLeaf _ _).symm
  | none =>
    cases hkind : c.current.kind with
    | function => exact tracks_function hs h hc
    | openParen =>
      refine tracks_bind (tracks_advance h hc) fun opening d d' _ hd => ?_
      refine tracks_bind (ha.keeps hd) fun value e e' _ he => ?_
      exact tracks_bind (keeps_holding (tracks_expect he (by decide) (by decide)))
        fun closing x x' _ hx => keeps_pure hx rfl
    | _ => exact .failed

/-- What the productions of a level keep before a seam. -/
structure Productions.Carried (seam : Seam) (level : Level) : Prop where
  sound : level.Sound
  statement : seam.Carries .statement seam.Extends level.statement
  assignment : seam.Carries .expression Never level.assignment
  unary {c c' : Cursor} : seam.Before c c' →
    seam.Tracks (Tree.moved seam.shift) (level.unary c) (level.unary c')
  binaryLink {c c' : Cursor} (floor : Nat) (left : Tree) : seam.Before c c' →
    c.current.kind ≠ .endOfInput → seam.Tracks (Tree.moved seam.shift)
      (level.binaryLink floor left c) (level.binaryLink floor (left.moved seam.shift) c')
  postfixLink {c c' : Cursor} (left : Tree) : seam.Before c c' →
    c.current.kind ≠ .endOfInput → seam.Tracks (Tree.moved seam.shift)
      (level.postfixLink left c) (level.postfixLink (left.moved seam.shift) c')

theorem carries_statement (h : ∀ level ∈ inner, level.Carried seam) :
    seam.Carries .statement seam.Extends (Script.statement inner) := by
  cases inner with
  | none => exact ⟨fun n t => takes_fail, fun _ => .failed⟩
  | some level => exact (h level rfl).statement

theorem carries_assignment (h : ∀ level ∈ inner, level.Carried seam) :
    seam.Carries .expression Never (Script.assignment inner) := by
  cases inner with
  | none => exact ⟨fun n t => takes_fail, fun _ => .failed⟩
  | some level => exact (h level rfl).assignment

theorem tracks_postfixStep (left : Tree) (ha : seam.Carries .expression Never assignment)
    (h : seam.Before c c') (hc : c.current.kind ≠ .endOfInput) :
    seam.Tracks (Tree.moved seam.shift) (postfixStep assignment left c)
      (postfixStep assignment (left.moved seam.shift) c') := by
  refine keeps_eat h (by decide) (by decide) (fun d d' _ hd => ?_) ?_
  · exact tracks_bind (tracks_expect hd (by decide) (by decide)) fun token e e' _ he =>
      keeps_pure he (by simp [Span.moved_to])
  · refine tracks_bind (tracks_advance h hc) fun opening d d' _ hd => ?_
    have harguments : seam.Tracks (List.map (Tree.moved seam.shift)) (arguments assignment d)
        (arguments assignment d') :=
      keeps_isAt (hd.kind_iff (by decide) (by decide)) (fun _ => keeps_pure hd rfl) fun _ =>
        tracks_perToken hd (tracks_separated ha rfl hd _ (Nat.lt_succ_self _))
    refine tracks_bind harguments fun trees e e' _ he => ?_
    exact tracks_bind (keeps_holdingAll (tracks_expect he (by decide) (by decide)))
      fun closing x x' _ hx => keeps_pure hx (by simp [Span.moved_to])

theorem tracks_postfixChain (left : Tree) (hi : ∀ level ∈ inner, level.Carried seam)
    (h : seam.Before c c') :
    seam.Tracks (Tree.moved seam.shift) (postfixChain inner left c)
      (postfixChain inner (left.moved seam.shift) c') := by
  have hdot := h.kind_iff (show TokenKind.dot ≠ .endOfInput by decide) (by decide)
  have hopening := h.kind_iff (show TokenKind.openParen ≠ .endOfInput by decide) (by decide)
  refine keeps_current (keeps_ite (by simp [hdot, hopening]) (fun hlink => ?_) fun _ =>
    keeps_pure h rfl)
  cases inner with
  | none => exact .failed
  | some level =>
    refine (hi level rfl).postfixLink left h ?_
    intro hc
    simp [hc] at hlink

theorem tracks_unary (hi : ∀ level ∈ inner, level.Carried seam) (h : seam.Before c c') :
    seam.Tracks (Tree.moved seam.shift) (unary inner c) (unary inner c') := by
  refine keeps_current (keeps_ite (by rw [isUnaryOperator_eq h]) (fun hop => ?_) fun _ => ?_)
  · have hc : c.current.kind ≠ .endOfInput := by
      intro hc
      rw [Token.isUnaryOperator, hc] at hop
      cases hop
    refine tracks_bind (tracks_advance h hc) fun op d d' _ hd => ?_
    have hoperand : seam.Tracks (Tree.moved seam.shift) (nested inner (·.unary) d)
        (nested inner (·.unary) d') := by
      cases inner with
      | none => exact .failed
      | some level => exact (hi level rfl).unary hd
    exact tracks_bind hoperand fun operand e e' _ he => keeps_pure he (by simp [Span.moved_to])
  · refine tracks_bind (tracks_primary (carries_statement hi) (carries_assignment hi) h)
      fun first d d' _ hd => ?_
    exact tracks_postfixChain first hi hd

theorem tracks_binaryChain (floor : Nat) (left : Tree) (hi : ∀ level ∈ inner, level.Carried seam)
    (h : seam.Before c c') :
    seam.Tracks (Tree.moved seam.shift) (binaryChain inner floor left c)
      (binaryChain inner floor (left.moved seam.shift) c') := by
  refine keeps_current (keeps_ite (by rw [precedenceAbove_eq h]) (fun hlink => ?_) fun _ =>
    keeps_pure h rfl)
  cases inner with
  | none => exact .failed
  | some level =>
    refine (hi level rfl).binaryLink floor left h ?_
    intro hc
    simp [Token.precedenceAbove, hc] at hlink

theorem tracks_binary (floor : Nat) (hi : ∀ level ∈ inner, level.Carried seam)
    (h : seam.Before c c') :
    seam.Tracks (Tree.moved seam.shift) (binary inner floor c) (binary inner floor c') :=
  tracks_bind (tracks_unary hi h) fun left _ _ _ hd => tracks_binaryChain floor left hi hd

theorem tracks_binaryStep (left : Tree) (hi : ∀ level ∈ inner, level.Carried seam)
    (h : seam.Before c c') (hc : c.current.kind ≠ .endOfInput) :
    seam.Tracks (Tree.moved seam.shift) (binaryStep inner left c)
      (binaryStep inner (left.moved seam.shift) c') := by
  refine tracks_bind (tracks_advance h hc) fun op d d' _ hd => ?_
  exact tracks_bind (tracks_binary _ hi hd) fun right e e' _ he =>
    keeps_pure he (by simp [Span.moved_to])

theorem tracks_assignmentBody (hi : ∀ level ∈ inner, level.Carried seam)
    (h : seam.Before c c') :
    seam.Tracks (Tree.moved seam.shift) (assignmentBody inner c) (assignmentBody inner c') := by
  refine tracks_bind (tracks_binary 0 hi h) fun target d d' _ hd => ?_
  refine keeps_isAt (hd.kind_iff (by decide) (by decide)) (fun hequals => keeps_holding ?_)
    fun _ => keeps_pure hd rfl
  refine keeps_ite (by rw [Tree.kind_moved]) (fun _ => ?_) fun _ => .failed
  refine tracks_bind (tracks_advance hd (by simp [hequals])) fun equals e e' _ he => ?_
  exact tracks_bind ((carries_assignment hi).keeps he) fun value x x' _ hx =>
    keeps_pure hx (by simp [Span.moved_to])

theorem levelAbove_carried (hi : ∀ level ∈ inner, level.Carried seam) :
    (levelAbove inner).Carried seam where
  sound := levelAbove_sound fun level hlevel => (hi level hlevel).sound
  statement := carries_statementBody (carries_statement hi) (carries_assignment hi)
  assignment := ⟨reads_assignmentBody fun level hlevel => (hi level hlevel).sound,
    tracks_assignmentBody hi⟩
  unary := tracks_unary hi
  binaryLink floor left h hc :=
    tracks_bind (keeps_holding (tracks_binaryStep left hi h hc)) fun link _ _ _ hd =>
      tracks_binaryChain floor link hi hd
  postfixLink left h hc :=
    tracks_bind (keeps_holding (tracks_postfixStep left (carries_assignment hi) h hc))
      fun link _ _ _ hd => tracks_postfixChain link hi hd

/-- At every depth the grammar keeps its answers before a seam. -/
theorem below_carried (seam : Seam) (left : Nat) : ∀ level ∈ below left, level.Carried seam := by
  induction left with
  | zero => nofun
  | succ left ih =>
    rintro _ ⟨⟩
    exact levelAbove_carried ih

end Expressions

end RefCheck.Script
