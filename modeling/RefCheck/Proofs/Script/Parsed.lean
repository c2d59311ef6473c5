import RefCheck.Proofs.Script.Taking

/-!
# What the parser reads

Every production takes what its answer is derived from, and so does the parser: the tokens of a
script that can be read, up to the end of input, are read as its statements (`derives_of_parse`).
-/

namespace RefCheck.Script

open RefCheck.Text Reader

section Statements

variable {n : Nat} {t : Token} {statement assignment : Reader Tree}

theorem takes_finish {span : Span} :
    Takes n t (finish span) fun end' used _ => Finish span used end' := by
  refine takes_isAt (fun h => ?_) fun _ => takes_pure .without
  refine takes_bind (takes_advance (by simp [h])) ?_
  rintro _ _ now ⟨rfl, rfl⟩
  exact takes_pure (.semicolon h)

theorem takes_block (hs : Reads .statement statement) :
    Takes n t (block statement) fun tree used _ => Derives .block used [tree] := by
  refine takes_bind (takes_expect nofun) ?_
  rintro opening _ now ⟨hopening, rfl⟩
  refine takes_bind (takes_perToken (takes_upTo hs)) ?_
  rintro body inner closing ⟨hclosing, hbody⟩
  refine takes_bind (takes_holdingAll (takes_advance (by simp [hclosing]))) ?_
  rintro _ _ next ⟨rfl, rfl⟩
  exact takes_pure (by simpa using .block hopening hbody hclosing)

theorem reads_parameter : Reads .name parameter := by
  intro n t
  refine takes_bind (takes_expect nofun) ?_
  rintro token _ now ⟨htoken, rfl⟩
  exact takes_pure (.name htoken)

theorem takes_parameterList :
    Takes n t parameterList fun tree used _ => Derives .parameters used [tree] := by
  refine takes_bind (takes_expect nofun) ?_
  rintro opening _ now ⟨hopening, rfl⟩
  refine takes_isAt (fun _ => ?_) fun _ => ?_
  · refine takes_bind (takes_pure (M := fun names used _ => names = [] ∧ used = []) ⟨rfl, rfl⟩) ?_
    rintro _ _ now ⟨rfl, rfl⟩
    refine takes_bind (takes_holdingAll (takes_expect nofun)) ?_
    rintro closing _ next ⟨hclosing, rfl⟩
    exact takes_pure (.noParameters hopening hclosing)
  · refine takes_bind (takes_perToken (takes_separated reads_parameter)) ?_
    rintro names used now hnames
    refine takes_bind (takes_holdingAll (takes_expect nofun)) ?_
    rintro closing _ next ⟨hclosing, rfl⟩
    exact takes_pure (by simpa using .parameters hopening hnames hclosing)

theorem takes_functionName {keyword : Token} :
    Takes n t (functionName keyword) fun name used _ =>
      (∃ token : Token, token.kind = .identifier ∧ used = [token] ∧ name = token.toLeaf .name) ∨
        used = [] ∧ name = .leaf .name "" ⟨keyword.span.stop, keyword.span.stop⟩ := by
  refine takes_isAt (fun h => ?_) fun _ => takes_pure (.inr ⟨rfl, rfl⟩)
  refine takes_bind (takes_advance (by simp [h])) ?_
  rintro token _ now ⟨rfl, rfl⟩
  exact takes_pure (.inl ⟨token, h, rfl, rfl⟩)

theorem takes_function (ht : t.kind = .function) (hs : Reads .statement statement) :
    Takes n t (function statement) fun tree used _ => Derives .function used [tree] := by
  refine takes_bind (takes_advance (by simp [ht])) ?_
  rintro _ _ now ⟨rfl, rfl⟩
  refine takes_bind takes_functionName fun name named now hname => takes_holding ?_
  refine takes_bind takes_parameterList fun params ps now hparams => ?_
  refine takes_bind (takes_holding (takes_block hs)) fun body bs now hbody => takes_pure ?_
  rcases hname with ⟨token, htoken, rfl, rfl⟩ | ⟨rfl, rfl⟩
  · simpa using .function ht htoken hparams hbody
  · simpa using .unnamed ht hparams hbody

theorem reads_declarator (ha : Reads .expression assignment) :
    Reads .declarator (declarator assignment) := by
  intro n t
  refine takes_bind (takes_expect nofun) ?_
  rintro token _ now ⟨htoken, rfl⟩
  refine takes_holding (takes_eat nofun (fun hequals next => ?_) fun _ => ?_)
  · refine takes_bind (ha _ _) fun value used next hvalue => takes_pure ?_
    simpa using .initialized htoken hequals hvalue
  · exact takes_pure (.declared htoken)

theorem takes_varStatement (ht : t.kind = .var) (ha : Reads .expression assignment) :
    Takes n t (varStatement assignment) fun tree used _ => Derives .statement used [tree] := by
  refine takes_bind (takes_advance (by simp [ht])) ?_
  rintro _ _ now ⟨rfl, rfl⟩
  refine takes_bind (takes_perToken (takes_separated (reads_declarator ha))) ?_
  intro names used now hnames
  refine takes_bind (takes_holdingAll takes_finish) fun span ending now hspan => takes_pure ?_
  simpa using .var ht hnames hspan

theorem TokenKind.jumpKind_ne_block (kind : TokenKind) : kind.jumpKind ≠ some .block := by
  cases kind <;> nofun

/-- A statement that is a block is read as one. -/
theorem Derives.block_of_kind {ts : List Token} {tree : Tree} (h : Derives .statement ts [tree])
    (hkind : tree.kind = .block) : Derives .block ts [tree] := by
  cases h with
  | blockStatement h => exact h
  | functionStatement h => cases h <;> cases hkind
  | jump h | jumpTo h =>
    rw [Tree.kind_node] at hkind
    exact absurd (hkind ▸ h) (TokenKind.jumpKind_ne_block _)
  | _ => cases hkind

theorem takes_branch (hs : Reads .statement statement) :
    Takes n t (branch statement) fun tree used _ => Derives .branch used [tree] := by
  refine takes_bind (hs _ _) fun body used now hbody => takes_pure ?_
  rw [List.append_nil]
  by_cases h : body.kind = .block
  · rw [if_pos h]
    exact .plainBranch (hbody.block_of_kind h)
  · rw [if_neg h]
    exact .wrappedBranch hbody h

theorem takes_ifStatement (ht : t.kind = .ifWord) (hs : Reads .statement statement)
    (ha : Reads .expression assignment) :
    Takes n t (ifStatement statement assignment)
      fun tree used _ => Derives .statement used [tree] := by
  refine takes_bind (takes_advance (by simp [ht])) ?_
  rintro _ _ now ⟨rfl, rfl⟩
  refine takes_bind (takes_expect nofun) ?_
  rintro opening _ now ⟨hopening, rfl⟩
  refine takes_bind (ha _ _) fun condition cs now hcondition => takes_holding ?_
  refine takes_bind (takes_expect nofun) ?_
  rintro closing _ now ⟨hclosing, rfl⟩
  refine takes_bind (takes_branch hs) fun first fs now hfirst => takes_holding ?_
  refine takes_eat nofun (fun helse now => ?_) fun _ => ?_
  · refine takes_bind (takes_branch hs) fun second ss now hsecond => takes_pure ?_
    simpa using .ifElse ht hopening hcondition hclosing hfirst helse hsecond
  · exact takes_pure (by simpa using .ifThen ht hopening hcondition hclosing hfirst)

theorem takes_returnStatement (ht : t.kind = .ret) (ha : Reads .expression assignment) :
    Takes n t (returnStatement assignment) fun tree used _ => Derives .statement used [tree] := by
  refine takes_bind (takes_advance (by simp [ht])) ?_
  rintro keyword _ now ⟨rfl, rfl⟩
  refine takes_current (takes_ite (fun _ => ?_) fun _ => ?_)
  · refine takes_bind takes_finish fun span ending now hspan => takes_pure ?_
    simpa using .retNothing ht hspan
  · refine takes_bind (ha _ _) fun value used now hvalue => ?_
    refine takes_bind (takes_holding takes_finish) fun span ending now hspan => takes_pure ?_
    simpa using .ret ht hvalue hspan

theorem takes_jumpStatement {kind : NodeKind} (ht : t.kind.jumpKind = some kind) :
    Takes n t (jumpStatement kind) fun tree used _ => Derives .statement used [tree] := by
  have hend : t.kind ≠ .endOfInput := by
    intro h
    rw [h] at ht
    cases ht
  refine takes_bind (takes_advance hend) ?_
  rintro keyword _ now ⟨rfl, rfl⟩
  refine takes_isAt (fun hname => ?_) fun _ => ?_
  · refine takes_bind (takes_advance (by simp [hname])) ?_
    rintro token _ now ⟨rfl, rfl⟩
    refine takes_bind (takes_holding takes_finish) fun span ending now hspan => takes_pure ?_
    simpa using .jumpTo ht hname hspan
  · refine takes_bind takes_finish fun span ending now hspan => takes_pure ?_
    simpa using .jump ht hspan

theorem takes_labelled (ht : t.kind = .identifier) (hs : Reads .statement statement) :
    Takes n t (labelled statement) fun tree used _ => Derives .statement used [tree] := by
  refine takes_bind (takes_advance (by simp [ht])) ?_
  rintro token _ now ⟨rfl, rfl⟩
  refine takes_holding (takes_bind (takes_expect nofun) ?_)
  rintro colon _ now ⟨hcolon, rfl⟩
  refine takes_bind (hs _ _) fun body used now hbody => takes_pure ?_
  simpa using .label ht hcolon hbody

theorem takes_exprStatement (ha : Reads .expression assignment) :
    Takes n t (exprStatement assignment) fun tree used _ => Derives .statement used [tree] := by
  refine takes_bind (ha _ _) fun value used now hvalue => ?_
  refine takes_bind (takes_holding takes_finish) fun span ending now hspan => takes_pure ?_
  simpa using .exprResult hvalue hspan

theorem reads_statementBody (hs : Reads .statement statement) (ha : Reads .expression assignment) :
    Reads .statement (statementBody statement assignment) := by
  intro n t
  refine takes_current ?_
  cases hkind : t.kind with
  | var => exact takes_varStatement hkind ha
  | function => exact (takes_function hkind hs).imp fun _ _ _ => .functionStatement
  | openBrace => exact (takes_block hs).imp fun _ _ _ => .blockStatement
  | ifWord => exact takes_ifStatement hkind hs ha
  | ret => exact takes_returnStatement hkind ha
  | breakWord => exact takes_jumpStatement (by rw [hkind]; rfl)
  | continueWord => exact takes_jumpStatement (by rw [hkind]; rfl)
  | semicolon =>
    refine takes_bind (takes_advance (by simp [hkind])) ?_
    rintro token _ now ⟨rfl, rfl⟩
    exact takes_pure (.empty hkind)
  | identifier =>
    refine takes_following fun next => takes_ite (fun _ => ?_) fun _ => ?_
    · exact takes_labelled hkind hs
    · exact takes_exprStatement ha
  | _ => exact takes_exprStatement ha

end Statements

section Expressions

variable {n : Nat} {t : Token} {statement assignment : Reader Tree} {inner : Option Level}

theorem takes_primary (hs : Reads .statement statement) (ha : Reads .expression assignment) :
    Takes n t (primary statement assignment)
      fun tree used _ => Derives .members used [tree] := by
  refine takes_current ?_
  cases hleaf : t.kind.leafKind with
  | some kind =>
    have hend : t.kind ≠ .endOfInput := by
      intro h
      rw [h] at hleaf
      cases hleaf
    refine takes_bind (takes_advance hend) ?_
    rintro token _ now ⟨rfl, rfl⟩
    exact takes_pure (.leaf hleaf)
  | none =>
    cases hkind : t.kind with
    | function => exact (takes_function hkind hs).imp fun _ _ _ => .functionValue
    | openParen =>
      refine takes_bind (takes_advance (by simp [hkind])) ?_
      rintro opening _ now ⟨rfl, rfl⟩
      refine takes_bind (ha _ _) fun value used now hvalue => ?_
      refine takes_bind (takes_holding (takes_expect nofun)) ?_
      rintro closing _ now ⟨hclosing, rfl⟩
      exact takes_pure (by simpa using .parentheses hkind hvalue hclosing)
    | _ => exact takes_missing

/-- What the productions of a level take. A link goes on behind what was taken before it. -/
structure Productions.Sound (level : Level) : Prop where
  statement : Reads .statement level.statement
  assignment : Reads .expression level.assignment
  unary : Reads .unary level.unary
  binaryLink : ∀ n t floor left ts, (t.precedenceAbove floor).isSome → Derives .operand ts [left] →
    Takes n t (level.binaryLink floor left) fun tree used _ => Derives .operand (ts ++ used) [tree]
  postfixLink : ∀ n t left ts, t.kind = .dot ∨ t.kind = .openParen → Derives .members ts [left] →
    Takes n t (level.postfixLink left) fun tree used _ => Derives .members (ts ++ used) [tree]

theorem reads_statement (h : ∀ level ∈ inner, level.Sound) :
    Reads .statement (Script.statement inner) := by
  cases inner with
  | none => exact fun n t => takes_fail
  | some level => exact (h level rfl).statement

theorem reads_assignment (h : ∀ level ∈ inner, level.Sound) :
    Reads .expression (Script.assignment inner) := by
  cases inner with
  | none => exact fun n t => takes_fail
  | some level => exact (h level rfl).assignment

theorem takes_postfixStep {left : Tree} {ts : List Token} (ha : Reads .expression assignment)
    (ht : t.kind = .dot ∨ t.kind = .openParen) (hleft : Derives .members ts [left]) :
    Takes n t (postfixStep assignment left)
      fun tree used _ => Derives .members (ts ++ used) [tree] := by
  refine takes_eat nofun (fun hdot now => ?_) fun hdot => ?_
  · refine takes_bind (takes_expect nofun) ?_
    rintro token _ now ⟨htoken, rfl⟩
    exact takes_pure (.getProp hleft hdot htoken)
  · have hopening := ht.resolve_left hdot
    refine takes_bind (takes_advance (by simp [hopening])) ?_
    rintro _ _ now ⟨rfl, rfl⟩
    have harguments : Takes (n - 1) now (arguments assignment) fun trees used _ =>
        trees = [] ∧ used = [] ∨ Derives (.list .expression) used trees :=
      takes_isAt (fun _ => takes_pure (.inl ⟨rfl, rfl⟩)) fun _ =>
        (takes_perToken (takes_separated ha)).imp fun _ _ _ => .inr
    refine takes_bind harguments fun trees used now htrees => ?_
    refine takes_bind (takes_holdingAll (takes_expect nofun)) ?_
    rintro closing _ now ⟨hclosing, rfl⟩
    refine takes_pure ?_
    rcases htrees with ⟨rfl, rfl⟩ | htrees
    · exact .callNothing hleft hopening hclosing
    · simpa using .call hleft hopening htrees hclosing

theorem takes_postfixChain {left : Tree} {ts : List Token} (h : ∀ level ∈ inner, level.Sound)
    (hleft : Derives .members ts [left]) :
    Takes n t (postfixChain inner left)
      fun tree used _ => Derives .members (ts ++ used) [tree] := by
  refine takes_current (takes_ite (fun ht => ?_) fun _ => takes_pure (by simpa using hleft))
  cases inner with
  | none => exact takes_holding takes_fail
  | some level => exact (h level rfl).postfixLink n t left ts (by simpa using ht) hleft

theorem reads_unary (h : ∀ level ∈ inner, level.Sound) : Reads .unary (unary inner) := by
  intro n t
  refine takes_current (takes_ite (fun ht => ?_) fun _ => ?_)
  · have hend : t.kind ≠ .endOfInput := by
      intro hkind
      rw [Token.isUnaryOperator, hkind] at ht
      cases ht
    refine takes_bind (takes_advance hend) ?_
    rintro _ _ now ⟨rfl, rfl⟩
    cases inner with
    | none => exact takes_bind (M := fun _ _ _ => False) takes_fail fun _ _ _ => False.elim
    | some level =>
      refine takes_bind ((h level rfl).unary _ _) fun operand used now hoperand => takes_pure ?_
      simpa using .unary ht hoperand
  · refine takes_bind (takes_primary (reads_statement h) (reads_assignment h))
      fun first used now hfirst => ?_
    exact (takes_postfixChain h hfirst).imp fun _ _ _ => .members

theorem takes_binaryChain {floor : Nat} {left : Tree} {ts : List Token}
    (h : ∀ level ∈ inner, level.Sound) (hleft : Derives .operand ts [left]) :
    Takes n t (binaryChain inner floor left)
      fun tree used _ => Derives .operand (ts ++ used) [tree] := by
  refine takes_current (takes_ite (fun ht => ?_) fun _ => takes_pure (by simpa using hleft))
  cases inner with
  | none => exact takes_holding takes_fail
  | some level => exact (h level rfl).binaryLink n t floor left ts ht hleft

theorem reads_binary (h : ∀ level ∈ inner, level.Sound) (floor : Nat) :
    Reads .operand (binary inner floor) := by
  intro n t
  refine takes_bind (reads_unary h _ _) fun left used now hleft => ?_
  exact takes_binaryChain h (.firstOperand hleft)

theorem takes_binaryStep {floor : Nat} {left : Tree} {ts : List Token}
    (h : ∀ level ∈ inner, level.Sound) (ht : (t.precedenceAbove floor).isSome)
    (hleft : Derives .operand ts [left]) :
    Takes n t (binaryStep inner left) fun tree used _ => Derives .operand (ts ++ used) [tree] := by
  obtain ⟨hop, hprecedence⟩ : t.kind = .operator ∧ (precedence t.text).isSome := by
    rw [Token.precedenceAbove] at ht
    split at ht
    · next hop => exact ⟨hop, Option.isSome_of_isSome_filter _ _ ht⟩
    · cases ht
  refine takes_bind (takes_advance (by simp [hop])) ?_
  rintro _ _ now ⟨rfl, rfl⟩
  refine takes_bind (reads_binary h _ _ _) fun right used now hright => takes_pure ?_
  simpa using .binary hleft hop hprecedence hright

theorem reads_assignmentBody (h : ∀ level ∈ inner, level.Sound) :
    Reads .expression (assignmentBody inner) := by
  intro n t
  refine takes_bind (reads_binary h 0 _ _) fun target used now htarget => ?_
  refine takes_isAt (fun hequals => takes_holding ?_) fun _ =>
    takes_pure (by simpa using .expression htarget)
  refine takes_ite (fun hplace => ?_) fun _ => takes_failAt
  refine takes_bind (takes_advance (by simp [hequals])) ?_
  rintro _ _ now ⟨rfl, rfl⟩
  refine takes_bind (reads_assignment h _ _) fun value more now hvalue => takes_pure ?_
  simpa using .assign htarget (by simpa using hplace) hequals hvalue

theorem levelAbove_sound (h : ∀ level ∈ inner, level.Sound) : (levelAbove inner).Sound where
  statement := reads_statementBody (reads_statement h) (reads_assignment h)
  assignment := reads_assignmentBody h
  unary := reads_unary h
  binaryLink n t floor left ts ht hleft := by
    refine takes_bind (takes_holding (takes_binaryStep h ht hleft)) fun link used now hlink => ?_
    simpa using takes_binaryChain h hlink
  postfixLink n t left ts ht hleft := by
    refine takes_bind (takes_holding (takes_postfixStep (reads_assignment h) ht hleft))
      fun link used now hlink => ?_
    simpa using takes_postfixChain h hlink

theorem below_sound (left : Nat) : ∀ level ∈ below left, level.Sound := by
  induction left with
  | zero => nofun
  | succ left ih =>
    rintro _ ⟨⟩
    exact levelAbove_sound ih

end Expressions

/-- A cursor that starts a sealed row of tokens. The script goes from the first token to the end of
input. -/
theorem derives_of_script {c rest : Cursor} {tree : Tree} (hc : Sealed c.fault c.tokens)
    (h : script c = .done tree rest) :
    ∃ used last, c.fault = none ∧ c.tokens = used ++ [last] ∧ last.kind = .endOfInput ∧
      tree = .node .script "" ⟨c.current.span.start, last.span.stop⟩ tree.children ∧
      Derives .statements used tree.children := by
  have htakes : Takes (c.ahead.length + 1) c.current script fun tree used last =>
      last.kind = .endOfInput ∧ Derives .statements used tree.children ∧
        tree = .node .script "" ⟨c.current.span.start, last.span.stop⟩ tree.children := by
    refine takes_current ?_
    refine takes_bind (takes_perToken (takes_upTo (reads_statement (below_sound maxNesting)))) ?_
    rintro body used last ⟨hlast, hbody⟩
    exact takes_current (takes_pure ⟨hlast, by rwa [List.append_nil], rfl⟩)
  obtain ⟨used, htokens, hfault, hlast, hbody, htree⟩ :=
    htakes c hc rfl (Nat.lt_succ_self _) tree rest h
  rw [htokens] at hc
  have hend := hc.of_append (List.cons_ne_nil _ _)
  rw [Cursor.tokens, Sealed, if_pos hlast] at hend
  refine ⟨used, rest.current, hend.2, ?_, hlast, htree, hbody⟩
  rw [htokens, Cursor.tokens, hend.1]

end RefCheck.Script
